import Trellis.Proofs.Markup.Canonical

/-!
# Tokens are pieces of the text

Reading looks ahead, but not far: what it makes of a token depends on the piece of text that the token is, and on
nothing that follows. There are two exceptions. Text runs up to the next `<`, so it can only be followed by one. And a
comment or a tag that the end of the text cuts short would go on into whatever followed. Apart from these, one rest of
the text may be put in the place of another, and the tokens before it stay the same.
-/
namespace Trellis.Markup

/-- A reader takes a piece off the front of a text, and takes it just so before every other rest that fits. -/
def Takes {α : Type} (read : List Char → α × List Char) (Fits : List Char → Prop) (cs : List Char) : Prop :=
  ∃ piece, cs = piece ++ (read cs).2 ∧ ∀ rest, Fits rest → read (piece ++ rest) = ((read cs).1, rest)

/-! ### Ends -/

theorem dropWhile_ne_of_mem {stop : Char} {cs : List Char} (h : stop ∈ cs) :
    cs.dropWhile (· ≠ stop) = stop :: after stop cs := by
  induction cs with
  | nil => cases h
  | cons c cs ih =>
    by_cases hc : c = stop
    · simp [hc, after]
    · have hmem : stop ∈ cs := (List.mem_cons.1 h).resolve_left (Ne.symm hc)
      rw [after, List.dropWhile_cons_of_pos (by simpa using hc)]
      exact ih hmem

theorem exists_piece_after {stop : Char} {cs : List Char} (h : stop ∈ cs) :
    ∃ piece, piece ≠ [] ∧ cs = piece ++ after stop cs ∧ ∀ rest,
      (piece ++ rest).takeWhile (· ≠ stop) = cs.takeWhile (· ≠ stop) ∧ after stop (piece ++ rest) = rest := by
  refine ⟨cs.takeWhile (· ≠ stop) ++ [stop], by simp, ?_, fun rest => ?_⟩
  · rw [List.append_assoc, List.singleton_append, ← dropWhile_ne_of_mem h, List.takeWhile_append_dropWhile]
  · have hstop : Stops (· ≠ stop) (stop :: rest) := by simp
    obtain ⟨htake, hdrop⟩ := rescan cs hstop
    rw [List.append_assoc, List.singleton_append, after, htake, hdrop]
    exact ⟨rfl, rfl⟩

theorem mem_of_after_ne_nil {stop : Char} {cs : List Char} (h : after stop cs ≠ []) : stop ∈ cs := by
  by_contra hmem
  have hall : ∀ c ∈ cs, decide (c ≠ stop) = true := fun c hc => decide_eq_true (ne_of_mem_of_not_mem hc hmem)
  exact h (congrArg (List.drop 1) (List.dropWhile_eq_nil_iff.2 hall))

/-- The piece holds the end itself, so that nothing after it can begin an earlier one. -/
theorem exists_piece_afterComment {cs : List Char} (h : ['-', '-', '>'] <:+: cs) :
    ∃ piece, cs = piece ++ afterComment cs ∧ 3 ≤ piece.length ∧ ∀ rest, afterComment (piece ++ rest) = rest := by
  fun_induction afterComment cs with
  | case1 cs => exact ⟨['-', '-', '>'], rfl, le_rfl, fun rest => rfl⟩
  | case2 c cs hnot ih =>
    have htail : ['-', '-', '>'] <:+: cs := by
      refine (List.infix_cons_iff.1 h).resolve_left ?_
      rintro ⟨tail, htail⟩
      cases htail
      exact hnot tail rfl rfl
    obtain ⟨piece, hcs, hlen, hpiece⟩ := ih htail
    refine ⟨c :: piece, congrArg (c :: ·) hcs, by simp; omega, fun rest => ?_⟩
    rw [List.cons_append, afterComment, hpiece]
    intro tail hc hstart
    match piece, hlen with
    | a :: b :: piece, _ =>
      cases hstart
      exact hnot _ hc hcs
  | case3 => simp at h

theorem infix_of_afterComment_ne_nil {cs : List Char} (h : afterComment cs ≠ []) : ['-', '-', '>'] <:+: cs := by
  fun_induction afterComment cs with
  | case1 cs => exact ⟨[], cs, rfl⟩
  | case2 c cs _ ih => exact (ih h).trans (List.infix_cons (List.infix_refl cs))
  | case3 => exact absurd rfl h

/-! ### Values of attributes -/

/-- What a value without quotes is made of. -/
def isBare (c : Char) : Bool := !isBlank c && c ≠ '>'

theorem attributeValue_of_quote {cs body body' : List Char} {quote : Char} (hquote : quote ∈ ['\x22', '\x27'])
    (h : skipBlanks cs = '=' :: body) (h' : skipBlanks body = quote :: body') :
    attributeValue cs = (decode (body'.takeWhile (· ≠ quote)), after quote body') := by
  fin_cases hquote <;> simp [attributeValue, h, h']

theorem attributeValue_of_bare {cs body : List Char} (h : skipBlanks cs = '=' :: body)
    (h' : ∀ c ∈ (skipBlanks body).head?, c ∉ ['\x22', '\x27']) :
    attributeValue cs = (decode ((skipBlanks body).takeWhile isBare), (skipBlanks body).dropWhile isBare) := by
  unfold attributeValue
  simp only [h]
  split
  · next heq => simp [heq] at h'
  · next heq => simp [heq] at h'
  · rfl

theorem attributeValue_of_none {cs : List Char} (h : ∀ c ∈ (skipBlanks cs).head?, c ≠ '=') :
    attributeValue cs = ([], skipBlanks cs) := by
  unfold attributeValue
  split
  · next heq => simp [heq] at h
  · rfl

theorem blanks_append (cs : List Char) : cs.takeWhile isBlank ++ skipBlanks cs = cs :=
  List.takeWhile_append_dropWhile

theorem stops_skipBlanks (cs : List Char) : Stops isBlank (skipBlanks cs) := stops_dropWhile cs

theorem skipBlanks_blanks (cs : List Char) {rest : List Char} (h : Stops isBlank rest) :
    skipBlanks (cs.takeWhile isBlank ++ rest) = rest := (rescan cs h).2

theorem stops_equals (cs : List Char) : Stops isBlank ('=' :: cs) := stops_cons.2 (by decide)

theorem takes_quoted {cs body body' : List Char} {quote : Char} (hquote : quote ∈ ['\x22', '\x27'])
    (hbody : skipBlanks cs = '=' :: body) (hbody' : skipBlanks body = quote :: body') (hclosed : quote ∈ body') :
    Takes attributeValue (fun _ => True) cs := by
  have hblank : isBlank quote = false := by fin_cases hquote <;> decide
  obtain ⟨piece, -, hpiece, hrest⟩ := exists_piece_after hclosed
  have hcs : cs = cs.takeWhile isBlank ++ '=' :: (body.takeWhile isBlank ++ quote :: (piece ++ after quote body')) := by
    rw [← hpiece, ← hbody', blanks_append, ← hbody, blanks_append]
  refine ⟨cs.takeWhile isBlank ++ '=' :: (body.takeWhile isBlank ++ quote :: piece), ?_, fun rest _ => ?_⟩
  · rw [attributeValue_of_quote hquote hbody hbody']
    simpa using hcs
  · have hskip := skipBlanks_blanks cs (stops_equals (body.takeWhile isBlank ++ quote :: (piece ++ rest)))
    have hskip' := skipBlanks_blanks body (stops_cons.2 hblank : Stops isBlank (quote :: (piece ++ rest)))
    rw [List.append_assoc, List.cons_append, List.append_assoc, List.cons_append,
      attributeValue_of_quote hquote hskip hskip', attributeValue_of_quote hquote hbody hbody', (hrest rest).1,
      (hrest rest).2]

theorem takes_bare {cs body : List Char} (hbody : skipBlanks cs = '=' :: body)
    (hbare : ∀ c ∈ (skipBlanks body).head?, c ∉ ['\x22', '\x27']) :
    Takes attributeValue (fun rest => rest.head? = (attributeValue cs).2.head?) cs := by
  have hcs : cs = cs.takeWhile isBlank ++ '=' :: (body.takeWhile isBlank ++
      ((skipBlanks body).takeWhile isBare ++ (skipBlanks body).dropWhile isBare)) := by
    rw [List.takeWhile_append_dropWhile, blanks_append, ← hbody, blanks_append]
  rw [attributeValue_of_bare hbody hbare]
  refine ⟨cs.takeWhile isBlank ++ '=' :: (body.takeWhile isBlank ++ (skipBlanks body).takeWhile isBare), ?_,
    fun rest hrest => ?_⟩
  · rw [attributeValue_of_bare hbody hbare]
    simpa using hcs
  · have hhead : ((skipBlanks body).takeWhile isBare ++ rest).head? = (skipBlanks body).head? := by
      rw [List.head?_append, hrest, ← List.head?_append, List.takeWhile_append_dropWhile]
    have hskip := skipBlanks_blanks cs
      (stops_equals (body.takeWhile isBlank ++ ((skipBlanks body).takeWhile isBare ++ rest)))
    have hskip' := skipBlanks_blanks body ((stops_skipBlanks body).of_head hhead)
    have hbare' : ∀ c ∈ (skipBlanks (body.takeWhile isBlank ++ ((skipBlanks body).takeWhile isBare ++ rest))).head?,
        c ∉ ['\x22', '\x27'] := by
      rw [hskip', hhead]
      exact hbare
    obtain ⟨htake, hdrop⟩ := rescan (skipBlanks body) ((stops_dropWhile (skipBlanks body)).of_head hrest)
    rw [List.append_assoc, List.cons_append, List.append_assoc, attributeValue_of_bare hskip hbare',
      attributeValue_of_bare hbody hbare, hskip', htake, hdrop]

theorem takes_none {cs : List Char} (hnone : ∀ c ∈ (skipBlanks cs).head?, c ≠ '=') :
    Takes attributeValue (fun rest => rest.head? = (attributeValue cs).2.head?) cs := by
  rw [attributeValue_of_none hnone]
  refine ⟨cs.takeWhile isBlank, ?_, fun rest hrest => ?_⟩
  · rw [attributeValue_of_none hnone, blanks_append]
  · have hskip := skipBlanks_blanks cs ((stops_skipBlanks cs).of_head hrest)
    have hnone' : ∀ c ∈ (skipBlanks (cs.takeWhile isBlank ++ rest)).head?, c ≠ '=' := by
      rw [hskip, hrest]
      exact hnone
    rw [attributeValue_of_none hnone', attributeValue_of_none hnone, hskip]

/-- A value that is followed by something is read the same before everything that begins with the same character. -/
theorem takes_attributeValue {cs : List Char} (h : (attributeValue cs).2 ≠ []) :
    Takes attributeValue (fun rest => rest.head? = (attributeValue cs).2.head?) cs := by
  by_cases hequals : (skipBlanks cs).head? = some '='
  · obtain ⟨body, hbody⟩ := List.head?_eq_some_iff.1 hequals
    by_cases hquote : ∃ quote ∈ ['\x22', '\x27'], (skipBlanks body).head? = some quote
    · obtain ⟨quote, hquote, hhead⟩ := hquote
      obtain ⟨body', hbody'⟩ := List.head?_eq_some_iff.1 hhead
      rw [attributeValue_of_quote hquote hbody hbody'] at h
      obtain ⟨piece, hpiece, hrest⟩ := takes_quoted hquote hbody hbody' (mem_of_after_ne_nil h)
      exact ⟨piece, hpiece, fun rest _ => hrest rest trivial⟩
    · exact takes_bare hbody fun c hc hmem => hquote ⟨c, hmem, hc⟩
  · apply takes_none
    rintro c hc rfl
    exact hequals hc

/-! ### Opening tags -/

/-- Whether an opening tag comes to its end, from a place inside it. -/
def tagEnds (cs : List Char) : Bool :=
  match _h : skipBlanks cs with
  | [] => false
  | '/' :: '>' :: _ => true
  | '>' :: _ => true
  | c :: rest =>
    if isAttributeChar c then tagEnds (attributeValue (rest.dropWhile isAttributeChar)).2 else tagEnds rest
termination_by cs.length
decreasing_by
  all_goals
    have hle := length_skipBlanks_le cs
    have hvalue := length_attributeValue_le (rest.dropWhile isAttributeChar)
    have hname := (List.dropWhile_suffix isAttributeChar (l := rest)).length_le
    rw [_h, List.length_cons] at hle
    omega

theorem attributes_of_blank {cs : List Char} (h : skipBlanks cs = []) : attributes cs = ([], false, []) := by
  rw [attributes]
  split <;> simp_all

theorem attributes_of_selfClosing {cs rest : List Char} (h : skipBlanks cs = '/' :: '>' :: rest) :
    attributes cs = ([], true, rest) := by
  rw [attributes]
  split <;> simp_all

theorem attributes_of_end {cs rest : List Char} (h : skipBlanks cs = '>' :: rest) :
    attributes cs = ([], false, rest) := by
  rw [attributes]
  split <;> simp_all

theorem attributes_of_stray {cs rest : List Char} {c : Char} (h : skipBlanks cs = c :: rest)
    (hslash : ∀ rest', c = '/' → rest = '>' :: rest' → False) (hend : c = '>' → False)
    (hc : ¬ isAttributeChar c = true) : attributes cs = attributes rest := by
  rw [attributes]
  split
  · next heq => simp [heq] at h
  · next heq =>
    cases heq.symm.trans h
    exact absurd rfl (hslash _ rfl)
  · next heq =>
    cases heq.symm.trans h
    exact absurd rfl hend
  · next heq =>
    cases heq.symm.trans h
    exact if_neg hc

theorem tagEnds_of_attributes_ne_nil {cs : List Char} (h : (attributes cs).2.2 ≠ []) : tagEnds cs = true := by
  fun_induction tagEnds cs with
  | case1 cs hskip => simp [attributes_of_blank hskip] at h
  | case2 | case3 => rfl
  | case4 cs c rest hslash hend hskip hc ih =>
    rw [attributes_cons hskip hc rfl] at h
    exact ih h
  | case5 cs c rest hslash hend hskip hc ih =>
    rw [attributes_of_stray hskip hslash hend hc] at h
    exact ih h

/-- A piece of a tag up to its end, which is read the same whatever follows it. -/
structure TagPiece (cs piece : List Char) : Prop where
  ne_nil : piece ≠ []
  split : cs = piece ++ (attributes cs).2.2
  read : ∀ rest, attributes (piece ++ rest) = ((attributes cs).1, (attributes cs).2.1, rest)

theorem tagPiece_ending {cs tail ending : List Char} {selfClosing : Bool}
    (hblank : ∀ rest, Stops isBlank (ending ++ rest))
    (hread : ∀ cs rest, skipBlanks cs = ending ++ rest → attributes cs = ([], selfClosing, rest))
    (hne : ending ≠ []) (hskip : skipBlanks cs = ending ++ tail) : TagPiece cs (cs.takeWhile isBlank ++ ending) where
  ne_nil := List.append_ne_nil_of_right_ne_nil _ hne
  split := by rw [hread cs tail hskip, List.append_assoc, ← hskip, blanks_append]
  read rest := by
    rw [hread cs tail hskip, List.append_assoc]
    exact hread _ rest (skipBlanks_blanks cs (hblank rest))

theorem TagPiece.attribute {cs tail piece : List Char} {c : Char} (hskip : skipBlanks cs = c :: tail)
    (hc : isAttributeChar c = true) (h : TagPiece (attributeValue (tail.dropWhile isAttributeChar)).2 piece) :
    ∃ front, TagPiece cs (front ++ piece) := by
  have hblank : isBlank c = false := by simpa [hskip] using stops_skipBlanks cs
  generalize hvalue : attributeValue (tail.dropWhile isAttributeChar) = value at h
  have hsome : (attributeValue (tail.dropWhile isAttributeChar)).2 ≠ [] := by
    rw [hvalue, h.split]
    exact List.append_ne_nil_of_left_ne_nil h.ne_nil _
  obtain ⟨written, hwritten, hread⟩ := takes_attributeValue hsome
  rw [hvalue] at hwritten hread
  have hattributes := attributes_cons hskip hc hvalue
  refine ⟨cs.takeWhile isBlank ++ c :: (tail.takeWhile isAttributeChar ++ written),
    List.append_ne_nil_of_right_ne_nil _ h.ne_nil, ?_, fun rest => ?_⟩
  · have hcs : cs.takeWhile isBlank ++ c :: (tail.takeWhile isAttributeChar ++ (written ++ value.2)) = cs := by
      rw [← hwritten, List.takeWhile_append_dropWhile, ← hskip, blanks_append]
    rw [h.split] at hcs
    rw [hattributes]
    simpa using hcs.symm
  · have hhead : (piece ++ rest).head? = value.2.head? := by
      rw [h.split]
      exact head?_append_piece h.ne_nil rest _
    have hwritten' : tail.dropWhile isAttributeChar = (written ++ piece) ++ (attributes value.2).2.2 := by
      rw [List.append_assoc, ← h.split]
      exact hwritten
    obtain ⟨htake, hdrop⟩ := rescan_piece (List.append_ne_nil_of_right_ne_nil _ h.ne_nil) hwritten' rest
    rw [List.append_assoc] at htake hdrop
    have hskip' := skipBlanks_blanks cs (stops_cons.2 hblank :
      Stops isBlank (c :: (tail.takeWhile isAttributeChar ++ (written ++ (piece ++ rest)))))
    have hvalue' := (congrArg attributeValue hdrop).trans (hread (piece ++ rest) hhead)
    have hcons := attributes_cons hskip' hc hvalue'
    rw [htake, h.read] at hcons
    rw [hattributes]
    simpa using hcons

theorem TagPiece.stray {cs tail piece : List Char} {c : Char} (hskip : skipBlanks cs = c :: tail)
    (hslash : ∀ rest, c = '/' → tail = '>' :: rest → False) (hend : c = '>' → False)
    (hc : ¬ isAttributeChar c = true) (h : TagPiece tail piece) : ∃ front, TagPiece cs (front ++ piece) := by
  have hblank : isBlank c = false := by simpa [hskip] using stops_skipBlanks cs
  have hattributes := attributes_of_stray hskip hslash hend hc
  refine ⟨cs.takeWhile isBlank ++ [c], List.append_ne_nil_of_right_ne_nil _ h.ne_nil, ?_, fun rest => ?_⟩
  · rw [hattributes, List.append_assoc, List.append_assoc, List.singleton_append, ← h.split, ← hskip, blanks_append]
  · have hskip' := skipBlanks_blanks cs (stops_cons.2 hblank : Stops isBlank (c :: (piece ++ rest)))
    -- The piece begins as the tag went on, so the `/` of a `/>` that was not there does not appear either.
    have hslash' : ∀ rest', c = '/' → piece ++ rest = '>' :: rest' → False := by
      intro rest' hc hstart
      obtain ⟨d, piece', rfl⟩ := List.exists_cons_of_ne_nil h.ne_nil
      cases hstart
      exact hslash _ hc h.split
    rw [hattributes, List.append_assoc, List.append_assoc, List.singleton_append,
      attributes_of_stray hskip' hslash' hend hc, h.read]

/-- A tag that comes to its end does so within a piece. -/
theorem exists_tagPiece {cs : List Char} (h : tagEnds cs = true) : ∃ piece, TagPiece cs piece := by
  fun_induction tagEnds cs with
  | case1 => cases h
  | case2 cs tail hskip =>
    exact ⟨_, tagPiece_ending (fun _ => stops_cons.2 (by decide)) (fun _ _ => attributes_of_selfClosing)
      (List.cons_ne_nil '/' ['>']) hskip⟩
  | case3 cs tail hskip =>
    exact ⟨_, tagPiece_ending (fun _ => stops_cons.2 (by decide)) (fun _ _ => attributes_of_end)
      (List.cons_ne_nil '>' []) hskip⟩
  | case4 cs c tail hslash hend hskip hc ih =>
    obtain ⟨piece, hpiece⟩ := ih h
    obtain ⟨front, hfront⟩ := hpiece.attribute hskip hc
    exact ⟨front ++ piece, hfront⟩
  | case5 cs c tail hslash hend hskip hc ih =>
    obtain ⟨piece, hpiece⟩ := ih h
    obtain ⟨front, hfront⟩ := hpiece.stray hskip hslash hend hc
    exact ⟨front ++ piece, hfront⟩

/-! ### Tokens -/

/-- Whether a token ends before the text does: a comment at its `-->`, a tag at its `>`. Text is never cut short. -/
def isWhole (c : Char) (cs : List Char) : Bool :=
  if c = '<' then
    match cs with
    | '!' :: '-' :: '-' :: rest => decide (['-', '-', '>'] <:+: rest)
    | '/' :: d :: rest => !d.isAlpha || decide ('>' ∈ rest.dropWhile isNameChar)
    | d :: rest => !d.isAlpha || tagEnds (rest.dropWhile isNameChar)
    | [] => true
  else true

theorem isWhole_closing {d : Char} (hd : d.isAlpha = true) (rest : List Char) :
    isWhole '<' ('/' :: d :: rest) = true ↔ '>' ∈ rest.dropWhile isNameChar := by
  simp [isWhole, hd]

theorem isWhole_opening {d : Char} (hd : d.isAlpha = true) (rest : List Char) :
    isWhole '<' (d :: rest) = tagEnds (rest.dropWhile isNameChar) := by
  unfold isWhole
  rw [if_pos rfl]
  split
  · next heq =>
    cases heq
    exact absurd hd (by decide)
  · next heq =>
    cases heq
    exact absurd hd (by decide)
  · next heq =>
    cases heq
    rw [hd, Bool.not_true, Bool.false_or]
  · next heq => cases heq

theorem isWhole_text {c : Char} {cs : List Char} (h : Plain c cs) : isWhole c cs = true := by
  unfold isWhole
  by_cases hc : c = '<'
  · obtain ⟨hcomment, hclosing, hopening⟩ := h hc
    rw [if_pos hc]
    split
    · next rest => exact absurd ⟨rest, rfl⟩ hcomment
    · next d rest => rw [hclosing d ⟨rest, rfl⟩, Bool.not_false, Bool.true_or]
    · next d rest _ _ => rw [hopening d ⟨rest, rfl⟩, Bool.not_false, Bool.true_or]
    · rfl
  · rw [if_neg hc]

theorem isWhole_of_next_ne_nil {c : Char} {cs : List Char} (h : (next c cs).2 ≠ []) : isWhole c cs = true := by
  obtain ⟨rest, rfl, rfl⟩ | ⟨d, rest, rfl, rfl, hd⟩ | ⟨d, rest, rfl, rfl, hd⟩ | hplain := next_cases c cs
  · exact decide_eq_true (infix_of_afterComment_ne_nil h)
  · rw [next_closing hd] at h
    exact (isWhole_closing hd rest).2 (mem_of_after_ne_nil h)
  · rw [next_opening hd] at h
    rw [isWhole_opening hd]
    exact tagEnds_of_attributes_ne_nil h
  · exact isWhole_text hplain

/-- What may follow a token: after text, only a place at which something else can begin. -/
def Token.Fits (t : Token) (rest : List Char) : Prop := ∀ content, t = .text content → Stops (· ≠ '<') rest

theorem fits_next (c : Char) (cs : List Char) : (next c cs).1.Fits (next c cs).2 := by
  intro content ht
  obtain ⟨rest, rfl, rfl⟩ | ⟨d, rest, rfl, rfl, hd⟩ | ⟨d, rest, rfl, rfl, hd⟩ | hplain := next_cases c cs
  · rw [next_comment] at ht
    cases ht
  · rw [next_closing hd] at ht
    cases ht
  · rw [next_opening hd] at ht
    cases ht
  · rw [next_text hplain]
    exact stops_dropWhile cs

theorem prefix_of_run {start run rest : List Char} (hstart : '<' ∉ start) (hrest : Stops (· ≠ '<') rest)
    (h : start <+: run ++ rest) : start <+: run := by
  rcases List.prefix_or_prefix_of_prefix h (List.prefix_append run rest) with hle | ⟨more, rfl⟩
  · exact hle
  · cases more with
    | nil => simp
    | cons c more =>
      obtain ⟨tail, htail⟩ := (List.prefix_append_right_inj run).1 h
      rw [← htail] at hrest
      have hc : c = '<' := by simpa using hrest
      simp [hc] at hstart

/-- Text that is followed by something else goes on being text. -/
theorem Plain.of_text {c : Char} {cs rest : List Char} (h : Plain c cs) (hrest : Stops (· ≠ '<') rest) :
    Plain c (cs.takeWhile (· ≠ '<') ++ rest) := by
  intro hc
  obtain ⟨hcomment, hclosing, hopening⟩ := h hc
  have hstarts : ∀ {start}, '<' ∉ start → start <+: cs.takeWhile (· ≠ '<') ++ rest → start <+: cs := fun hstart hle =>
    (prefix_of_run hstart hrest hle).trans (List.takeWhile_prefix _)
  refine ⟨fun hle => hcomment (hstarts (by decide) hle), fun d hle => ?_, fun d hle => ?_⟩
  · by_cases hd : d = '<'
    · subst hd
      decide
    · exact hclosing d (hstarts (by simpa using Ne.symm hd) hle)
  · by_cases hd : d = '<'
    · subst hd
      decide
    · exact hopening d (hstarts (by simpa using Ne.symm hd) hle)

/-- A token that is not cut short is read from a piece of the text, whatever may follow it. -/
theorem takes_next {c : Char} {cs : List Char} (h : isWhole c cs = true) :
    Takes (next c) (next c cs).1.Fits cs := by
  obtain ⟨rest, rfl, rfl⟩ | ⟨d, rest, rfl, rfl, hd⟩ | ⟨d, rest, rfl, rfl, hd⟩ | hplain := next_cases c cs
  · obtain ⟨piece, hpiece, -, hread⟩ := exists_piece_afterComment (of_decide_eq_true h)
    refine ⟨'!' :: '-' :: '-' :: piece, congrArg ('!' :: '-' :: '-' :: ·) hpiece, fun rest' _ => ?_⟩
    exact (next_comment (piece ++ rest')).trans (congrArg (Prod.mk Token.comment) (hread rest'))
  · obtain ⟨piece, hne, hpiece, hread⟩ := exists_piece_after ((isWhole_closing hd rest).1 h)
    refine ⟨'/' :: d :: (rest.takeWhile isNameChar ++ piece), ?_, fun rest' _ => ?_⟩
    · rw [next_closing hd]
      simp [← hpiece]
    · obtain ⟨htake, hdrop⟩ := rescan_piece hne hpiece rest'
      rw [List.cons_append, List.cons_append, List.append_assoc, next_closing hd, next_closing hd, htake, hdrop,
        (hread rest').2]
  · rw [isWhole_opening hd] at h
    obtain ⟨piece, hpiece⟩ := exists_tagPiece h
    refine ⟨d :: (rest.takeWhile isNameChar ++ piece), ?_, fun rest' _ => ?_⟩
    · rw [next_opening hd]
      simp [← hpiece.split]
    · obtain ⟨htake, hdrop⟩ := rescan_piece hpiece.ne_nil hpiece.split rest'
      rw [List.cons_append, List.append_assoc, next_opening hd, next_opening hd, htake, hdrop, hpiece.read]
  · rw [next_text hplain]
    refine ⟨cs.takeWhile (· ≠ '<'), ?_, fun rest hrest => ?_⟩
    · rw [next_text hplain, List.takeWhile_append_dropWhile]
    · have hstops := hrest _ rfl
      obtain ⟨htake, hdrop⟩ := rescan cs hstops
      rw [next_text (hplain.of_text hstops), next_text hplain, htake, hdrop]

end Trellis.Markup
