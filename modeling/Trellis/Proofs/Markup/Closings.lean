import Trellis.Proofs.Markup.Pieces

/-!
# Closing tags do no harm

A closing tag that names nothing open is passed over, and one that does name something only does earlier what the end
of the text does anyway. So no closing tag after a text changes what the text is read as, and inside a text only those
do that close something there. Both compare the reading of two texts: up to the place of the closing tag they agree
token by token, since a token is read from its own piece of the text, and from there on they go on with the same rest.
-/
namespace Trellis.Markup

/-! ### On the way through a text -/

/-- Reading a text comes to a rest of it, between two tokens, and these are the tokens before. -/
inductive Reads : List Char → List Token → List Char → Prop
  | start (cs : List Char) : Reads cs [] cs
  | token {c : Char} {cs left rest : List Char} {t : Token} {ts : List Token} (hnext : next c cs = (t, left))
      (hleft : Reads left ts rest) : Reads (c :: cs) (t :: ts) rest

/-- The end of the text cuts no comment and no tag short. -/
def uncut : List Char → Bool
  | [] => true
  | c :: cs => isWhole c cs && uncut (next c cs).2
termination_by cs => cs.length
decreasing_by
  have := length_next_le c cs
  simp
  omega

theorem reads_tokens (cs : List Char) : Reads cs (tokens cs) [] := by
  fun_induction tokens cs with
  | case1 => exact .start []
  | case2 c cs token ih => exact .token rfl ih

theorem Reads.tokens {cs rest : List Char} {ts : List Token} (h : Reads cs ts rest) :
    tokens cs = ts ++ tokens rest := by
  induction h with
  | start => rfl
  | token hnext _ ih => rw [tokens_of_next hnext, ih, List.cons_append]

/-- What has been read stays the same if another rest follows it, as long as nothing of it was cut short. -/
theorem Reads.extend {cs rest rest' : List Char} {ts : List Token} (h : Reads cs ts rest)
    (hend : rest ≠ [] ∨ uncut cs = true) (hrest' : Stops (· ≠ '<') rest') :
    ∃ before, cs = before ++ rest ∧ Reads (before ++ rest') ts rest' := by
  induction h with
  | start cs => exact ⟨[], rfl, .start rest'⟩
  | @token c cs left rest t ts hnext hleft ih =>
    have hfits := fits_next c cs
    rw [hnext] at hfits
    have hend_left : rest ≠ [] ∨ uncut left = true := hend.imp_right fun huncut => by
      rw [uncut, hnext, Bool.and_eq_true] at huncut
      exact huncut.2
    obtain ⟨before, rfl, hreads⟩ := ih hend_left
    have hwhole : isWhole c cs = true := by
      rcases hend with hne | huncut
      · apply isWhole_of_next_ne_nil
        rw [hnext]
        exact List.append_ne_nil_of_right_ne_nil before hne
      · rw [uncut, Bool.and_eq_true] at huncut
        exact huncut.1
    obtain ⟨piece, hcs, hpiece⟩ := takes_next hwhole
    rw [hnext] at hcs hpiece
    -- A text token needs a `<` after it: the one it had, or the one that the new rest begins with.
    have hfits' : t.Fits (before ++ rest') := by
      intro content ht
      cases before with
      | nil => exact hrest'
      | cons d before => exact hfits content ht
    refine ⟨c :: (piece ++ before), ?_, .token ?_ hreads⟩
    · rw [hcs, List.cons_append, List.append_assoc]
    · exact (congrArg (next c) (List.append_assoc piece before rest')).trans (hpiece _ hfits')

theorem tokens_extend {before rest rest' : List Char} {ts : List Token} (h : Reads (before ++ rest) ts rest)
    (hend : rest ≠ [] ∨ uncut (before ++ rest) = true) (hrest' : Stops (· ≠ '<') rest') :
    tokens (before ++ rest') = ts ++ tokens rest' := by
  obtain ⟨before', hbefore, hreads⟩ := h.extend hend hrest'
  cases List.append_cancel_right hbefore
  exact hreads.tokens

/-! ### Closing tags -/

/-- A letter and then letters, digits and `-`, in either case. -/
def isTagName (name : String) : Bool :=
  match name.toList with
  | [] => false
  | c :: cs => c.isAlpha && cs.all isNameChar

theorem tokens_writeClosing {name : String} (h : isTagName name = true) (rest : List Char) :
    tokens (writeClosing name ++ rest) = .closing (lowercase name.toList) :: tokens rest := by
  unfold isTagName at h
  cases hname : name.toList with
  | nil => simp [hname] at h
  | cons c cs =>
    simp only [hname, Bool.and_eq_true, List.all_eq_true] at h
    rw [← hname, tokens_closing_name hname h.1 h.2]

theorem tokens_closings {names : List String} (h : ∀ name ∈ names, isTagName name = true) :
    tokens (names.flatMap writeClosing) = names.map fun name => .closing (lowercase name.toList) := by
  induction names with
  | nil => rw [List.flatMap_nil, tokens, List.map_nil]
  | cons name names ih =>
    rw [List.flatMap_cons, tokens_writeClosing (h name List.mem_cons_self),
      ih fun other hother => h other (List.mem_cons_of_mem _ hother), List.map_cons]

theorem stops_closings (names : List String) : Stops (· ≠ '<') (names.flatMap writeClosing) := by
  cases names with
  | nil => exact stops_nil
  | cons name names => simp [writeClosing]

namespace Cursor

theorem closeAll_closeThrough (tag : String) (path : List Opened) (siblings : List Markup) :
    closeAll (closeThrough tag path siblings).path (closeThrough tag path siblings).siblings =
      closeAll path siblings := by
  induction path generalizing siblings with
  | nil => rfl
  | cons o path ih =>
    rw [closeThrough, closeAll]
    split
    · rfl
    · exact ih _

/-- What a closing tag closes would be closed at the end. -/
theorem finish_read_closing (c : Cursor) (tag : String) : (c.read (.closing tag)).finish = c.finish := by
  rw [read]
  split
  · exact congrArg List.reverse (closeAll_closeThrough tag c.path c.siblings)
  · rfl

theorem finish_read_closings (names : List String) (c : Cursor) :
    ((names.map fun name => Token.closing (lowercase name.toList)).foldl read c).finish = c.finish := by
  induction names generalizing c with
  | nil => rfl
  | cons name names ih => rw [List.map_cons, List.foldl_cons, ih, finish_read_closing]

end Cursor

/-- A text that is not cut short is read as the same forest with any closing tags after it. And where reading a text is
between two tokens, a closing tag can be put in that names nothing open there, in whatever case it is written. -/
theorem closings_tolerated (s : String) :
    (uncut s.toList = true → ∀ names : List String, (∀ name ∈ names, isTagName name = true) →
      parse (s ++ String.ofList (names.flatMap writeClosing)) = parse s) ∧
    ∀ (u v : String) (ts : List Token) (name : String), s = u ++ v → Reads s.toList ts v.toList →
      (v ≠ "" ∨ uncut s.toList = true) → isTagName name = true →
      (ts.foldl Cursor.read .start).isOpen (lowercase name.toList) = false →
      parse (u ++ String.ofList (writeClosing name) ++ v) = parse s := by
  constructor
  · intro huncut names hnames
    have hreads := reads_tokens s.toList
    rw [← List.append_nil s.toList] at hreads huncut
    have htokens := tokens_extend hreads (.inr huncut) (stops_closings names)
    rw [List.append_nil, tokens_closings hnames] at htokens
    rw [parse, String.toList_append, String.toList_ofList, htokens, ofTokens, List.foldl_append,
      Cursor.finish_read_closings]
    rfl
  · rintro u v ts name rfl hreads hend hname hopen
    have hbefore := hreads.tokens
    rw [String.toList_append] at hreads hend hbefore
    have hstops : Stops (· ≠ '<') (writeClosing name ++ v.toList) := by simp [writeClosing]
    have htokens := tokens_extend hreads (hend.imp_left (mt String.toList_eq_nil_iff.1)) hstops
    rw [tokens_writeClosing hname] at htokens
    have hread : (ts.foldl Cursor.read .start).read (.closing (lowercase name.toList)) =
        ts.foldl Cursor.read .start := by
      rw [Cursor.read, hopen, if_neg (by decide)]
    rw [parse, parse, String.toList_append, String.toList_append, String.toList_append, String.toList_ofList,
      List.append_assoc, htokens, hbefore, ofTokens, ofTokens, List.foldl_append, List.foldl_append, List.foldl_cons,
      hread]

/-- A list that is left open, and a `<` at the end that begins nothing. -/
theorem closings_tolerated_list :
    uncut "<ul><li>1 <".toList = true ∧
      parse ("<ul><li>1 <" ++ String.ofList (["LI", "em"].flatMap writeClosing)) = parse "<ul><li>1 <" ∧
      parse ("<ul>" ++ String.ofList (writeClosing "li") ++ "<li>1 <") = parse "<ul><li>1 <" := by
  have huncut : uncut "<ul><li>1 <".toList = true := by decide +kernel
  have hnext : next '<' "ul><li>1 <".toList = (.opening "ul" [] false, "<li>1 <".toList) := by decide +kernel
  obtain ⟨hafter, hinside⟩ := closings_tolerated "<ul><li>1 <"
  refine ⟨huncut, hafter huncut _ (by decide), ?_⟩
  exact hinside "<ul>" "<li>1 <" _ "li" (by decide) (.token hnext (.start _)) (.inl (by decide)) (by decide) (by decide)

end Trellis.Markup
