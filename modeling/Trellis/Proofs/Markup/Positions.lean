import Trellis.Proofs.Markup.Entities
import Trellis.Proofs.Markup.Pieces
import Trellis.Proofs.Text.Slices

/-!
# Reading by positions

Markup can also be read with a position that moves through the text: by as many bytes as a search has passed, by one or
two bytes over characters that are known, or to the end. Nothing in this keeps the position from running into the middle
of a character or beyond the end, where no slice can be taken, nor from staying where it is, so that a loop would go
round forever. Reading breaks off in both cases, and neither happens. Reading by positions follows reading what is left
of the text, step by step, and so it ends at the end of the text, with the same forest, and no loop takes more than one
turn for each byte of the text and one more.
-/
namespace Trellis.Markup

/-- Where reading stands, in bytes, and all the positions at which it has been before, newest first. -/
structure Place where
  pos : Nat
  passed : List Nat
deriving DecidableEq, Repr

namespace Place

def start : Place := ⟨0, []⟩

def moveTo (pos : Nat) (place : Place) : Place := ⟨pos, place.pos :: place.passed⟩

/-- Reading has only been where the text can be cut. -/
def Sound (source : String) (place : Place) : Prop := ∀ pos ∈ place.pos :: place.passed, IsBoundary source pos

end Place

/-- Reading from a place. It breaks off, without a result, where a slice cannot be taken. -/
abbrev Reading := StateT Place Option

/-- Takes turns until one of them ends the loop. It breaks off if none of so many turns does. -/
def turns {σ α : Type} (turn : σ → Reading (σ ⊕ α)) : Nat → σ → Reading α
  | 0, _ => failure
  | limit + 1, s => do
    match ← turn s with
    | .inl s => turns turn limit s
    | .inr a => return a

/-! ### The reader -/

namespace Reading

def advance (count : Nat) : Reading Unit := modify fun place => place.moveTo (place.pos + count)

/-- Decodes the entity at an ampersand, or copies the ampersand. -/
def decodeEntity (out rest : String) : Reading (String × String ⊕ String) := do
  match entity? rest.toList with
  | some e => return .inl (out.push e.2, ← sliceFrom? rest (bytes e.1))
  | none => return .inl (out.push '&', ← sliceFrom? rest 1)

/-- Copies what stands before the next ampersand, and everything if there is none. -/
def decodeTurn (state : String × String) : Reading (String × String ⊕ String) := do
  let (out, rest) := state
  match firstIndex? (· = '&') (indexed 0 rest.toList) with
  | none => return .inr (out ++ rest)
  | some amp =>
    let copied ← sliceTo? rest amp
    let rest ← sliceFrom? rest amp
    decodeEntity (out ++ copied) rest

def decoded (text : String) : Reading String := turns decodeTurn (text.utf8ByteSize + 1) ("", text)

section

variable (source : String)

def rest : Reading String := do sliceFrom? source (← get).pos

/-- The characters up to the first that does not satisfy a predicate. -/
def takeRun (p : Char → Bool) : Reading String := do
  let rest ← rest source
  let stop := (firstIndex? (fun c => !p c) (indexed 0 rest.toList)).getD rest.utf8ByteSize
  advance stop
  sliceTo? rest stop

/-- A value in quotes, or up to a blank or `>`. -/
def value : Reading String := do
  let rest ← rest source
  match rest.toList.head?.filter (· ∈ ['\x22', '\x27']) with
  | some quote =>
    let body ← sliceFrom? rest 1
    match firstIndex? (· = quote) (indexed 0 body.toList) with
    | some stop =>
      advance (stop + 2)
      decoded (← sliceTo? body stop)
    | none =>
      modify (·.moveTo source.utf8ByteSize)
      decoded body
  | none => decoded (← takeRun source isBare)

/-- The value after a name, which is empty without `=`. -/
def valueOfName : Reading String := do
  let _ ← takeRun source isBlank
  let rest ← rest source
  if rest.toList.head? = some '=' then
    advance 1
    let _ ← takeRun source isBlank
    value source
  else return ""

/-- One attribute more, a stray character less, or the end of the tag and whether it closes itself. -/
def attributeTurn (found : List (String × String)) :
    Reading (List (String × String) ⊕ List (String × String) × Bool) := do
  let _ ← takeRun source isBlank
  let rest ← rest source
  if rest.isEmpty then return .inr (found, false)
  else if ['/', '>'].isPrefixOf rest.toList then
    advance 2
    return .inr (found, true)
  else if ['>'].isPrefixOf rest.toList then
    advance 1
    return .inr (found, false)
  else
    let name ← takeRun source isAttributeChar
    if name.isEmpty then
      advance 1
      return .inl found
    else
      let value ← valueOfName source
      return .inl (found ++ [(lowercase name.toList, value)])

/-- The attributes of a tag after those found so far, and whether it closes itself. -/
def inside (found : List (String × String)) : Reading (List (String × String) × Bool) :=
  turns (attributeTurn source) (source.utf8ByteSize + 1) found

def comment : Reading Token := do
  let rest ← rest source
  advance ((findText? ['-', '-', '>'] (rest.toList.drop 4)).elim rest.utf8ByteSize (4 + · + 3))
  return .comment

def closing : Reading Token := do
  advance 2
  let tag ← takeRun source isNameChar
  let rest ← rest source
  advance ((firstIndex? (· = '>') (indexed 0 rest.toList)).elim rest.utf8ByteSize (· + 1))
  return .closing (lowercase tag.toList)

def opening : Reading Token := do
  advance 1
  let tag ← takeRun source isNameChar
  let inside ← inside source []
  return .opening (lowercase tag.toList) inside.1 inside.2

/-- Text up to the next `<` behind its first character. -/
def text : Reading Token := do
  let rest ← rest source
  let stop := (firstIndex? (· = '<') ((indexed 0 rest.toList).drop 1)).getD rest.utf8ByteSize
  advance stop
  let content ← decoded (← sliceTo? rest stop)
  return .text content

/-- A letter follows the opener. -/
def startsTag (opener cs : List Char) : Bool :=
  opener.isPrefixOf cs && (cs.drop opener.length).head?.any Char.isAlpha

def token : Reading Token := do
  let rest ← rest source
  if ['<', '!', '-', '-'].isPrefixOf rest.toList then comment source
  else if startsTag ['<', '/'] rest.toList then closing source
  else if startsTag ['<'] rest.toList then opening source
  else text source

/-- Reads a token, or ends at the end. -/
def turn (cursor : Cursor) : Reading (Cursor ⊕ Cursor) := do
  if (← get).pos < source.utf8ByteSize then return .inl (cursor.read (← token source)) else return .inr cursor

/-- The markup of a text, and the place at which reading ends. -/
def all : Option (List Markup × Place) := do
  let (cursor, place) ← turns (turn source) (source.utf8ByteSize + 1) .start .start
  return (cursor.finish, place)

end

end Reading

/-! ### What is left to be read -/

/-- Reading has only been where the text can be cut, and this is left of the text. -/
structure Leaves (source : String) (place : Place) (cs : List Char) : Prop where
  sound : place.Sound source
  follows : sliceFrom? source place.pos = some (String.ofList cs)

/-- From every place that leaves the first of two rests, reading gives a result and leaves the second. -/
def Leads {α : Type} (source : String) (reading : Reading α) (cs : List Char) (a : α) (cs' : List Char) : Prop :=
  ∀ place, Leaves source place cs → ∃ place', reading place = some (a, place') ∧ Leaves source place' cs'

/-- So does a loop, within a number of turns. -/
def LeadsWithin {σ α : Type} (count : Nat) (source : String) (turn : σ → Reading (σ ⊕ α)) (s : σ) (cs : List Char)
    (a : α) (cs' : List Char) : Prop :=
  ∀ limit, count ≤ limit → Leads source (turns turn limit s) cs a cs'

section

variable {source : String} {place place' : Place} {cs cs' cs'' piece : List Char} {α β σ : Type} {a : α} {b : β}

theorem leaves_start (source : String) : Leaves source .start source.toList where
  sound := by
    intro pos hpos
    rw [List.mem_singleton.1 hpos]
    exact String.Pos.Raw.isValid_zero
  follows := sliceFrom?_eq_some_iff.2 ⟨"", by simp, rfl⟩

theorem Place.Sound.leaves (h : place.Sound source) : ∃ cs, Leaves source place cs := by
  obtain ⟨u, v, hsource, hpos⟩ := isBoundary_iff.1 (h place.pos List.mem_cons_self)
  refine ⟨v.toList, h, ?_⟩
  rw [String.ofList_toList]
  exact sliceFrom?_eq_some_iff.2 ⟨u, hsource, hpos⟩

namespace Leaves

theorem exists_before (h : Leaves source place cs) :
    ∃ before, source = String.ofList (before ++ cs) ∧ place.pos = bytes before := by
  obtain ⟨u, hsource, hpos⟩ := sliceFrom?_eq_some_iff.1 h.follows
  refine ⟨u.toList, ?_, ?_⟩
  · rw [String.ofList_append, String.ofList_toList, hsource]
  · rw [bytes_toList, hpos]

theorem pos_add_bytes (h : Leaves source place cs) : place.pos + bytes cs = source.utf8ByteSize := by
  obtain ⟨before, hsource, hpos⟩ := h.exists_before
  rw [hpos, hsource, ← bytes_append]
  rfl

theorem moveTo (h : Leaves source place (piece ++ cs)) : Leaves source (place.moveTo (place.pos + bytes piece)) cs := by
  obtain ⟨before, hsource, hpos⟩ := h.exists_before
  have hfollows : sliceFrom? source (place.pos + bytes piece) = some (String.ofList cs) := by
    rw [hsource, hpos, ← bytes_append, ← List.append_assoc]
    exact sliceFrom?_ofList _ _
  refine ⟨?_, hfollows⟩
  intro pos hmem
  rcases List.mem_cons.1 hmem with rfl | hmem
  · obtain ⟨u, hu⟩ := sliceFrom?_eq_some_iff.1 hfollows
    exact isBoundary_iff.2 ⟨u, _, hu⟩
  · exact h.sound pos hmem

theorem length_le (h : Leaves source place cs) : cs.length ≤ source.utf8ByteSize := by
  have hall := h.pos_add_bytes
  have hbytes := length_le_bytes cs
  omega

/-- Of two places in a text, the one that leaves less is further on. -/
theorem pos_lt (h : Leaves source place cs) (h' : Leaves source place' cs') (hlength : cs'.length < cs.length) :
    place.pos < place'.pos := by
  have hsuffix : ∀ {place cs}, Leaves source place cs → cs <:+ source.toList := by
    intro place cs h
    obtain ⟨before, hsource, -⟩ := h.exists_before
    exact ⟨before, by rw [hsource, String.toList_ofList]⟩
  -- both rests are ends of the same text, so the shorter is an end of the longer
  obtain ⟨piece, rfl⟩ := List.suffix_of_suffix_length_le (hsuffix h') (hsuffix h) hlength.le
  have hpiece := length_le_bytes piece
  have hfirst := h.pos_add_bytes
  have hsecond := h'.pos_add_bytes
  rw [bytes_append] at hfirst
  rw [List.length_append] at hlength
  omega

end Leaves

namespace Leads

theorem pure (a : α) (cs : List Char) : Leads source (pure a) cs a cs := fun place h => ⟨place, rfl, h⟩

theorem bind {first : Reading α} {next : α → Reading β} (h : Leads source first cs a cs')
    (h' : Leads source (next a) cs' b cs'') : Leads source (first >>= next) cs b cs'' := by
  intro place hplace
  obtain ⟨place', hfirst, hplace'⟩ := h place hplace
  obtain ⟨place'', hnext, hplace''⟩ := h' place' hplace'
  refine ⟨place'', ?_, hplace''⟩
  change (first place >>= fun r => next r.1 r.2) = some (b, place'')
  rw [hfirst]
  exact hnext

/-- A slice that can be taken moves nothing. -/
theorem slice {x : Option α} (h : x = some a) (cs : List Char) : Leads source (liftM x) cs a cs := by
  intro place hplace
  rw [h]
  exact ⟨place, rfl, hplace⟩

end Leads

namespace LeadsWithin

variable {turn : σ → Reading (σ ⊕ α)} {s s' : σ} {m n : Nat}

theorem ended (h : Leads source (turn s) cs (.inr a) cs') (n : Nat) : LeadsWithin (n + 1) source turn s cs a cs' := by
  intro limit hlimit
  obtain ⟨limit, rfl⟩ := Nat.exists_eq_add_of_lt hlimit
  rw [turns]
  exact h.bind (Leads.pure a cs')

theorem again (h : Leads source (turn s) cs (.inl s') cs') (hlt : m < n)
    (h' : LeadsWithin m source turn s' cs' a cs'') : LeadsWithin n source turn s cs a cs'' := by
  intro limit hlimit
  obtain ⟨more, rfl⟩ := Nat.exists_eq_add_of_lt (hlt.trans_le hlimit)
  rw [turns]
  exact h.bind (h' (m + more) (Nat.le_add_right m more))

/-- A loop that takes a turn for each character that is left, and one more, comes to its end. -/
theorem leads (h : LeadsWithin (cs.length + 1) source turn s cs a cs') :
    Leads source (turns turn (source.utf8ByteSize + 1) s) cs a cs' := by
  intro place hplace
  exact h _ (Nat.succ_le_succ hplace.length_le) place hplace

end LeadsWithin

end

/-! ### Following the rests -/

namespace Reading

variable {source : String}

/-- Moving over a piece of the text. -/
theorem leads_advance (piece cs : List Char) {count : Nat} (h : count = bytes piece) :
    Leads source (advance count) (piece ++ cs) () cs := by
  intro place hplace
  rw [h]
  exact ⟨_, rfl, hplace.moveTo⟩

theorem leads_rest (cs : List Char) : Leads source (rest source) cs (String.ofList cs) cs := by
  intro place hplace
  refine ⟨place, ?_, hplace⟩
  change (sliceFrom? source place.pos >>= fun r => some (r, place)) = some (String.ofList cs, place)
  rw [hplace.follows]
  rfl

theorem leads_takeRun (p : Char → Bool) (cs : List Char) :
    Leads source (takeRun source p) cs (String.ofList (cs.takeWhile p)) (cs.dropWhile p) := by
  have hcs : cs.takeWhile p ++ cs.dropWhile p = cs := List.takeWhile_append_dropWhile
  have hstop : (firstIndex? (fun c => !p c) (indexed 0 (String.ofList cs).toList)).getD
      (String.ofList cs).utf8ByteSize = bytes (cs.takeWhile p) := by
    have hsearch := getD_firstIndex? (fun c => !p c) 0 cs
    simp only [Bool.not_not, Nat.zero_add] at hsearch
    rw [String.toList_ofList]
    exact hsearch
  have hmove : Leads source (advance _) (cs.takeWhile p ++ cs.dropWhile p) () _ := leads_advance _ _ hstop
  rw [hcs] at hmove
  refine (leads_rest cs).bind (hmove.bind ?_)
  rw [hstop]
  exact Leads.slice (sliceTo?_takeWhile p cs) _

theorem leads_blanks (cs : List Char) :
    Leads source (takeRun source isBlank) cs (String.ofList (cs.takeWhile isBlank)) (skipBlanks cs) :=
  leads_takeRun isBlank cs

/-! ### Decoding -/

theorem leads_decodeTurn {out : String} {text rest cs : List Char} {c : Char} {outcome : String × String ⊕ String}
    (hrest : text.dropWhile (· ≠ '&') = c :: rest)
    (h : Leads source (decodeEntity (out ++ String.ofList (text.takeWhile (· ≠ '&'))) (String.ofList (c :: rest))) cs
      outcome cs) :
    Leads source (decodeTurn (out, String.ofList text)) cs outcome cs := by
  obtain ⟨-, -, hamp⟩ := firstIndex?_found hrest
  have hfrom := sliceFrom?_takeWhile (· ≠ '&') text
  rw [hrest] at hfrom
  simp only [decodeTurn, String.toList_ofList, hamp]
  exact (Leads.slice (sliceTo?_takeWhile _ text) cs).bind ((Leads.slice hfrom cs).bind h)

theorem push_append_ofList (out : String) (copied decoded : List Char) (c : Char) :
    (out ++ String.ofList copied).push c ++ String.ofList decoded = out ++ String.ofList (copied ++ c :: decoded) :=
  String.toList_inj.1 (by simp)

theorem decodeTurns (out : String) (text cs : List Char) :
    LeadsWithin (text.length + 1) source decodeTurn (out, String.ofList text) cs (out ++ String.ofList (scan text))
      cs := by
  fun_induction scan text generalizing out with
  | case1 text hnone =>
    apply LeadsWithin.ended
    simp only [decodeTurn, String.toList_ofList, firstIndex?_missing hnone]
    exact Leads.pure _ cs
  | case2 text c rest hrest e he ih =>
    have hskip := sliceFrom?_ofList e.1 (rest.drop (e.1.length - 1))
    have hshorter : (rest.drop (e.1.length - 1)).length + 1 < text.length + 1 := by
      have hlength := (List.dropWhile_suffix (· ≠ '&') (l := text)).length_le
      rw [hrest, List.length_cons] at hlength
      rw [List.length_drop]
      omega
    rw [entity_append_drop he] at hskip
    rw [← push_append_ofList]
    refine LeadsWithin.again (leads_decodeTurn hrest ?_) hshorter (ih _)
    simp only [decodeEntity, String.toList_ofList, he]
    exact (Leads.slice hskip cs).bind (Leads.pure _ cs)
  | case3 text c rest hrest hnone ih =>
    obtain ⟨rfl, -⟩ := firstIndex?_found hrest
    have hshorter : rest.length + 1 < text.length + 1 := by
      have hlength := (List.dropWhile_suffix (· ≠ '&') (l := text)).length_le
      rw [hrest, List.length_cons] at hlength
      omega
    rw [← push_append_ofList]
    refine LeadsWithin.again (leads_decodeTurn hrest ?_) hshorter (ih _)
    simp only [decodeEntity, String.toList_ofList, hnone]
    exact (Leads.slice (sliceFrom?_ofList ['&'] rest) cs).bind (Leads.pure _ cs)

/-- Decoding takes slices of its own text and leaves the place as it is. -/
theorem leads_decoded (text cs : List Char) :
    Leads source (decoded (String.ofList text)) cs (String.ofList (decode text)) cs := by
  have h : Leads source (decoded (String.ofList text)) cs ("" ++ String.ofList (scan text)) cs :=
    decodeTurns "" text cs _ (Nat.succ_le_succ (length_le_bytes text))
  rwa [String.empty_append, ← decode_eq_scan] at h

/-! ### Values and attributes -/

theorem leads_toEnd (cs : List Char) : Leads source (modify (·.moveTo source.utf8ByteSize)) cs () [] := by
  intro place hplace
  refine ⟨_, rfl, ?_⟩
  rw [← hplace.pos_add_bytes]
  rw [← List.append_nil cs] at hplace
  exact hplace.moveTo

theorem leads_value_quoted {quote : Char} (hquote : quote ∈ ['\x22', '\x27']) (body : List Char) :
    Leads source (value source) (quote :: body) (String.ofList (decode (body.takeWhile (· ≠ quote))))
      (after quote body) := by
  have hsize : quote.utf8Size = 1 := by fin_cases hquote <;> rfl
  have hhead : (quote :: body).head?.filter (· ∈ ['\x22', '\x27']) = some quote := by simpa using hquote
  have hbody : sliceFrom? (String.ofList (quote :: body)) 1 = some (String.ofList body) := by
    have h := sliceFrom?_ofList [quote] body
    rwa [bytes_cons, bytes_nil, hsize] at h
  refine (leads_rest _).bind ?_
  simp only [String.toList_ofList, hhead]
  refine (Leads.slice hbody _).bind ?_
  simp only [String.toList_ofList]
  cases hstop : body.dropWhile (· ≠ quote) with
  | nil =>
    -- without a second quote the value goes to the end
    have hall : body.takeWhile (· ≠ quote) = body := by
      have h := List.takeWhile_append_dropWhile (p := fun c => decide (c ≠ quote)) (l := body)
      rwa [hstop, List.append_nil] at h
    simp only [firstIndex?_missing hstop, after, hstop, hall]
    exact (leads_toEnd _).bind (leads_decoded body [])
  | cons c rest =>
    obtain ⟨rfl, hbody', hfound⟩ := firstIndex?_found hstop
    have hpiece : c :: body = (c :: body.takeWhile (· ≠ c) ++ [c]) ++ rest := by
      rw [List.append_assoc, List.cons_append, List.singleton_append, ← hbody']
    have hcount : bytes (body.takeWhile (· ≠ c)) + 2 = bytes (c :: body.takeWhile (· ≠ c) ++ [c]) := by
      rw [bytes_append, bytes_cons, bytes_cons, bytes_nil, hsize]
      omega
    simp only [hfound, after, hstop]
    rw [hpiece]
    refine (leads_advance _ rest hcount).bind ?_
    exact (Leads.slice (sliceTo?_takeWhile _ body) rest).bind (leads_decoded _ rest)

theorem leads_value_bare {cs : List Char} (h : ∀ c ∈ cs.head?, c ∉ ['\x22', '\x27']) :
    Leads source (value source) cs (String.ofList (decode (cs.takeWhile isBare))) (cs.dropWhile isBare) := by
  have hhead : cs.head?.filter (· ∈ ['\x22', '\x27']) = none := by
    rw [Option.filter_eq_none_iff]
    intro c hc
    simpa using h c hc
  refine (leads_rest cs).bind ?_
  simp only [String.toList_ofList, hhead]
  exact (leads_takeRun isBare cs).bind (leads_decoded _ _)

theorem leads_valueOfName (cs : List Char) :
    Leads source (valueOfName source) cs (String.ofList (attributeValue cs).1) (attributeValue cs).2 := by
  refine (leads_blanks cs).bind ((leads_rest _).bind ?_)
  rw [String.toList_ofList]
  by_cases hequals : (skipBlanks cs).head? = some '='
  · rw [if_pos hequals]
    obtain ⟨body, hbody⟩ := List.head?_eq_some_iff.1 hequals
    rw [hbody]
    refine (leads_advance ['='] body rfl).bind ((leads_blanks body).bind ?_)
    by_cases hquote : ∃ quote ∈ ['\x22', '\x27'], (skipBlanks body).head? = some quote
    · obtain ⟨quote, hquote, hhead⟩ := hquote
      obtain ⟨body', hbody'⟩ := List.head?_eq_some_iff.1 hhead
      rw [attributeValue_of_quote hquote hbody hbody', hbody']
      exact leads_value_quoted hquote body'
    · have hbare : ∀ c ∈ (skipBlanks body).head?, c ∉ ['\x22', '\x27'] := fun c hc hmem => hquote ⟨c, hmem, hc⟩
      rw [attributeValue_of_bare hbody hbare]
      exact leads_value_bare hbare
  · rw [if_neg hequals, attributeValue_of_none]
    · exact Leads.pure "" _
    · rintro c hc rfl
      exact hequals hc

section

variable {cs rest : List Char} {c : Char} (found : List (String × String))

theorem leads_attributeTurn_end (h : skipBlanks cs = []) :
    Leads source (attributeTurn source found) cs (.inr (found, false)) [] := by
  refine (leads_blanks cs).bind ((leads_rest _).bind ?_)
  rw [h]
  exact Leads.pure _ []

theorem leads_attributeTurn_selfClosing (h : skipBlanks cs = '/' :: '>' :: rest) :
    Leads source (attributeTurn source found) cs (.inr (found, true)) rest := by
  refine (leads_blanks cs).bind ((leads_rest _).bind ?_)
  rw [h, if_neg (by simp), if_pos (by simp)]
  exact (leads_advance ['/', '>'] rest rfl).bind (Leads.pure _ rest)

theorem leads_attributeTurn_closed (h : skipBlanks cs = '>' :: rest) :
    Leads source (attributeTurn source found) cs (.inr (found, false)) rest := by
  refine (leads_blanks cs).bind ((leads_rest _).bind ?_)
  rw [h, if_neg (by simp), if_neg (by simp), if_pos (by simp)]
  exact (leads_advance ['>'] rest rfl).bind (Leads.pure _ rest)

theorem not_prefix_of_inside (hslash : ∀ rest', c = '/' → rest = '>' :: rest' → False) (hend : c = '>' → False) :
    ¬['/', '>'].isPrefixOf (c :: rest) = true ∧ ¬['>'].isPrefixOf (c :: rest) = true := by
  simp only [List.isPrefixOf_iff_prefix]
  constructor
  · rintro ⟨tail, htail⟩
    cases htail
    exact hslash tail rfl rfl
  · rintro ⟨tail, htail⟩
    cases htail
    exact hend rfl

/-- A stray character is one byte. -/
theorem utf8Size_of_stray (hblank : isBlank c = false) (hc : ¬isAttributeChar c = true) : c.utf8Size = 1 := by
  have hstray : c = '=' ∨ c = '>' ∨ c = '/' := by
    by_contra hnot
    simp only [not_or] at hnot
    exact hc (by simp [isAttributeChar, hblank, hnot])
  rcases hstray with rfl | rfl | rfl <;> rfl

theorem leads_attributeTurn_stray (h : skipBlanks cs = c :: rest)
    (hslash : ∀ rest', c = '/' → rest = '>' :: rest' → False) (hend : c = '>' → False)
    (hc : ¬isAttributeChar c = true) : Leads source (attributeTurn source found) cs (.inl found) rest := by
  obtain ⟨hself, hclosed⟩ := not_prefix_of_inside hslash hend
  have hsize : c.utf8Size = 1 := by
    have hblank := stops_skipBlanks cs
    rw [h, stops_cons] at hblank
    exact utf8Size_of_stray hblank hc
  have hname : Leads source (takeRun source isAttributeChar) (c :: rest) _ _ := leads_takeRun _ _
  rw [List.takeWhile_cons_of_neg hc, List.dropWhile_cons_of_neg hc] at hname
  refine (leads_blanks cs).bind ((leads_rest _).bind ?_)
  rw [h, String.toList_ofList, if_neg (by simp), if_neg hself, if_neg hclosed]
  refine hname.bind ?_
  rw [if_pos (by simp)]
  refine (leads_advance [c] rest ?_).bind (Leads.pure _ rest)
  rw [bytes_cons, bytes_nil, hsize]

theorem leads_attributeTurn_attribute (h : skipBlanks cs = c :: rest) (hc : isAttributeChar c = true) :
    Leads source (attributeTurn source found) cs
      (.inl (found ++ [(lowercase (c :: rest.takeWhile isAttributeChar),
        String.ofList (attributeValue (rest.dropWhile isAttributeChar)).1)]))
      (attributeValue (rest.dropWhile isAttributeChar)).2 := by
  have hne : c ≠ '/' ∧ c ≠ '>' := by
    constructor <;> rintro rfl <;> exact absurd hc (by decide)
  have hslash : ∀ rest', c = '/' → rest = '>' :: rest' → False := fun _ h _ => hne.1 h
  obtain ⟨hself, hclosed⟩ := not_prefix_of_inside hslash hne.2
  have hname : Leads source (takeRun source isAttributeChar) (c :: rest) _ _ := leads_takeRun _ _
  rw [List.takeWhile_cons_of_pos hc, List.dropWhile_cons_of_pos hc] at hname
  refine (leads_blanks cs).bind ((leads_rest _).bind ?_)
  rw [h, String.toList_ofList, if_neg (by simp), if_neg hself, if_neg hclosed]
  refine hname.bind ?_
  rw [if_neg (by simp), String.toList_ofList]
  exact (leads_valueOfName _).bind (Leads.pure _ _)

theorem length_lt_of_attribute (h : skipBlanks cs = c :: rest) :
    (attributeValue (rest.dropWhile isAttributeChar)).2.length < cs.length ∧ rest.length < cs.length := by
  have hblanks := length_skipBlanks_le cs
  have hvalue := length_attributeValue_le (rest.dropWhile isAttributeChar)
  have hname := (List.dropWhile_suffix isAttributeChar (l := rest)).length_le
  rw [h, List.length_cons] at hblanks
  omega

theorem attributeTurns (cs : List Char) :
    LeadsWithin (cs.length + 1) source (attributeTurn source) found cs
      (found ++ (attributes cs).1, (attributes cs).2.1) (attributes cs).2.2 := by
  fun_induction attributes cs generalizing found with
  | case1 cs h =>
    rw [List.append_nil]
    exact .ended (leads_attributeTurn_end found h) _
  | case2 cs rest h =>
    rw [List.append_nil]
    exact .ended (leads_attributeTurn_selfClosing found h) _
  | case3 cs rest h =>
    rw [List.append_nil]
    exact .ended (leads_attributeTurn_closed found h) _
  | case4 cs c rest _ _ h hc name value more ih =>
    -- the loop puts an attribute behind those it has found, the recursion in front of those still to come
    have hmore := LeadsWithin.again (leads_attributeTurn_attribute found h hc)
      (Nat.succ_lt_succ (length_lt_of_attribute h).1) (ih _)
    rwa [List.append_assoc] at hmore
  | case5 cs c rest hslash hend h hc ih =>
    exact .again (leads_attributeTurn_stray found h hslash hend hc) (Nat.succ_lt_succ (length_lt_of_attribute h).2)
      (ih found)

theorem leads_inside (cs : List Char) :
    Leads source (inside source found) cs (found ++ (attributes cs).1, (attributes cs).2.1) (attributes cs).2.2 :=
  (attributeTurns found cs).leads

end

/-! ### Tokens -/

/-- The end of a comment is found behind the piece up to it, which is everything if there is no end. -/
theorem findText?_comment (start : Nat) (cs : List Char) :
    ∃ piece, cs = piece ++ afterComment cs ∧
      (findText? ['-', '-', '>'] cs).elim (start + bytes cs) (start + · + 3) = start + bytes piece := by
  fun_induction afterComment cs generalizing start with
  | case1 cs => exact ⟨['-', '-', '>'], rfl, by simp [findText?]; rfl⟩
  | case2 c cs hnot ih =>
    have hfront : ¬['-', '-', '>'].isPrefixOf (c :: cs) = true := by
      rw [List.isPrefixOf_iff_prefix]
      rintro ⟨tail, htail⟩
      cases htail
      exact hnot tail rfl rfl
    obtain ⟨piece, hcs, hcount⟩ := ih (start + c.utf8Size)
    refine ⟨c :: piece, congrArg (c :: ·) hcs, ?_⟩
    rw [findText?, if_neg hfront, bytes_cons, bytes_cons, ← Nat.add_assoc, ← Nat.add_assoc, ← hcount]
    cases findText? ['-', '-', '>'] cs with
    | none => rfl
    | some stop => simp [Nat.add_assoc]
  | case3 => exact ⟨[], rfl, rfl⟩

/-- The same for a character of one byte. -/
theorem firstIndex?_after (stop : Char) (hsize : stop.utf8Size = 1) (cs : List Char) :
    ∃ piece, cs = piece ++ after stop cs ∧
      (firstIndex? (· = stop) (indexed 0 cs)).elim (bytes cs) (· + 1) = bytes piece := by
  cases hstop : cs.dropWhile (· ≠ stop) with
  | nil =>
    refine ⟨cs, ?_, by rw [firstIndex?_missing hstop]; rfl⟩
    rw [after, hstop, List.drop_nil, List.append_nil]
  | cons c rest =>
    obtain ⟨-, hcs, hindex⟩ := firstIndex?_found hstop
    refine ⟨cs.takeWhile (· ≠ stop) ++ [stop], ?_, ?_⟩
    · rw [after, hstop, List.append_assoc]
      exact hcs
    · rw [hindex, bytes_append, bytes_cons, bytes_nil, hsize]
      rfl

theorem leads_comment (cs : List Char) :
    Leads source (comment source) ('<' :: '!' :: '-' :: '-' :: cs) .comment (afterComment cs) := by
  obtain ⟨piece, hcs, hcount⟩ := findText?_comment 4 cs
  have hopener : ∀ ds, bytes ('<' :: '!' :: '-' :: '-' :: ds) = 4 + bytes ds := bytes_append ['<', '!', '-', '-']
  have hmove : Leads source (advance _) ('<' :: '!' :: '-' :: '-' :: piece ++ afterComment cs) () _ :=
    leads_advance _ _ (hcount.trans (hopener piece).symm)
  rw [← hopener cs, List.cons_append, List.cons_append, List.cons_append, List.cons_append, ← hcs] at hmove
  refine (leads_rest _).bind ?_
  rw [String.toList_ofList]
  exact hmove.bind (Leads.pure _ _)

theorem leads_name {d : Char} (hd : d.isAlpha = true) (rest : List Char) :
    Leads source (takeRun source isNameChar) (d :: rest) (String.ofList (d :: rest.takeWhile isNameChar))
      (rest.dropWhile isNameChar) := by
  have hname : isNameChar d = true := by simp [isNameChar, Char.isAlphanum, hd]
  have h : Leads source (takeRun source isNameChar) (d :: rest) _ _ := leads_takeRun _ _
  rwa [List.takeWhile_cons_of_pos hname, List.dropWhile_cons_of_pos hname] at h

theorem leads_closing {d : Char} (hd : d.isAlpha = true) (rest : List Char) :
    Leads source (closing source) ('<' :: '/' :: d :: rest) (.closing (lowercase (d :: rest.takeWhile isNameChar)))
      (after '>' (rest.dropWhile isNameChar)) := by
  obtain ⟨piece, hrest, hcount⟩ := firstIndex?_after '>' rfl (rest.dropWhile isNameChar)
  have hmove : Leads source (advance _) (piece ++ after '>' (rest.dropWhile isNameChar)) () _ :=
    leads_advance _ _ hcount
  rw [← hrest] at hmove
  refine (leads_advance ['<', '/'] (d :: rest) rfl).bind ((leads_name hd rest).bind ((leads_rest _).bind ?_))
  rw [String.toList_ofList, String.toList_ofList]
  exact hmove.bind (Leads.pure _ _)

theorem leads_opening {d : Char} (hd : d.isAlpha = true) (rest : List Char) :
    Leads source (opening source) ('<' :: d :: rest)
      (.opening (lowercase (d :: rest.takeWhile isNameChar)) (attributes (rest.dropWhile isNameChar)).1
        (attributes (rest.dropWhile isNameChar)).2.1) (attributes (rest.dropWhile isNameChar)).2.2 := by
  refine (leads_advance ['<'] (d :: rest) rfl).bind ((leads_name hd rest).bind ?_)
  rw [String.toList_ofList]
  exact (leads_inside [] _).bind (Leads.pure _ _)

theorem leads_text (c : Char) (cs : List Char) :
    Leads source (text source) (c :: cs) (.text (String.ofList (decode (c :: cs.takeWhile (· ≠ '<')))))
      (cs.dropWhile (· ≠ '<')) := by
  have hcs : (c :: cs.takeWhile (· ≠ '<')) ++ cs.dropWhile (· ≠ '<') = c :: cs := by
    rw [List.cons_append, List.takeWhile_append_dropWhile]
  have hstop : (firstIndex? (· = '<') ((indexed 0 (c :: cs)).drop 1)).getD (String.ofList (c :: cs)).utf8ByteSize =
      bytes (c :: cs.takeWhile (· ≠ '<')) := by
    have hsearch := getD_firstIndex? (· = '<') c.utf8Size cs
    rw [← bytes_cons] at hsearch
    simpa [indexed, bytes] using hsearch
  have hmove : Leads source (advance _) _ () (cs.dropWhile (· ≠ '<')) := leads_advance _ _ hstop
  have hslice := sliceTo?_ofList (c :: cs.takeWhile (· ≠ '<')) (cs.dropWhile (· ≠ '<'))
  rw [hcs] at hmove hslice
  refine (leads_rest _).bind ?_
  rw [String.toList_ofList]
  refine hmove.bind ?_
  rw [hstop]
  exact (Leads.slice hslice _).bind ((leads_decoded _ _).bind (Leads.pure _ _))

theorem exists_of_startsTag {opener cs : List Char} (h : startsTag opener cs = true) :
    ∃ d rest, d.isAlpha = true ∧ cs = opener ++ d :: rest := by
  rw [startsTag, Bool.and_eq_true, List.isPrefixOf_iff_prefix] at h
  obtain ⟨⟨tail, rfl⟩, hletter⟩ := h
  rw [List.drop_left] at hletter
  cases tail with
  | nil => cases hletter
  | cons d rest => exact ⟨d, rest, hletter, rfl⟩

theorem leads_token (c : Char) (cs : List Char) :
    Leads source (token source) (c :: cs) (next c cs).1 (next c cs).2 := by
  refine (leads_rest _).bind ?_
  rw [String.toList_ofList]
  rcases next_cases c cs with ⟨rest, rfl, rfl⟩ | ⟨d, rest, rfl, rfl, hd⟩ | ⟨d, rest, rfl, rfl, hd⟩ | hplain
  · rw [if_pos (by simp), next_comment]
    exact leads_comment rest
  · rw [if_neg (by simp), if_pos (by simp [startsTag, hd]), next_closing hd]
    exact leads_closing hd rest
  · have hne : d ≠ '!' ∧ d ≠ '/' := by
      constructor <;> rintro rfl <;> exact absurd hd (by decide)
    rw [if_neg (by simp [hne.1.symm]), if_neg (by simp [startsTag, hne.2.symm]),
      if_pos (by simp [startsTag, hd]), next_opening hd]
    exact leads_opening hd rest
  · -- none of the three tests succeeds where neither a comment nor a tag begins
    have hcomment : ¬['<', '!', '-', '-'].isPrefixOf (c :: cs) = true := by
      rw [List.isPrefixOf_iff_prefix]
      rintro ⟨rest, hrest⟩
      cases hrest
      exact (hplain rfl).1 ⟨rest, rfl⟩
    have hclosing : ¬startsTag ['<', '/'] (c :: cs) = true := by
      intro h
      obtain ⟨d, rest, hd, hrest⟩ := exists_of_startsTag h
      cases hrest
      rw [(hplain rfl).2.1 d ⟨rest, rfl⟩] at hd
      cases hd
    have hopening : ¬startsTag ['<'] (c :: cs) = true := by
      intro h
      obtain ⟨d, rest, hd, hrest⟩ := exists_of_startsTag h
      cases hrest
      rw [(hplain rfl).2.2 d ⟨rest, rfl⟩] at hd
      cases hd
    rw [if_neg hcomment, if_neg hclosing, if_neg hopening, next_text hplain]
    exact leads_text c cs

theorem leads_turn (cursor : Cursor) (c : Char) (cs : List Char) :
    Leads source (turn source cursor) (c :: cs) (.inl (cursor.read (next c cs).1)) (next c cs).2 := by
  intro place hplace
  have hpos : place.pos < source.utf8ByteSize := by
    have hall := hplace.pos_add_bytes
    have hleft := length_le_bytes (c :: cs)
    rw [List.length_cons] at hleft
    omega
  have hread : Leads source (token source >>= fun t => pure (.inl (cursor.read t))) (c :: cs)
      (.inl (cursor.read (next c cs).1) : Cursor ⊕ Cursor) (next c cs).2 := (leads_token c cs).bind (Leads.pure _ _)
  obtain ⟨place', hturn, hplace'⟩ := hread place hplace
  refine ⟨place', ?_, hplace'⟩
  change (if place.pos < source.utf8ByteSize then _ else _ : Reading _) place = _
  rw [if_pos hpos]
  exact hturn

theorem leads_turn_end (cursor : Cursor) : Leads source (turn source cursor) [] (.inr cursor) [] := by
  intro place hplace
  have hpos : ¬place.pos < source.utf8ByteSize := by
    have hall := hplace.pos_add_bytes
    rw [bytes_nil] at hall
    omega
  refine ⟨place, ?_, hplace⟩
  change (if place.pos < source.utf8ByteSize then _ else _ : Reading _) place = _
  rw [if_neg hpos]
  rfl

theorem tokenTurns (cursor : Cursor) (cs : List Char) :
    LeadsWithin (cs.length + 1) source (turn source) cursor cs ((tokens cs).foldl Cursor.read cursor) [] := by
  fun_induction tokens cs generalizing cursor with
  | case1 => exact .ended (leads_turn_end cursor) _
  | case2 c cs token ih =>
    have hshorter : token.2.length < (c :: cs).length := Nat.lt_succ_of_le (length_next_le c cs)
    exact .again (leads_turn cursor c cs) (Nat.succ_lt_succ hshorter) (ih _)

end Reading

/-! ### Progress -/

/-- From every place at which reading can be, a turn of a loop comes to its end, and if the loop goes on, then from a
place further on in the text. -/
def Advances {σ α : Type} (source : String) (turn : σ → Reading (σ ⊕ α)) : Prop :=
  ∀ s place, place.Sound source → ∃ outcome place', turn s place = some (outcome, place') ∧ place'.Sound source ∧
    (outcome.isLeft = true → place.pos < place'.pos)

theorem advances_of_leads {σ α : Type} {source : String} {turn : σ → Reading (σ ⊕ α)}
    (h : ∀ s cs, ∃ outcome cs', Leads source (turn s) cs outcome cs' ∧
      (outcome.isLeft = true → cs'.length < cs.length)) : Advances source turn := by
  intro s place hsound
  obtain ⟨cs, hplace⟩ := hsound.leaves
  obtain ⟨outcome, cs', hleads, hshorter⟩ := h s cs
  obtain ⟨place', hturn, hplace'⟩ := hleads place hplace
  exact ⟨outcome, place', hturn, hplace'.sound, fun hon => hplace.pos_lt hplace' (hshorter hon)⟩

theorem advances_turn (source : String) : Advances source (Reading.turn source) := by
  refine advances_of_leads fun cursor cs => ?_
  cases cs with
  | nil => exact ⟨_, _, Reading.leads_turn_end cursor, by simp⟩
  | cons c cs => exact ⟨_, _, Reading.leads_turn cursor c cs, fun _ => Nat.lt_succ_of_le (length_next_le c cs)⟩

theorem advances_attributeTurn (source : String) : Advances source (Reading.attributeTurn source) := by
  refine advances_of_leads fun found cs => ?_
  fun_cases attributes cs with
  | case1 h => exact ⟨_, _, Reading.leads_attributeTurn_end found h, by simp⟩
  | case2 rest h => exact ⟨_, _, Reading.leads_attributeTurn_selfClosing found h, by simp⟩
  | case3 rest h => exact ⟨_, _, Reading.leads_attributeTurn_closed found h, by simp⟩
  | case4 c rest _ _ h hc =>
    exact ⟨_, _, Reading.leads_attributeTurn_attribute found h hc, fun _ => (Reading.length_lt_of_attribute h).1⟩
  | case5 c rest hslash hend h hc =>
    exact ⟨_, _, Reading.leads_attributeTurn_stray found h hslash hend hc,
      fun _ => (Reading.length_lt_of_attribute h).2⟩

/-- Reading a text by positions comes through, and at the end of the text, with the markup of the text. It has only been
where the text can be cut, and every turn of the loop over tokens and of the loop over attributes moves on or is the
last. Each token is the next one of what is left at its place, and so are the attributes of a tag. -/
theorem reading_advances (source : String) :
    (∃ place, Reading.all source = some (parse source, place) ∧ place.Sound source ∧
      place.pos = source.utf8ByteSize) ∧
    (Advances source (Reading.turn source) ∧ Advances source (Reading.attributeTurn source)) ∧
    (∀ cursor c cs, Leads source (Reading.turn source cursor) (c :: cs) (.inl (cursor.read (next c cs).1))
      (next c cs).2) ∧
    ∀ found cs, Leads source (Reading.inside source found) cs (found ++ (attributes cs).1, (attributes cs).2.1)
      (attributes cs).2.2 := by
  refine ⟨?_, ⟨advances_turn source, advances_attributeTurn source⟩, Reading.leads_turn, Reading.leads_inside⟩
  obtain ⟨place, hrun, hplace⟩ := (Reading.tokenTurns .start source.toList).leads .start (leaves_start source)
  refine ⟨place, ?_, hplace.sound, ?_⟩
  · rw [Reading.all, hrun]
    rfl
  · have hall := hplace.pos_add_bytes
    rwa [bytes_nil, Nat.add_zero] at hall

/-- A tag that is cut short, with a stray `=` before a name and a quote that is not closed. -/
theorem reading_advances_cut_short :
    (⟨2, [0]⟩ : Place).Sound "<a =é='ü" ∧
      (∃ outcome place, Reading.attributeTurn "<a =é='ü" [] ⟨2, [0]⟩ = some (outcome, place) ∧
        place.Sound "<a =é='ü" ∧ (outcome.isLeft = true → 2 < place.pos)) ∧
      ∃ place, Reading.all "<a =é='ü" = some (parse "<a =é='ü", place) ∧ place.pos = 10 := by
  have hsound : (⟨2, [0]⟩ : Place).Sound "<a =é='ü" := by
    unfold Place.Sound
    decide +kernel
  obtain ⟨⟨place, hall, -, hpos⟩, ⟨-, hattributes⟩, -⟩ := reading_advances "<a =é='ü"
  exact ⟨hsound, hattributes [] _ hsound, place, hall, hpos⟩

-- `é` and `ü` are two bytes each and `日` is three
example : (Reading.all "é<a =ü='日").map (·.2) = some ⟨13, [13, 9, 9, 8, 8, 6, 6, 5, 5, 4, 3, 2, 0]⟩ := by
  decide +kernel

end Trellis.Markup
