import Mathlib
import Trellis.Json.Parse
import Trellis.Proofs.Json.Number

/-!
# JSON text

A text is a list of tokens, each spelt in one of the ways that JSON has for it, with any blanks around them. A number
has to be followed by something that cannot go on with it; the tokens of a value see to that by themselves. So every
text that spells the tokens of a value is read as these tokens, and the tokens of a value are read as that value,
whatever containers are still open around it. Both layouts, the compact one and the one with a line for each item, are
such texts, so what is written reads back.
-/
namespace Trellis.Json

/-- A property of all values holds if it holds of a container whenever it holds of what the container holds. -/
@[elab_as_elim]
theorem induction {P : Json → Prop} (null : P .null) (bool : ∀ b, P (.bool b)) (number : ∀ n, P (.number n))
    (string : ∀ text, P (.string text)) (array : ∀ items, (∀ j ∈ items, P j) → P (.array items))
    (object : ∀ members, (∀ m ∈ members, P m.2) → P (.object members)) (j : Json) : P j :=
  @Json.rec P (fun items => ∀ j ∈ items, P j) (fun members => ∀ m ∈ members, P m.2) (fun m => P m.2)
    null bool number string array object (by simp) (by simp_all) (by simp) (by simp_all) (fun _ _ h => h) j

/-! ### Soundness -/

theorem sound_array {n : ℕ} {items : List Json} :
    (Json.array items).sound n = true ↔ n ≠ 0 ∧ ∀ j ∈ items, j.sound (n - 1) = true := by
  have hitems : ∀ n, soundItems n items = true ↔ ∀ j ∈ items, j.sound n = true := by
    intro n
    induction items with
    | nil => simp [soundItems]
    | cons j items ih => simp [soundItems, ih]
  simp [sound, hitems]

theorem sound_object {n : ℕ} {members : List (Text × Json)} :
    (Json.object members).sound n = true ↔
      n ≠ 0 ∧ ∀ m ∈ members, m.1.isSome = true ∧ m.2.sound (n - 1) = true := by
  have hmembers : ∀ n, soundMembers n members = true ↔ ∀ m ∈ members, m.1.isSome = true ∧ m.2.sound n = true := by
    intro n
    induction members with
    | nil => simp [soundMembers]
    | cons m members ih =>
      obtain ⟨name, value⟩ := m
      simp [soundMembers, ih]
  simp [sound, hmembers]

/-! ### Strings -/

/-- How the pieces of a string may be written: characters as they are, escapes of one letter, and escapes of four
digits. -/
inductive Escaped : List Piece → List Char → Prop
  | nil : Escaped [] []
  | char {c : Char} {ps : List Piece} {cs : List Char} (hc : 0x20 ≤ c.toNat) (hquote : c ≠ '\x22') (hslash : c ≠ '\x5c')
    (h : Escaped ps cs) : Escaped (.char c :: ps) (c :: cs)
  | simple {c named : Char} {ps : List Piece} {cs : List Char} (hc : simpleEscape? c = some named)
    (h : Escaped ps cs) : Escaped (.char named :: ps) ('\x5c' :: c :: cs)
  | unit {a b c d : Char} {unit : ℕ} {ps : List Piece} {cs : List Char} (hu : unit? a b c d = some unit)
    (h : Escaped ps cs) : Escaped (.ofUnit unit :: ps) ('\x5c' :: 'u' :: a :: b :: c :: d :: cs)

theorem pieces?_of_escaped {ps : List Piece} {cs : List Char} (h : Escaped ps cs) (rest : List Char) :
    pieces? (cs ++ '\x22' :: rest) = some (ps, rest) := by
  induction h with
  | nil => simp [pieces?]
  | char hc hquote hslash _ ih =>
    rw [List.cons_append, pieces?, if_neg (not_or.2 ⟨by omega, hslash⟩), ih]
    · rfl
    · simp [hquote]
    · simp [hslash]
    · simp [hslash]
  | @simple c named _ _ hc _ ih =>
    have hu : c ≠ 'u' := by
      rintro rfl
      simp [simpleEscape?] at hc
    simp only [List.cons_append]
    rw [pieces?, hc]
    · simp only [ih, Option.map_some]
    · intro a b c d cs h
      exact absurd h hu
  | unit hu _ ih =>
    simp only [List.cons_append]
    rw [pieces?, hu]
    simp only [ih, Option.map_some]

theorem unit?_lowHex : ∀ n < 32, unit? '0' '0' (Nat.digitChar (n / 16)) (Nat.digitChar (n % 16)) = some n := by
  decide

/-- Each character is written as itself or as one of its escapes. -/
theorem escaped_escapeChar (c : Char) {ps : List Piece} {cs : List Char} (h : Escaped ps cs) :
    Escaped (.char c :: ps) (escapeChar c ++ cs) := by
  unfold escapeChar
  split_ifs with hquote hb hf hn hr ht hcontrol
  · rcases hquote with rfl | rfl
    · exact .simple rfl h
    · exact .simple rfl h
  · subst hb
    exact .simple rfl h
  · subst hf
    exact .simple rfl h
  · subst hn
    exact .simple rfl h
  · subst hr
    exact .simple rfl h
  · subst ht
    exact .simple rfl h
  · have hpiece : Piece.ofUnit c.toNat = .char c := by
      rw [Piece.ofUnit, if_neg (by omega), if_neg (by omega), Char.ofNat_toNat]
    rw [← hpiece]
    exact .unit (unit?_lowHex c.toNat hcontrol) h
  · rw [not_or] at hquote
    exact .char (not_lt.1 hcontrol) hquote.1 hquote.2 h

theorem escaped_chars (s : List Char) : Escaped (s.map .char) (s.flatMap escapeChar) := by
  induction s with
  | nil => exact .nil
  | cons c s ih =>
    rw [List.map_cons, List.flatMap_cons]
    exact escaped_escapeChar c ih

theorem text?_chars (s : List Char) : text? (s.map .char) = some s := by
  induction s with
  | nil => rfl
  | cons c s ih => simp [text?, ih]

/-! ### From text to tokens -/

variable {real : RealReader}

theorem tokens?_eq (cs : List Char) :
    tokens? real cs =
      match cs.dropWhile isBlank with
      | [] => some []
      | c :: rest =>
        match next? real c rest with
        | none => none
        | some (t, left) => (tokens? real left).map (t :: ·) := by
  rw [tokens?]
  split
  · next h => rw [h]
  · next c rest h =>
    rw [h]
    split
    · next h' => simp only [h']
    · next t left h' => simp only [h']

theorem tokens?_of_next {c : Char} {cs left : List Char} {t : Token} (hb : isBlank c = false)
    (h : next? real c cs = some (t, left)) : tokens? real (c :: cs) = (tokens? real left).map (t :: ·) := by
  rw [tokens?_eq, List.dropWhile_cons_of_neg (by simp [hb])]
  simp only [h]

theorem tokens?_of_blank {c : Char} {cs : List Char} (hb : isBlank c = true) :
    tokens? real (c :: cs) = tokens? real cs := by
  rw [tokens?_eq, tokens?_eq cs, List.dropWhile_cons_of_pos hb]

/-! ### Spelling -/

/-- How a token may be written. -/
inductive Token.Spelt (real : RealReader) : Token → List Char → Prop
  | mark {c : Char} {t : Token} (h : punctuation? c = some t) : Spelt real t [c]
  | null : Spelt real .null ['n', 'u', 'l', 'l']
  | true : Spelt real (.bool true) ['t', 'r', 'u', 'e']
  | false : Spelt real (.bool false) ['f', 'a', 'l', 's', 'e']
  | number {n : Number} {cs : List Char} (h : n.Literal real cs) : Spelt real (.number n) cs
  | string {ps : List Piece} {cs : List Char} (h : Escaped ps cs) :
    Spelt real (.string ((text? ps).map String.ofList)) ('\x22' :: cs ++ ['\x22'])

theorem spelt_string (s : String) : Token.Spelt real (.string (some s)) (writeText (some s)) := by
  have hspelt : Token.Spelt real _ _ := .string (escaped_chars s.toList)
  rwa [text?_chars, Option.map_some, String.ofList_toList] at hspelt

/-- Nothing but blanks. -/
def Blank (cs : List Char) : Prop := ∀ c ∈ cs, isBlank c = true

/-- The tokens, one after the other, with any blanks before, between and after them. -/
inductive Laid (real : RealReader) : List Token → List Char → Prop
  | nil {gap : List Char} (hgap : Blank gap) : Laid real [] gap
  | cons {t : Token} {ts : List Token} {gap cs rest : List Char} (hgap : Blank gap) (ht : t.Spelt real cs)
    (h : Laid real ts rest) : Laid real (t :: ts) (gap ++ (cs ++ rest))

namespace Laid

variable {ts us : List Token} {cs ds gap : List Char}

theorem blanks (hgap : Blank gap) (h : Laid real ts cs) : Laid real ts (gap ++ cs) := by
  have hboth : ∀ {more}, Blank more → Blank (gap ++ more) := by
    intro more hmore c hc
    rcases List.mem_append.1 hc with hc | hc
    · exact hgap c hc
    · exact hmore c hc
  cases h with
  | nil hmore => exact .nil (hboth hmore)
  | cons hmore ht h =>
    rw [← List.append_assoc]
    exact .cons (hboth hmore) ht h

theorem append (h : Laid real ts cs) (h' : Laid real us ds) : Laid real (ts ++ us) (cs ++ ds) := by
  induction h with
  | nil hgap => exact h'.blanks hgap
  | cons hgap ht _ ih =>
    rw [List.append_assoc, List.append_assoc]
    exact .cons hgap ht ih

theorem spelt {t : Token} (ht : t.Spelt real cs) (h : Laid real ts ds) : Laid real (t :: ts) (cs ++ ds) :=
  @Laid.cons real t ts [] cs ds nofun ht h

theorem mark {c : Char} {t : Token} (hc : punctuation? c = some t) (h : Laid real ts cs) :
    Laid real (t :: ts) (c :: cs) :=
  h.spelt (.mark hc)

end Laid

/-! ### Reading what is spelt -/

variable {rest : List Char}

theorem next?_digit {c : Char} (hc : c.isDigit = true) (cs : List Char) :
    isBlank c = false ∧ next? real c cs = (number? real false (c :: cs)).map fun p => (.number p.1, p.2) := by
  have hne : ∀ d : Char, d.isDigit = false → c ≠ d := by
    rintro d hd rfl
    rw [hc] at hd
    cases hd
  refine ⟨?_, ?_⟩
  · simp [isBlank, hne ' ' rfl, hne '\t' rfl, hne '\n' rfl, hne '\r' rfl]
  · have hpunctuation : punctuation? c = none := by
      simp [punctuation?, hne '\x7b' rfl, hne '\x7d' rfl, hne '[' rfl, hne ']' rfl, hne ',' rfl, hne ':' rfl]
    rw [next?, hpunctuation]
    simp only
    rw [if_neg (hne '\x22' rfl), if_neg (hne '-' rfl), if_pos hc]

/-- The marks are the characters of which punctuation is made. -/
theorem mem_marks_of_punctuation? {c : Char} {t : Token} (h : punctuation? c = some t) :
    c ∈ ['\x7b', '\x7d', '[', ']', ',', ':'] := by
  unfold punctuation? at h
  split_ifs at h with h₁ h₂ h₃ h₄ h₅ h₆
  all_goals simp_all

theorem tokens?_literal {n : Number} {cs : List Char} (h : n.Literal real cs) (hrest : Ends rest) :
    tokens? real (cs ++ rest) = (tokens? real rest).map (.number n :: ·) := by
  cases h with
  | @parts negative w f cs p hw hf hp =>
    have hread := number?_parts real negative hw hf hp hrest
    cases negative with
    | true =>
      have hnext : ∀ ds, next? real '-' ds = (number? real true ds).map fun p => (.number p.1, p.2) := by
        simp [next?, punctuation?]
      exact tokens?_of_next (by decide) ((hnext _).trans (congrArg _ hread))
    | false =>
      obtain ⟨c, ds, rfl, hc⟩ := hw.exists_eq_cons
      obtain ⟨hb, hnext⟩ := next?_digit hc (ds ++ pointText f ++ cs ++ rest)
      exact tokens?_of_next hb (hnext.trans (congrArg _ hread))

/-- A token that is spelt is read, provided that nothing goes on with it if it is a number. -/
theorem tokens?_of_spelt {t : Token} {cs : List Char} (ht : t.Spelt real cs)
    (hrest : (∃ n, t = .number n) → Ends rest) : tokens? real (cs ++ rest) = (tokens? real rest).map (t :: ·) := by
  cases ht with
  | mark hc =>
    refine tokens?_of_next ?_ (by rw [next?, hc]; rfl)
    have hmark := mem_marks_of_punctuation? hc
    revert hmark
    simp only [List.mem_cons, List.not_mem_nil, or_false]
    rintro (rfl | rfl | rfl | rfl | rfl | rfl) <;> rfl
  | null => exact tokens?_of_next (by decide) (by simp [next?, punctuation?, word?])
  | true => exact tokens?_of_next (by decide) (by simp [next?, punctuation?, word?])
  | false => exact tokens?_of_next (by decide) (by simp [next?, punctuation?, word?])
  | number h => exact tokens?_literal h (hrest ⟨_, rfl⟩)
  | @string ps cs h =>
    have hnext : next? real '\x22' (cs ++ '\x22' :: rest) = some (.string ((text? ps).map String.ofList), rest) := by
      rw [next?, show punctuation? '\x22' = none by decide]
      simp only [if_true, stringToken?, pieces?_of_escaped h, Option.map_some]
    rw [List.append_assoc]
    exact tokens?_of_next (by decide) hnext

/-! ### The tokens of a value -/

mutual

def tokens : Json → List Token
  | .null => [.null]
  | .bool b => [.bool b]
  | .number n => [.number n]
  | .string text => [.string text]
  | .array [] => [.arrayOpen, .arrayClose]
  | .array (item :: items) => .arrayOpen :: tokens item ++ itemTokens items ++ [.arrayClose]
  | .object [] => [.objectOpen, .objectClose]
  | .object ((name, value) :: members) =>
    .objectOpen :: .string name :: .colon :: tokens value ++ memberTokens members ++ [.objectClose]

/-- The items after the first. -/
def itemTokens : List Json → List Token
  | [] => []
  | item :: items => .comma :: tokens item ++ itemTokens items

/-- The members after the first. -/
def memberTokens : List (Text × Json) → List Token
  | [] => []
  | (name, value) :: members => .comma :: .string name :: .colon :: tokens value ++ memberTokens members

end

/-! ### Numbers do not run on -/

def Token.isMark : Token → Bool
  | .objectOpen | .objectClose | .arrayOpen | .arrayClose | .comma | .colon => true
  | _ => false

/-- The tokens begin with a mark, or there are none. -/
def StartsMarked (ts : List Token) : Prop := ∀ t ∈ ts.head?, t.isMark = true

/-- After every number there comes a mark, or nothing. -/
def Separated (ts : List Token) : Prop := ts.IsChain fun t u => (∃ n, t = .number n) → u.isMark = true

theorem separated_cons {t : Token} {ts : List Token} :
    Separated (t :: ts) ↔ ((∃ n, t = .number n) → StartsMarked ts) ∧ Separated ts := by
  rw [Separated, List.isChain_cons]
  exact and_congr_left fun _ => ⟨fun h hn u hu => h u hu hn, fun h u hu hn => h hn u hu⟩

theorem separated_mark {t : Token} {ts : List Token} (ht : t.isMark = true) (hts : Separated ts) :
    Separated (t :: ts) := by
  refine separated_cons.2 ⟨?_, hts⟩
  rintro ⟨n, rfl⟩
  cases ht

theorem separated_items {items : List Json}
    (h : ∀ j ∈ items, ∀ ts, StartsMarked ts → Separated ts → Separated (j.tokens ++ ts)) {ts : List Token}
    (hstart : StartsMarked ts) (hts : Separated ts) :
    StartsMarked (itemTokens items ++ ts) ∧ Separated (itemTokens items ++ ts) := by
  induction items with
  | nil =>
    rw [itemTokens]
    exact ⟨hstart, hts⟩
  | cons item items ih =>
    obtain ⟨hstart', hts'⟩ := ih fun j hj => h j (.tail _ hj)
    rw [itemTokens, List.cons_append, List.cons_append, List.append_assoc]
    exact ⟨by simp [StartsMarked, Token.isMark], separated_mark rfl (h item (.head _) _ hstart' hts')⟩

theorem separated_name {name : Text} {ts : List Token} (hts : Separated ts) :
    Separated (.string name :: .colon :: ts) := by
  refine separated_cons.2 ⟨?_, separated_mark rfl hts⟩
  rintro ⟨n, hn⟩
  cases hn

theorem separated_members {members : List (Text × Json)}
    (h : ∀ m ∈ members, ∀ ts, StartsMarked ts → Separated ts → Separated (m.2.tokens ++ ts)) {ts : List Token}
    (hstart : StartsMarked ts) (hts : Separated ts) :
    StartsMarked (memberTokens members ++ ts) ∧ Separated (memberTokens members ++ ts) := by
  induction members with
  | nil =>
    rw [memberTokens]
    exact ⟨hstart, hts⟩
  | cons m members ih =>
    obtain ⟨name, value⟩ := m
    obtain ⟨hstart', hts'⟩ := ih fun m hm => h m (.tail _ hm)
    rw [memberTokens]
    simp only [List.cons_append, List.append_assoc]
    exact ⟨by simp [StartsMarked, Token.isMark],
      separated_mark rfl (separated_name (h _ (.head _) _ hstart' hts'))⟩

/-- In the tokens of a value, and of what may follow it, a mark comes after every number. -/
theorem separated_tokens (j : Json) (ts : List Token) (hstart : StartsMarked ts) (hts : Separated ts) :
    Separated (j.tokens ++ ts) := by
  induction j using Json.induction generalizing ts with
  | null | bool | string =>
    rw [tokens, List.singleton_append]
    refine separated_cons.2 ⟨?_, hts⟩
    rintro ⟨n, hn⟩
    cases hn
  | number n =>
    rw [tokens, List.singleton_append]
    exact separated_cons.2 ⟨fun _ => hstart, hts⟩
  | array items ih =>
    have hclose : StartsMarked (.arrayClose :: ts) ∧ Separated (.arrayClose :: ts) :=
      ⟨by simp [StartsMarked, Token.isMark], separated_mark rfl hts⟩
    cases items with
    | nil =>
      rw [tokens]
      exact separated_mark rfl hclose.2
    | cons item items =>
      obtain ⟨hstart', hts'⟩ := separated_items (fun j hj => ih j (.tail _ hj)) hclose.1 hclose.2
      rw [tokens]
      simp only [List.cons_append, List.append_assoc, List.nil_append]
      exact separated_mark rfl (ih item (.head _) _ hstart' hts')
  | object members ih =>
    have hclose : StartsMarked (.objectClose :: ts) ∧ Separated (.objectClose :: ts) :=
      ⟨by simp [StartsMarked, Token.isMark], separated_mark rfl hts⟩
    cases members with
    | nil =>
      rw [tokens]
      exact separated_mark rfl hclose.2
    | cons m members =>
      obtain ⟨name, value⟩ := m
      obtain ⟨hstart', hts'⟩ := separated_members (fun m hm => ih m (.tail _ hm)) hclose.1 hclose.2
      rw [tokens]
      simp only [List.cons_append, List.append_assoc, List.nil_append]
      exact separated_mark rfl (separated_name (ih _ (.head _) _ hstart' hts'))

/-! ### From text to tokens of a value -/

theorem Blank.ends {cs : List Char} (hc : Blank cs) (hrest : Ends rest) : Ends (cs ++ rest) := by
  cases cs with
  | nil => exact hrest
  | cons c cs =>
    have hb : isBlank c = true := hc c (.head _)
    simp only [isBlank, Bool.or_eq_true, decide_eq_true_eq] at hb
    rw [Ends, List.cons_append, stops_cons]
    rcases hb with ((rfl | rfl) | rfl) | rfl
    all_goals rfl

/-- A text that begins with a mark does not go on with a number. -/
theorem Laid.ends {ts : List Token} {cs : List Char} (h : Laid real ts cs) (hstart : StartsMarked ts) : Ends cs := by
  cases h with
  | nil hgap =>
    have hends := @Blank.ends [] _ hgap stops_nil
    rwa [List.append_nil] at hends
  | cons hgap ht =>
    refine hgap.ends ?_
    have hmark := hstart _ rfl
    cases ht with
    | mark hc =>
      have hin := mem_marks_of_punctuation? hc
      simp only [List.mem_cons, List.not_mem_nil, or_false] at hin
      rw [Ends, List.cons_append, stops_cons]
      rcases hin with rfl | rfl | rfl | rfl | rfl | rfl
      all_goals rfl
    | null | true | false | number | string => cases hmark

theorem tokens?_blanks {gap : List Char} (hgap : Blank gap) (cs : List Char) :
    tokens? real (gap ++ cs) = tokens? real cs := by
  induction gap with
  | nil => rfl
  | cons c gap ih =>
    rw [List.cons_append, tokens?_of_blank (hgap c (.head _))]
    exact ih fun d hd => hgap d (.tail _ hd)

theorem Laid.tokens?_eq {ts : List Token} {cs : List Char} (h : Laid real ts cs) (hts : Separated ts) :
    tokens? real cs = some ts := by
  induction h with
  | nil hgap =>
    have hnil : tokens? real [] = some [] := by rw [Json.tokens?_eq]; rfl
    have hblank : tokens? real _ = _ := tokens?_blanks hgap []
    rwa [List.append_nil, hnil] at hblank
  | cons hgap ht h ih =>
    obtain ⟨hstart, hts⟩ := separated_cons.1 hts
    rw [tokens?_blanks hgap, tokens?_of_spelt ht fun hn => h.ends (hstart hn), ih hts, Option.map_some]

/-! ### Layouts -/

/-- The items after the first, with some blanks before each. -/
def spreadItems (gap : List Char) (write : Json → List Char) : List Json → List Char
  | [] => []
  | item :: items => ',' :: (gap ++ (write item ++ spreadItems gap write items))

/-- The members after the first, with some blanks before each name and before each value. -/
def spreadMembers (gap space : List Char) (write : Json → List Char) : List (Text × Json) → List Char
  | [] => []
  | (name, value) :: members =>
    ',' :: (gap ++ (writeText name ++ ':' :: (space ++ (write value ++ spreadMembers gap space write members))))

section

variable {gap space : List Char} {write : Json → List Char}

theorem laid_items (hgap : Blank gap) {items : List Json} (h : ∀ j ∈ items, Laid real j.tokens (write j)) :
    Laid real (itemTokens items) (spreadItems gap write items) := by
  induction items with
  | nil =>
    rw [itemTokens]
    exact .nil nofun
  | cons item items ih =>
    rw [itemTokens]
    exact .mark rfl (((h item (.head _)).append (ih fun j hj => h j (.tail _ hj))).blanks hgap)

/-- A name and its value are laid out if the value is. -/
theorem laid_member (hspace : Blank space) {name : Text} {cs : List Char} {ts : List Token}
    (hname : name.isSome = true) (h : Laid real ts cs) :
    Laid real (.string name :: .colon :: ts) (writeText name ++ ':' :: (space ++ cs)) := by
  obtain ⟨s, rfl⟩ := Option.isSome_iff_exists.1 hname
  exact .spelt (spelt_string s) (.mark rfl (h.blanks hspace))

theorem laid_members (hgap : Blank gap) (hspace : Blank space) {members : List (Text × Json)}
    (hnames : ∀ m ∈ members, m.1.isSome = true) (h : ∀ m ∈ members, Laid real m.2.tokens (write m.2)) :
    Laid real (memberTokens members) (spreadMembers gap space write members) := by
  induction members with
  | nil =>
    rw [memberTokens]
    exact .nil nofun
  | cons m members ih =>
    obtain ⟨name, value⟩ := m
    have hmembers := ih (fun m hm => hnames m (.tail _ hm)) fun m hm => h m (.tail _ hm)
    rw [memberTokens]
    exact .mark rfl ((laid_member hspace (hnames _ (.head _)) ((h _ (.head _)).append hmembers)).blanks hgap)

end

/-- A way to write values: some blanks where an array or object opens and before each further item, which may depend on
the depth, and some between a name and its value. -/
structure IsLayout (write : ℕ → Json → List Char) (gap : ℕ → List Char) (space : List Char) : Prop where
  blank_gap (depth : ℕ) : Blank (gap depth)
  blank_space : Blank space
  scalar (depth : ℕ) (j : Json) (ha : ∀ item items, j = .array (item :: items) → False)
    (ho : ∀ name value members, j = .object ((name, value) :: members) → False) : write depth j = writeScalar j
  array (depth : ℕ) (item : Json) (items : List Json) : write depth (.array (item :: items)) =
    '[' :: (gap (depth + 1) ++ (write (depth + 1) item ++
      (spreadItems (gap (depth + 1)) (write (depth + 1)) items ++ (gap depth ++ [']']))))
  object (depth : ℕ) (name : Text) (value : Json) (members : List (Text × Json)) :
    write depth (.object ((name, value) :: members)) =
      '\x7b' :: (gap (depth + 1) ++ (writeText name ++ ':' :: (space ++ (write (depth + 1) value ++
        (spreadMembers (gap (depth + 1)) space (write (depth + 1)) members ++ (gap depth ++ ['\x7d']))))))

/-- In any layout a value is spelt by its tokens. -/
theorem IsLayout.laid {write : ℕ → Json → List Char} {gap : ℕ → List Char} {space : List Char}
    (hw : IsLayout write gap space) (hr : real.Faithful) {n : ℕ} {j : Json} (hj : j.sound n = true) (depth : ℕ) :
    Laid real j.tokens (write depth j) := by
  have hone : ∀ {t : Token} {cs : List Char}, t.Spelt real cs → Laid real [t] cs := by
    intro t cs ht
    have hlaid := Laid.spelt ht (@Laid.nil real [] nofun)
    rwa [List.append_nil] at hlaid
  have hclose : ∀ {c : Char} {t : Token}, punctuation? c = some t → ∀ depth, Laid real [t] (gap depth ++ [c]) :=
    fun hc depth => (hone (.mark hc)).blanks (hw.blank_gap depth)
  induction j using Json.induction generalizing n depth with
  | null =>
    rw [hw.scalar depth .null nofun nofun, tokens]
    exact hone .null
  | bool b =>
    rw [hw.scalar depth (.bool b) nofun nofun, tokens]
    cases b with
    | true => exact hone .true
    | false => exact hone .false
  | number x =>
    rw [sound] at hj
    rw [hw.scalar depth (.number x) nofun nofun, tokens]
    exact hone (.number (literal_write hr hj))
  | string text =>
    rw [sound] at hj
    obtain ⟨s, rfl⟩ := Option.isSome_iff_exists.1 hj
    rw [hw.scalar depth (.string (some s)) nofun nofun, tokens]
    exact hone (spelt_string s)
  | array items ih =>
    obtain ⟨-, hitems⟩ := sound_array.1 hj
    cases items with
    | nil =>
      rw [hw.scalar depth (.array []) nofun nofun, tokens]
      exact .mark rfl (hone (.mark rfl))
    | cons item items =>
      have hlaid : ∀ j ∈ item :: items, Laid real j.tokens (write (depth + 1) j) := fun j hj => ih j hj (hitems j hj) _
      have hrest := laid_items (hw.blank_gap (depth + 1)) fun j hj => hlaid j (.tail _ hj)
      rw [hw.array, tokens, List.append_assoc]
      exact .mark rfl (((hlaid item (.head _)).append (hrest.append (hclose rfl depth))).blanks (hw.blank_gap _))
  | object members ih =>
    obtain ⟨-, hmembers⟩ := sound_object.1 hj
    cases members with
    | nil =>
      rw [hw.scalar depth (.object []) nofun nofun, tokens]
      exact .mark rfl (hone (.mark rfl))
    | cons m members =>
      obtain ⟨name, value⟩ := m
      have hlaid : ∀ m ∈ (name, value) :: members, Laid real m.2.tokens (write (depth + 1) m.2) := fun m hm =>
        ih m hm (hmembers m hm).2 _
      have hrest := laid_members (hw.blank_gap (depth + 1)) hw.blank_space
        (fun m hm => (hmembers m (.tail _ hm)).1) fun m hm => hlaid m (.tail _ hm)
      have hmember := laid_member hw.blank_space (hmembers _ (.head _)).1
        ((hlaid _ (.head _)).append (hrest.append (@hclose '\x7d' .objectClose rfl depth)))
      rw [hw.object, tokens, List.append_assoc]
      exact .mark rfl (hmember.blanks (hw.blank_gap _))

theorem compactItems_eq (items : List Json) : compactItems items = spreadItems [] compact items := by
  induction items with
  | nil => rw [compactItems, spreadItems]
  | cons item items ih =>
    rw [compactItems, spreadItems, ih]
    rfl

theorem compactMembers_eq (members : List (Text × Json)) :
    compactMembers members = spreadMembers [] [] compact members := by
  induction members with
  | nil => rw [compactMembers, spreadMembers]
  | cons m members ih =>
    obtain ⟨name, value⟩ := m
    rw [compactMembers, spreadMembers, ih]
    simp

theorem isLayout_compact : IsLayout (fun _ => compact) (fun _ => []) [] where
  blank_gap _ := nofun
  blank_space := nofun
  scalar _ _ ha ho := by rw [compact]; exacts [ha, ho]
  array _ item items := by
    rw [compact, compactItems_eq]
    simp
  object _ name value members := by
    rw [compact, compactMembers_eq]
    simp

theorem prettyItems_eq (depth : ℕ) (items : List Json) :
    prettyItems depth items = spreadItems (newline depth) (pretty depth) items := by
  induction items with
  | nil => rw [prettyItems, spreadItems]
  | cons item items ih =>
    rw [prettyItems, spreadItems, ih]
    simp

theorem prettyMembers_eq (depth : ℕ) (members : List (Text × Json)) :
    prettyMembers depth members = spreadMembers (newline depth) [' '] (pretty depth) members := by
  induction members with
  | nil => rw [prettyMembers, spreadMembers]
  | cons m members ih =>
    obtain ⟨name, value⟩ := m
    rw [prettyMembers, spreadMembers, ih]
    simp

theorem isLayout_pretty : IsLayout pretty newline [' '] where
  blank_gap depth := by
    intro c hc
    rcases List.mem_cons.1 hc with rfl | hc
    · rfl
    · rw [List.eq_of_mem_replicate hc]
      rfl
  blank_space := by simp [Blank, isBlank]
  scalar depth _ ha ho := by rw [pretty]; exacts [ha, ho]
  array depth item items := by
    rw [pretty, prettyItems_eq]
    simp
  object depth name value members := by
    rw [pretty, prettyMembers_eq]
    simp

/-! ### From tokens to values -/

/-- No value begins with the end of an array. -/
theorem exists_tokens_eq_cons (j : Json) : ∃ t ts, j.tokens = t :: ts ∧ t ≠ .arrayClose := by
  cases j with
  | null | bool | number | string => exact ⟨_, [], by rw [tokens], by simp⟩
  | array items => cases items <;> exact ⟨.arrayOpen, _, rfl, by simp⟩
  | object members => cases members <;> exact ⟨.objectOpen, _, rfl, by simp⟩

theorem readRest?_items {items : List Json}
    (h : ∀ j ∈ items, ∀ stack ts, readValue? stack (j.tokens ++ ts) = readRest? stack j ts) (held : List Json)
    (j : Json) (stack : List Pending) (ts : List Token) :
    readRest? (.array held :: stack) j (itemTokens items ++ .arrayClose :: ts) =
      readRest? stack (.array (held.reverse ++ j :: items)) ts := by
  induction items generalizing held j with
  | nil =>
    rw [itemTokens, List.nil_append, readRest?]
    simp
  | cons item items ih =>
    rw [itemTokens, List.cons_append, List.cons_append, readRest?, List.append_assoc, h item (.head _),
      ih fun j hj => h j (.tail _ hj)]
    simp

theorem readRest?_members {members : List (Text × Json)}
    (h : ∀ m ∈ members, ∀ stack ts, readValue? stack (m.2.tokens ++ ts) = readRest? stack m.2 ts)
    (held : List (Text × Json)) (name : Text) (j : Json) (stack : List Pending) (ts : List Token) :
    readRest? (.object held name :: stack) j (memberTokens members ++ .objectClose :: ts) =
      readRest? stack (.object (held.reverse ++ (name, j) :: members)) ts := by
  induction members generalizing held name j with
  | nil =>
    rw [memberTokens, List.nil_append, readRest?]
    simp
  | cons m members ih =>
    obtain ⟨name', value⟩ := m
    rw [memberTokens]
    simp only [List.cons_append, List.append_assoc]
    rw [readRest?, readMember?, h _ (.head _), ih fun m hm => h m (.tail _ hm)]
    simp

/-- The tokens of a value are read as that value, whatever is still open around it. -/
theorem readValue?_tokens (j : Json) (stack : List Pending) (ts : List Token) :
    readValue? stack (j.tokens ++ ts) = readRest? stack j ts := by
  induction j using Json.induction generalizing stack ts with
  | null | bool | number | string => rw [tokens, List.singleton_append, readValue?]
  | array items ih =>
    cases items with
    | nil => rw [tokens, List.cons_append, List.singleton_append, readValue?]
    | cons item items =>
      obtain ⟨t, us, htokens, ht⟩ := exists_tokens_eq_cons item
      have hopen : readValue? stack (.arrayOpen :: (item.tokens ++ (itemTokens items ++ .arrayClose :: ts))) =
          readValue? (.array [] :: stack) (item.tokens ++ (itemTokens items ++ .arrayClose :: ts)) := by
        rw [htokens, List.cons_append, readValue?]
        simpa using ht
      rw [tokens]
      simp only [List.cons_append, List.append_assoc, List.nil_append]
      rw [hopen, ih item (.head _), readRest?_items fun j hj => ih j (.tail _ hj)]
      rfl
  | object members ih =>
    cases members with
    | nil => rw [tokens, List.cons_append, List.singleton_append, readValue?]
    | cons m members =>
      obtain ⟨name, value⟩ := m
      rw [tokens]
      simp only [List.cons_append, List.append_assoc, List.nil_append]
      rw [readValue?, readMember?, ih _ (.head _), readRest?_members fun m hm => ih m (.tail _ hm)]
      · rfl
      · simp

/-- A text is read as the value whose tokens it spells, whatever blanks it has and however it spells them. -/
theorem parseWith?_of_laid {source : String} {j : Json} (h : Laid real j.tokens source.toList) :
    parseWith? real source = some j := by
  have hseparated := separated_tokens j [] (by simp [StartsMarked]) .nil
  rw [List.append_nil] at hseparated
  rw [parseWith?, h.tokens?_eq hseparated, Option.bind_some, ofTokens?, ← List.append_nil j.tokens, readValue?_tokens,
    readRest?]

section

variable (hr : real.Faithful)
include hr

theorem laid_compact {n : ℕ} {j : Json} (hj : j.sound n = true) : Laid real j.tokens j.compact :=
  isLayout_compact.laid hr hj 0

theorem laid_pretty {n : ℕ} {j : Json} (hj : j.sound n = true) (depth : ℕ) : Laid real j.tokens (j.pretty depth) :=
  isLayout_pretty.laid hr hj depth

/-- A sound value reads back from either layout. -/
theorem parseWith?_compact {n : ℕ} {j : Json} (hj : j.sound n = true) :
    parseWith? real (String.ofList j.compact) = some j := by
  apply parseWith?_of_laid
  rw [String.toList_ofList]
  exact laid_compact hr hj

theorem parseWith?_pretty {n : ℕ} {j : Json} (hj : j.sound n = true) (depth : ℕ) :
    parseWith? real (String.ofList (j.pretty depth)) = some j := by
  apply parseWith?_of_laid
  rw [String.toList_ofList]
  exact laid_pretty hr hj depth

end

end Trellis.Json
