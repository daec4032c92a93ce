import Trellis.Markup.Entity

/-!
# Escaped text

Escaping works character by character, and every ampersand that it writes begins an entity. Decoding therefore takes
back one character after the other, whatever follows them, and no character that has a meaning in markup is left.
-/
namespace Trellis.Markup

theorem decode_cons_of_ne {c : Char} (hc : c ≠ '&') (cs : List Char) : decode (c :: cs) = c :: decode cs := by
  rw [decode]
  all_goals simp_all

theorem decode_escapeTextChar (c : Char) (cs : List Char) : decode (escapeTextChar c ++ cs) = c :: decode cs := by
  unfold escapeTextChar
  split
  · next h => simp [h, decode]
  · next hamp =>
    split
    · next h => simp [h, decode]
    · split
      · next h => simp [h, decode]
      · exact decode_cons_of_ne hamp cs

theorem decode_escapeAttributeChar (c : Char) (cs : List Char) :
    decode (escapeAttributeChar c ++ cs) = c :: decode cs := by
  unfold escapeAttributeChar
  split
  · next h => simp [h, decode]
  · exact decode_escapeTextChar c cs

theorem decode_flatMap {escape : Char → List Char} (h : ∀ c cs, decode (escape c ++ cs) = c :: decode cs)
    (s cs : List Char) : decode (s.flatMap escape ++ cs) = s ++ decode cs := by
  induction s with
  | nil => rfl
  | cons c s ih => rw [List.flatMap_cons, List.append_assoc, h, ih, List.cons_append]

theorem decode_escapeText (s cs : List Char) : decode (escapeText s ++ cs) = s ++ decode cs :=
  decode_flatMap decode_escapeTextChar s cs

theorem decode_escapeAttribute (s cs : List Char) : decode (escapeAttribute s ++ cs) = s ++ decode cs :=
  decode_flatMap decode_escapeAttributeChar s cs

theorem ne_of_mem_escapeTextChar {c d : Char} (h : d ∈ escapeTextChar c) : d ≠ '<' ∧ d ≠ '>' := by
  have hall : (escapeTextChar c).all (fun d => d ≠ '<' && d ≠ '>') = true := by
    unfold escapeTextChar
    split
    · decide
    · split
      · decide
      · split
        · decide
        · simp_all
  simpa using List.all_eq_true.1 hall d h

/-- Escaped text neither opens nor closes a tag. -/
theorem ne_of_mem_escapeText {s : List Char} {d : Char} (h : d ∈ escapeText s) : d ≠ '<' ∧ d ≠ '>' := by
  obtain ⟨c, -, hd⟩ := List.mem_flatMap.mp h
  exact ne_of_mem_escapeTextChar hd

/-- An escaped attribute value does not close its quotes. -/
theorem ne_quote_of_mem_escapeAttribute {s : List Char} {d : Char} (h : d ∈ escapeAttribute s) : d ≠ '\x22' := by
  obtain ⟨c, -, hd⟩ := List.mem_flatMap.mp h
  unfold escapeAttributeChar escapeTextChar at hd
  grind

end Trellis.Markup
