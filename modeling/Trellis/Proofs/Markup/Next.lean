import Trellis.Markup.Token

/-!
# What begins at a character

A `<` begins a comment, a closing tag or an opening tag if the characters after it say so. Everything else is text up
to the next `<`, and so is a `<` that begins nothing.
-/
namespace Trellis.Markup

/-- Neither a comment nor a tag begins here. -/
def Plain (c : Char) (cs : List Char) : Prop :=
  c = '<' → ¬ ['!', '-', '-'] <+: cs ∧ (∀ d, ['/', d] <+: cs → d.isAlpha = false) ∧
    ∀ d, [d] <+: cs → d.isAlpha = false

theorem next_comment (rest : List Char) : next '<' ('!' :: '-' :: '-' :: rest) = (.comment, afterComment rest) := rfl

theorem next_closing {d : Char} (hd : d.isAlpha = true) (rest : List Char) :
    next '<' ('/' :: d :: rest) =
      (.closing (lowercase (d :: rest.takeWhile isNameChar)), after '>' (rest.dropWhile isNameChar)) := by
  simp [next, hd]

theorem next_opening {d : Char} (hd : d.isAlpha = true) (rest : List Char) :
    next '<' (d :: rest) =
      (.opening (lowercase (d :: rest.takeWhile isNameChar)) (attributes (rest.dropWhile isNameChar)).1
        (attributes (rest.dropWhile isNameChar)).2.1, (attributes (rest.dropWhile isNameChar)).2.2) := by
  unfold next
  rw [if_pos rfl]
  split
  · next heq =>
    cases heq
    exact absurd hd (by decide)
  · next heq =>
    cases heq
    exact absurd hd (by decide)
  · next heq =>
    cases heq
    rw [if_pos hd]
  · next heq => cases heq

theorem next_text {c : Char} {cs : List Char} (h : Plain c cs) :
    next c cs = (.text (String.ofList (decode (c :: cs.takeWhile (· ≠ '<')))), cs.dropWhile (· ≠ '<')) := by
  unfold next
  by_cases hc : c = '<'
  · obtain ⟨hcomment, hclosing, hopening⟩ := h hc
    rw [if_pos hc]
    split
    · next rest => exact absurd ⟨rest, rfl⟩ hcomment
    · next d rest => rw [hclosing d ⟨rest, rfl⟩, if_neg (by decide)]
    · next d rest _ _ => rw [hopening d ⟨rest, rfl⟩, if_neg (by decide)]
    · rfl
  · rw [if_neg hc]

/-- What begins with a character is a comment, a tag or text. -/
theorem next_cases (c : Char) (cs : List Char) :
    (∃ rest, c = '<' ∧ cs = '!' :: '-' :: '-' :: rest) ∨
      (∃ d rest, c = '<' ∧ cs = '/' :: d :: rest ∧ d.isAlpha = true) ∨
      (∃ d rest, c = '<' ∧ cs = d :: rest ∧ d.isAlpha = true) ∨ Plain c cs := by
  by_cases hc : c = '<'
  · by_cases hcomment : ['!', '-', '-'] <+: cs
    · obtain ⟨rest, rfl⟩ := hcomment
      exact .inl ⟨rest, hc, rfl⟩
    by_cases hclosing : ∃ d, ['/', d] <+: cs ∧ d.isAlpha = true
    · obtain ⟨d, ⟨rest, rfl⟩, hd⟩ := hclosing
      exact .inr (.inl ⟨d, rest, hc, rfl, hd⟩)
    by_cases hopening : ∃ d, [d] <+: cs ∧ d.isAlpha = true
    · obtain ⟨d, ⟨rest, rfl⟩, hd⟩ := hopening
      exact .inr (.inr (.inl ⟨d, rest, hc, rfl, hd⟩))
    refine .inr (.inr (.inr fun _ => ⟨hcomment, fun d hd => ?_, fun d hd => ?_⟩))
    · exact Bool.eq_false_iff.2 fun halpha => hclosing ⟨d, hd, halpha⟩
    · exact Bool.eq_false_iff.2 fun halpha => hopening ⟨d, hd, halpha⟩
  · exact .inr (.inr (.inr fun h => absurd h hc))

theorem tokens_of_next {c : Char} {cs rest : List Char} {t : Token} (h : next c cs = (t, rest)) :
    tokens (c :: cs) = t :: tokens rest := by
  rw [tokens, h]

end Trellis.Markup
