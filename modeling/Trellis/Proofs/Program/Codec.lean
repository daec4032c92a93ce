import Mathlib
import Trellis.Proofs.Program.Forms

/-!
# Programs read back

A program is written as JSON with a line for each item, and an instruction on its own without blanks. Both read back as
what was written if constants are finite, nesting stays within the reader's limit, and no container has the name under
which the root is written.
-/
namespace Trellis

open Json (nestingLimit)

namespace Instruction

theorem plain_toJson (i : Instruction) : i.toJson.Plain := (i.form_toJson Json.Plain).plain

theorem ofJson?_toJson {i : Instruction} (hi : i.unreserved = true) {limit : ℕ} (hlimit : i.toJson.depth ≤ limit) :
    ofJson? limit i.toJson = some i :=
  ofJson?_of_form hi (i.form_toJson _) hlimit

end Instruction

theorem Definition.plain_toJson (d : Definition) : d.toJson.Plain := by
  have hbody : (Json.array (d.body.map Instruction.toJson)).Plain :=
    .array (List.forall_mem_map.2 fun i _ => i.plain_toJson)
  rw [← Instruction.toJsonAll_eq] at hbody
  exact .ofMembers (by simp [Json.Plain.ofString, Json.Plain.bool, hbody])

namespace Program

theorem plain_toJson {p : Program} (hp : ∀ c ∈ p.constants, c.2.isFinite = true) : p.toJson.Plain := by
  have hpair : ∀ x y : Json, x.Plain → y.Plain → (Json.array [x, y]).Plain := by
    intro x y hx hy
    exact .array (by simp [hx, hy])
  refine .ofMembers ?_
  simp only [List.forall_mem_cons, List.not_mem_nil, false_imp_iff, implies_true, and_true]
  refine ⟨.bool _, .array ?_, .array ?_, .array ?_⟩
  · exact List.forall_mem_map.2 fun s _ => hpair _ _ (.ofInt64 s.1) (.ofString s.2)
  · exact List.forall_mem_map.2 fun c hc => hpair _ _ (.ofInt64 c.1) (.number (hp c hc))
  · exact List.forall_mem_map.2 fun d _ => d.plain_toJson

theorem ofJson?_toJson {p : Program} (hconstants : ∀ c ∈ p.constants, c.2.isFinite = true)
    (hcode : ∀ d ∈ p.sections, Instruction.unreservedAll d.body = true) (hlimit : p.toJson.depth ≤ nestingLimit) :
    ofJson? p.toJson = some p :=
  ofJson?_of_form hconstants hcode (p.form_toJson _) hlimit

end Program

/-- A program reads back from its text if its constants are finite, none of its containers has the reserved name, and
its JSON stays within the nesting limit. So does an instruction on its own. -/
theorem Program.ofText?_toText :
    (∀ p : Program, (∀ c ∈ p.constants, c.2.isFinite = true) →
      (∀ d ∈ p.sections, Instruction.unreservedAll d.body = true) → p.toJson.depth ≤ nestingLimit →
      Program.ofText? p.toText = some p) ∧
    ∀ i : Instruction, i.unreserved = true → i.toJson.depth ≤ nestingLimit → Instruction.ofText? i.toText = some i := by
  refine ⟨fun p hconstants hcode hlimit => ?_, fun i hi hlimit => ?_⟩
  · rw [Program.ofText?, ofTextWith?, Program.toText,
      Json.parseWith?_pretty Json.faithful_nearest (Program.plain_toJson hconstants _ hlimit)]
    exact Program.ofJson?_toJson hconstants hcode hlimit
  · rw [Instruction.ofText?, Json.parse?, Instruction.toText,
      Json.parseWith?_compact Json.faithful_nearest (i.plain_toJson _ hlimit)]
    exact Instruction.ofJson?_toJson hi hlimit

/-- A conditional in a container in a conditional, with fields at the ends of their ranges. -/
def Instruction.nested : Instruction :=
  .conditional (.number Int64.minValue) [.container (.symbol "") (.named "Root")
    [.conditional (.number 0) [.single (.symbol "-1") (.swap 0 18446744073709551615)]], .container .root .root []]

/-- Texts that need escapes, constants that are a negative zero and a third, and a repeated label. -/
def Program.nested : Program where
  strings := [(-1, "\x22\\\n\x00\x7f"), (-1, "ſ𝄞")]
  constants := [(0, .zero true), (Int64.maxValue, .round false 1 3)]
  sections := [⟨"a\tb", true, [.nested, .nested]⟩, ⟨"a\tb", false, []⟩]

theorem Program.ofText?_toText_nested :
    (Program.nested.toJson.depth = 11 ∧ Program.ofText? Program.nested.toText = some .nested) ∧
      Instruction.nested.toJson.depth = 7 ∧ Instruction.ofText? Instruction.nested.toText = some .nested := by
  have hp : Program.nested.toJson.depth = 11 := by decide
  have hi : Instruction.nested.toJson.depth = 7 := by decide
  have hprogram := Program.ofText?_toText.1 .nested (by decide) (by decide) (hp ▸ by decide)
  have hinstruction := Program.ofText?_toText.2 .nested (by decide) (hi ▸ by decide)
  exact ⟨⟨hp, hprogram⟩, hi, hinstruction⟩

end Trellis
