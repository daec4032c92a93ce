import Trellis.Proofs.Engine.Reachable
import Trellis.Proofs.Number.Nearest

/-!
# What stands on the operand stack

The tables of a program may hold any number, and arithmetic may leave the bound or end in no number at all. On the
operand stack there is nonetheless nothing but texts and finite numbers of magnitude at most `2 ^ 53 - 1`: a value is
checked where it is made, and the operations that move values find only checked ones. What one operation keeps is
kept by all code and by every request of a host, whether it fails or not.
-/
namespace Trellis

namespace Value

theorem fault?_eq_none_iff {v : Value} : v.fault? = none ↔ v.isValid = true := by
  cases v with
  | number x => by_cases hx : x.within bound = true <;> simp [fault?, isValid, hx]
  | text s => simp [fault?, isValid]

theorem isValid_ofBool (b : Bool) : (ofBool b).isValid = true := by
  cases b <;> decide +kernel

theorem isValid_iff {v : Value} :
    v.isValid = true ↔
      (∃ s, v = .text s) ∨ ∃ x q, v = .number x ∧ x.toRat? = some q ∧ |q| ≤ 2 ^ 53 - 1 := by
  have hbound : ((bound : ℕ) : ℚ) = 2 ^ 53 - 1 := by norm_num [bound]
  cases v with
  | number x => simp [isValid, Binary64.within_iff, hbound]
  | text s => simp [isValid]

end Value

namespace Operands

/-- Every value may stand on the stack. -/
def Valid (s : Operands) : Prop := ∀ v ∈ s, v.isValid = true

section

variable {s : Operands}

theorem valid_nil : Valid [] := List.forall_mem_nil _

theorem valid_cons {v : Value} : Valid (v :: s) ↔ v.isValid = true ∧ Valid s := List.forall_mem_cons

theorem Valid.push (hs : Valid s) (v : Value) : Valid (push v s).2 := by
  unfold Operands.push
  cases hv : v.fault? with
  | none => exact valid_cons.2 ⟨Value.fault?_eq_none_iff.1 hv, hs⟩
  | some fault => exact hs

theorem Valid.pop (hs : Valid s) : Valid (pop s).2 := by
  cases s with
  | nil => exact hs
  | cons v s => exact (valid_cons.1 hs).2

theorem Valid.copy (hs : Valid s) : Valid (copy s).2 := by
  cases s with
  | nil => exact hs
  | cons v s => exact valid_cons.2 ⟨(valid_cons.1 hs).1, hs⟩

theorem Valid.set (hs : Valid s) (a : Nat) {v : Value} (hv : v.isValid = true) : Valid (s.set a v) := by
  intro w hw
  cases List.mem_or_eq_of_mem_set hw with
  | inl hmem => exact hs w hmem
  | inr heq => exact heq ▸ hv

/-- The values that change places were both on the stack. -/
theorem Valid.swap (hs : Valid s) (a b : Nat) : Valid (swap a b s).2 := by
  unfold Operands.swap
  split
  case h_1 v w ha hb =>
    exact (hs.set a (hs w (List.mem_of_getElem? hb))).set b (hs v (List.mem_of_getElem? ha))
  case h_2 => exact hs
  case h_3 => exact hs

/-- A result is checked like a value that is pushed; when it is refused, the operands are gone. -/
theorem Valid.calculate (hs : Valid s) (operator : Operator) : Valid (calculate operator s).2 := by
  match s, hs with
  | [], hs => exact hs
  | [_], _ => exact valid_nil
  | right :: left :: s, hs =>
    have hrest := (valid_cons.1 (valid_cons.1 hs).2).2
    cases left with
    | text => exact hrest
    | number x =>
      cases right with
      | text => exact hrest
      | number y =>
        unfold Operands.calculate
        dsimp only
        cases hv : (Value.number (operator.apply x y)).fault? with
        | none => exact valid_cons.2 ⟨Value.fault?_eq_none_iff.1 hv, hrest⟩
        | some fault => exact hrest

/-- What a comparison puts on the stack is not checked, but it is 0 or 1. -/
theorem Valid.compare (hs : Valid s) : Valid (compare s).2 := by
  match s, hs with
  | [], hs => exact hs
  | [_], _ => exact valid_nil
  | v :: w :: s, hs => exact valid_cons.2 ⟨Value.isValid_ofBool _, (valid_cons.1 (valid_cons.1 hs).2).2⟩

theorem Primitive.valid {α : Type} {f : Operands → Result α} (hf : Primitive f) (hs : s.Valid) : Valid (f s).2 := by
  cases hf with
  | push v => exact hs.push v
  | pop => exact hs.pop
  | copy => exact hs.copy
  | peek offset => exact hs
  | swap a b => exact hs.swap a b
  | calculate operator => exact hs.calculate operator
  | compare => exact hs.compare

end
end Operands

namespace Action

/-- A stack of valid operands stays one. -/
def Validates (e e' : Engine) : Prop := e.stack.Valid → e'.stack.Valid

theorem stable_validates : Stable Validates where
  refl _ := id
  trans hab hbc h := hbc (hab h)
  stack hf _ h := hf.valid h
  tree _ _ := id
  site _ _ := id
  listener _ _ := id
  time _ := id
  arm _ _ := id
  count _ _ := id
  pending _ := id
  frame _ h := h
  focus _ h := h
  context _ h := h

/-- Apart from the code that they run, requests leave the stack alone or empty it. -/
theorem hosted_validates : Hosted Validates Validates where
  toChain := stable_validates.toChain
  stable := stable_validates
  of := id
  config _ _ := id
  clock _ _ := id
  resources _ _ := id
  sections _ _ := id
  schedule _ _ := id
  report _ _ := id
  focus _ _ := id
  mount _ _ := id
  empty _ _ := Operands.valid_nil
  stop _ _ := id

end Action

namespace Engine

/-- Whatever tables a host loads and whatever it asks for, in whatever order and with whatever failures, every value on
the operand stack is a text or a finite number of magnitude at most `2 ^ 53 - 1`. -/
theorem Reachable.operands_bounded {e : Engine} (he : e.Reachable) :
    ∀ v ∈ e.stack, (∃ s, v = .text s) ∨ ∃ x q, v = .number x ∧ x.toRat? = some q ∧ |q| ≤ 2 ^ 53 - 1 := by
  have hvalid : e.stack.Valid := by
    induction he with
    | new config => exact Operands.valid_nil
    | request n r _ hr ih => exact (Action.hosted_validates.request n r _).engine hr ih
  exact fun v hv => Value.isValid_iff.1 (hvalid v hv)

/-- Constants at the bound and past it: the larger one is refused when it is pushed, and so is the sum of the smaller
one with itself, which takes both operands with it. -/
def straining : List Request :=
  [.constants [(1, .ofInt 9007199254740991), (2, .ofInt 9007199254740992)],
    .push 0 (.text "kept"),
    .perform 0 (.push (.constant 2)),
    .execute [.single (.number 1) (.push (.constant 1)), .single (.number 2) .copy,
      .single (.number 3) (.calculate "+")],
    .perform 0 (.push (.constant 1))]

theorem operands_bounded_straining :
    ∃ e : Engine, e.Reachable ∧ e.stack = [.number (.ofInt 9007199254740991), .text "kept"] ∧
      ∀ v ∈ e.stack, (∃ s, v = .text s) ∨ ∃ x q, v = .number x ∧ x.toRat? = some q ∧ |q| ≤ 2 ^ 53 - 1 := by
  have hrun : (straining.foldlM (fun e r => (Request.run 1 r e).engine?) (Engine.new {})).map (·.stack) =
      some [.number (.ofInt 9007199254740991), .text "kept"] := by decide +kernel
  obtain ⟨e, hrun, hstack⟩ := Option.map_eq_some_iff.1 hrun
  have he := (Reachable.new {}).requests 1 hrun
  exact ⟨e, he, hstack, he.operands_bounded⟩

end Engine
end Trellis
