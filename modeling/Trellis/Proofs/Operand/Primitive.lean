import Trellis.Operand.Stack

/-!
# What instructions do to the operand stack

Instructions reach the operand stack by a few operations only. Each of them fails in a few ways of its own, and what
such a fault says is about operands.
-/
namespace Trellis

/-- A fault of an instruction that works on the operand stack. -/
def Fault.IsOperand : Fault → Prop
  | .invalidValue _ | .underflow _ | .outOfDepth .. | .unknownOperator _ | .operandType .. => True
  | _ => False

theorem Value.isOperand_of_fault? {v : Value} {fault : Fault} (h : v.fault? = some fault) : fault.IsOperand := by
  cases v with
  | text s => cases h
  | number x =>
    rw [fault?] at h
    split at h
    · cases h
    · cases h; trivial

namespace Operands

/-- The operations on the operand stack that instructions are made of. -/
inductive Primitive : {α : Type} → (Operands → Result α) → Prop
  | push (v : Value) : Primitive (push v)
  | pop : Primitive pop
  | copy : Primitive copy
  /-- To look at a value is to leave the stack as it is. -/
  | peek (offset : Nat) : Primitive fun s => (s.peek offset, s)
  | swap (a b : Nat) : Primitive (swap a b)
  | calculate (operator : Operator) : Primitive (calculate operator)
  | compare : Primitive compare

section

variable {s : Operands} {fault : Fault}

theorem isOperand_of_push {v : Value} (h : (push v s).1 = .error fault) : fault.IsOperand := by
  unfold push at h
  split at h
  · cases h
  case h_2 fault' hv =>
    cases h
    exact Value.isOperand_of_fault? hv

theorem isOperand_of_pop (h : (pop s).1 = .error fault) : fault.IsOperand := by
  cases s with
  | nil => cases h; trivial
  | cons => cases h

theorem isOperand_of_copy (h : (copy s).1 = .error fault) : fault.IsOperand := by
  cases s with
  | nil => cases h; trivial
  | cons => cases h

theorem isOperand_of_peek {offset : Nat} (h : s.peek offset = .error fault) : fault.IsOperand := by
  unfold peek at h
  split at h
  · cases h
  · cases h; trivial

theorem isOperand_of_swap {a b : Nat} (h : (swap a b s).1 = .error fault) : fault.IsOperand := by
  unfold swap at h
  split at h
  · cases h
  · cases h; trivial
  · cases h; trivial

/-- There are too few operands, or they are no numbers, or the result is out of bounds. -/
theorem isOperand_of_calculate {operator : Operator} (h : (calculate operator s).1 = .error fault) :
    fault.IsOperand := by
  unfold calculate at h
  split at h
  · split at h
    · dsimp only at h
      split at h
      · cases h
      case h_2 hv =>
        cases h
        exact Value.isOperand_of_fault? hv
    · cases h; trivial
  · cases h; trivial

theorem isOperand_of_compare (h : (compare s).1 = .error fault) : fault.IsOperand := by
  unfold compare at h
  split at h
  · cases h
  · cases h; trivial

end

/-- What fails on the operand stack, fails because of operands. -/
theorem Primitive.isOperand {α : Type} {f : Operands → Result α} (hf : Primitive f) {s : Operands} {fault : Fault}
    (h : (f s).1 = .error fault) : fault.IsOperand := by
  cases hf with
  | push v => exact isOperand_of_push h
  | pop => exact isOperand_of_pop h
  | copy => exact isOperand_of_copy h
  | peek offset => exact isOperand_of_peek h
  | swap a b => exact isOperand_of_swap h
  | calculate operator => exact isOperand_of_calculate h
  | compare => exact isOperand_of_compare h

end Operands
end Trellis
