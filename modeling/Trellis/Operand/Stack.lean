import Trellis.Fault

/-!
# The operand stack

Values with the topmost first. Offsets count from the top. Every operation returns the stack it leaves
behind, also when it fails: what has been taken off by then stays off.
-/
namespace Trellis

/-- Why a value may not stand on the stack, if it may not. -/
def Value.fault? : Value → Option Fault
  | .number x => if x.within bound then none else some (.invalidValue x.toText)
  | .text _ => none

abbrev Operands := List Value

namespace Operands

abbrev Result (α : Type) := Except Fault α × Operands

def push (v : Value) (s : Operands) : Result Unit :=
  match v.fault? with
  | none => (.ok (), v :: s)
  | some fault => (.error fault, s)

def pop : Operands → Result Value
  | [] => (.error (.underflow .pop), [])
  | v :: s => (.ok v, s)

def copy : Operands → Result Unit
  | [] => (.error (.underflow .copy), [])
  | v :: s => (.ok (), v :: v :: s)

def peek (offset : Nat) (s : Operands) : Except Fault Value :=
  match s[offset]? with
  | some v => .ok v
  | none => .error (.outOfDepth offset s.length)

/-- Exchanges the values at two offsets. -/
def swap (a b : Nat) (s : Operands) : Result Unit :=
  match s[a]?, s[b]? with
  | some v, some w => (.ok (), (s.set a w).set b v)
  | none, _ => (.error (.outOfDepth a s.length), s)
  | _, none => (.error (.outOfDepth b s.length), s)

/-- Applies an operator to the two topmost values; the one pushed first is the left operand. -/
def calculate (operator : Operator) : Operands → Result Value
  | right :: left :: s =>
    match left, right with
    | .number x, .number y =>
      let result := Value.number (operator.apply x y)
      match result.fault? with
      | none => (.ok result, result :: s)
      | some fault => (.error fault, s)
    | _, _ => (.error (.operandType operator left.kind right.kind), s)
  | _ => (.error (.underflow .pop), [])

/-- Replaces the two topmost values by 1 if they are equal and by 0 otherwise. -/
def compare : Operands → Result Bool
  | v :: w :: s => (.ok (v.equal w), .ofBool (v.equal w) :: s)
  | _ => (.error (.underflow .pop), [])

end Operands
end Trellis
