import Trellis.Operand.Operator
import Trellis.Operand.Value
import Trellis.Program.Instruction
import Trellis.Tree.Fault

/-!
# Failures of running code

Each failure ends the render pass or the event handler in which it happens. It has a kind, which is a
stable name, and a message.
-/
namespace Trellis

/-- An operation on an empty operand stack. -/
inductive Underflow where
  | pop
  | copy
deriving DecidableEq, Repr

def Underflow.attempt : Underflow → String
  | .pop => "pop a value off the stack"
  | .copy => "duplicate the top value"

inductive Fault where
  | undefinedSection (label : String)
  | undefinedString (key : Int64)
  | undefinedConstant (key : Int64)
  | callDiscipline (label : String) (mode : Mode)
  | invalidValue (shown : String)
  | underflow (operation : Underflow)
  | outOfDepth (offset depth : Nat)
  | unknownOperator (symbol : String)
  | operandType (operator : Operator) (left right : Value.Kind)
  | noFocus
  | storm (quota : Nat)
  | noFrame
  | tree (fault : Tree.Fault)
deriving DecidableEq, Repr

namespace Fault

def kind : Fault → String
  | .undefinedSection _ => "UndefinedSectionError"
  | .undefinedString _ => "UndefinedResourceError"
  | .undefinedConstant _ => "UndefinedResourceError"
  | .callDiscipline .. => "CallDisciplineError"
  | .invalidValue _ => "InvalidStackValueError"
  | .underflow _ => "StackUnderflowError"
  | .outOfDepth .. => "StackOffsetError"
  | .unknownOperator _ => "UnknownOperatorError"
  | .operandType .. => "OperandTypeError"
  | .noFocus => "NoFocusTargetError"
  | .storm _ => "RerenderStormError"
  | .noFrame => "NoRenderFrameError"
  | .tree _ => "SurfaceError"

def message : Fault → String
  | .undefinedSection label => "cannot call undefined code section `" ++ label ++ "`"
  | .undefinedString key => "string " ++ toString key.toInt ++ " not found"
  | .undefinedConstant key => "constant " ++ toString key.toInt ++ " not found"
  | .callDiscipline label mode =>
    "cannot call renderable code from non-renderable code or vice versa (`" ++ label ++ "` under " ++
      mode.label ++ ")"
  | .invalidValue shown => "cannot have a value on the stack that is out of bounds: " ++ shown
  | .underflow operation => "cannot " ++ operation.attempt ++ ", because the stack is empty"
  | .outOfDepth offset depth =>
    "stack offset " ++ toString offset ++ " is out of bounds for a stack of depth " ++ toString depth
  | .unknownOperator symbol => "unknown operator `" ++ symbol ++ "`"
  | .operandType operator left right =>
    "cannot apply `" ++ operator.symbol ++ "` to " ++ left.name ++ " and " ++ right.name
  | .noFocus => "cannot read a value because no node is focused"
  | .storm quota =>
    "scheduled more than " ++ toString quota ++
      " re-renders from renderable code within one window, loop prevented"
  | .noFrame => "no rendering frame is open"
  | .tree fault => fault.message

end Fault
end Trellis
