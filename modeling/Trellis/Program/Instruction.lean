/-!
# Instructions

A section's code is a list of instructions. Containers and conditionals hold code of their own; every other
instruction is a single operation. Each instruction carries the key of its site.
-/
namespace Trellis

/-- The key of a site: a number or a symbol. A number and the symbol with the same digits are different. -/
inductive Key where
  | number (n : Int64)
  | symbol (s : String)
deriving DecidableEq, Repr

namespace Key

def label : Key → String
  | .number n => toString n.toInt
  | .symbol s => s

/-- The site of the host's own calls into the program. -/
def root : Key := .number (-1)

end Key

/-- What a call demands of the section it enters. -/
inductive Mode where
  | any
  /-- The section has to be as renderable as the section of the innermost frame. -/
  | renderable
  /-- The section must not be renderable. -/
  | callable
deriving DecidableEq, Repr

def Mode.label : Mode → String
  | .any => "CAN_BE_ANY"
  | .renderable => "MUST_BE_RENDERABLE"
  | .callable => "MUST_BE_CALLABLE"

/-- Where a value comes from: a table, or the operand stack counted from its top. -/
inductive Source where
  | string (key : Int64)
  | constant (key : Int64)
  | stack (offset : UInt64)
deriving DecidableEq, Repr

/-- The element that a container makes. A root container makes none of its own: what it holds moves into the
enclosing element. -/
inductive Enclosure where
  | plain
  | named (tag : String)
  | root
deriving DecidableEq, Repr

def Enclosure.tag : Enclosure → String
  | .plain => "div"
  | .named tag => tag
  | .root => "root"

/-- An enclosure as written: nothing for the plain one, and a reserved word for the root. -/
def Enclosure.ofName : Option String → Enclosure
  | none => .plain
  | some name => if name = "root" then .root else .named name

def Enclosure.name : Enclosure → Option String
  | .plain => none
  | .named tag => some tag
  | .root => some "root"

inductive Operation where
  | element (tag : String)
  | value (raw : Bool) (source : Source)
  | call (label : String) (mode : Mode)
  | render
  | listen (event handler : String)
  | push (source : Source)
  | copy
  | pop
  | swap (a b : UInt64)
  | compare
  | read
  /-- The operator stays as written: an unknown one fails only when it is executed. -/
  | calculate (operator : String)
deriving DecidableEq, Repr

inductive Instruction where
  | container (id : Key) (enclosure : Enclosure) (body : List Instruction)
  | conditional (id : Key) (body : List Instruction)
  | single (id : Key) (operation : Operation)
deriving Repr

namespace Instruction

def id : Instruction → Key
  | .container id .. => id
  | .conditional id _ => id
  | .single id _ => id

def body? : Instruction → Option (List Instruction)
  | .container _ _ body => some body
  | .conditional _ body => some body
  | .single .. => none

mutual

def decEq : (a b : Instruction) → Decidable (a = b)
  | .container i e xs, .container j f ys =>
    match decEqList xs ys with
    | .isTrue h => decidable_of_iff (i = j ∧ e = f) (by simp [h])
    | .isFalse h => .isFalse (by simp [h])
  | .conditional i xs, .conditional j ys =>
    match decEqList xs ys with
    | .isTrue h => decidable_of_iff (i = j) (by simp [h])
    | .isFalse h => .isFalse (by simp [h])
  | .single i x, .single j y => decidable_of_iff (i = j ∧ x = y) (by simp)
  | .container .., .conditional .. => .isFalse nofun
  | .container .., .single .. => .isFalse nofun
  | .conditional .., .container .. => .isFalse nofun
  | .conditional .., .single .. => .isFalse nofun
  | .single .., .container .. => .isFalse nofun
  | .single .., .conditional .. => .isFalse nofun

def decEqList : (xs ys : List Instruction) → Decidable (xs = ys)
  | [], [] => .isTrue rfl
  | x :: xs, y :: ys =>
    match decEq x y, decEqList xs ys with
    | .isTrue h, .isTrue h' => .isTrue (by rw [h, h'])
    | .isFalse h, _ => .isFalse (by simp [h])
    | _, .isFalse h => .isFalse (by simp [h])
  | [], _ :: _ => .isFalse nofun
  | _ :: _, [] => .isFalse nofun

end

instance : DecidableEq Instruction := decEq

end Instruction
end Trellis
