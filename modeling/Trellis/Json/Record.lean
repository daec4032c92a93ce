import Trellis.Json.Basic

/-!
# Records in JSON

A record is an object of named fields or an array of its fields in order. Unknown names are ignored,
however often they occur; a known name may occur once. A field with a default may be left out.
-/
namespace Trellis.Json

variable {α β : Type}

def bool? : Json → Option Bool
  | .bool b => some b
  | _ => none

def string? : Json → Option String
  | .string text => text
  | _ => none

/-- Only integer literals are integers: `1.0` and `-0` are not. -/
def int64? : Json → Option Int64
  | .number (.integer n) => if Int64.minValue.toInt ≤ n ∧ n ≤ Int64.maxValue.toInt then some (Int64.ofInt n) else none
  | _ => none

def uint64? : Json → Option UInt64
  | .number (.integer n) => if 0 ≤ n ∧ n < UInt64.size then some (UInt64.ofNat n.toNat) else none
  | _ => none

/-- Any number literal that does not overflow. -/
def real? : Json → Option Binary64
  | .number n => if n.toBinary64.isFinite then some n.toBinary64 else none
  | _ => none

def list? (item? : Json → Option α) : Json → Option (List α)
  | .array items => items.mapM item?
  | _ => none

/-- The items of an array of two. -/
def pair? (first? : Json → Option α) (second? : Json → Option β) : Json → Option (α × β)
  | .array [a, b] => do return (← first? a, ← second? b)
  | _ => none

/-- The value of a name that occurs at most once. -/
def member? (members : List (Text × Json)) (name : String) : Option (Option Json) :=
  match members.filter (·.1 = some name) with
  | [] => some none
  | [m] => some (some m.2)
  | _ => none

/-- The fields of a record in the order of their names; `none` for a field that is left out. -/
def fields? (names : List String) : Json → Option (List (Option Json))
  | .object members => if members.all (·.1.isSome) then names.mapM (member? members) else none
  | .array items =>
    if items.length ≤ names.length then
      some (items.map some ++ List.replicate (names.length - items.length) none)
    else none
  | _ => none

/-- The value of a field that may be left out. -/
def orDefault (default : α) (value? : Json → Option α) : Option Json → Option α
  | none => some default
  | some j => value? j

/-- The one member of an object. -/
def only? : Json → Option (String × Json)
  | .object [(some name, value)] => some (name, value)
  | _ => none

/-- How deep arrays and objects may be nested. -/
def nestingLimit : Nat := 127

end Trellis.Json
