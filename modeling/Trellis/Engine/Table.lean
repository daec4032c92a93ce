/-!
# Tables

A table maps each key to at most one value; inserting a key again replaces its value.
-/
namespace Trellis

structure Table (κ α : Type) where
  entries : List (κ × α)
deriving Repr

namespace Table

variable {κ α : Type} [DecidableEq κ]

def empty : Table κ α := ⟨[]⟩

def get? (t : Table κ α) (k : κ) : Option α := (t.entries.find? (·.1 = k)).map (·.2)

def contains (t : Table κ α) (k : κ) : Bool := (t.get? k).isSome

def insert (t : Table κ α) (k : κ) (v : α) : Table κ α := ⟨(k, v) :: t.entries.filter (·.1 ≠ k)⟩

def size (t : Table κ α) : Nat := t.entries.length

/-- Of several entries for a key the last one counts. -/
def ofList (entries : List (κ × α)) : Table κ α := entries.foldl (fun t e => t.insert e.1 e.2) empty

@[simp] theorem get?_empty (k : κ) : (empty : Table κ α).get? k = none := rfl

@[simp] theorem get?_insert_self (t : Table κ α) (k : κ) (v : α) : (t.insert k v).get? k = some v := by
  simp [get?, insert]

theorem get?_insert_of_ne (t : Table κ α) {k l : κ} (v : α) (h : l ≠ k) :
    (t.insert k v).get? l = t.get? l := by
  simp only [get?, insert, List.find?_cons, Ne.symm h, decide_false, List.find?_filter]
  congr 2
  funext e
  by_cases he : e.1 = l <;> simp_all

end Table
end Trellis
