/-!
# Node handles

A handle names a slot and a generation of that slot. A freed slot is used again with the next generation,
so that an old handle does not name the slot's next node. The slot freed last is used first.
-/
namespace Trellis.Tree

structure Handle where
  slot : Nat
  generation : UInt32
deriving DecidableEq, Repr

namespace Handle

def root : Handle := ⟨0, 0⟩

def label (h : Handle) : String := "#" ++ toString h.slot ++ "." ++ toString h.generation.toNat

/-- The next handle of the same slot. -/
def next (h : Handle) : Handle := ⟨h.slot, h.generation + 1⟩

end Handle

/-- The handles to be given out: those of freed slots, the slot freed last first, and then those of slots
never used. -/
structure Pool where
  free : List Handle
  slots : Nat
deriving DecidableEq, Repr

namespace Pool

def take (p : Pool) : Handle × Pool :=
  match p.free with
  | h :: free => (h, { p with free })
  | [] => (⟨p.slots, 0⟩, { p with slots := p.slots + 1 })

/-- Takes back the slots of some handles, in order. -/
def give (p : Pool) (hs : List Handle) : Pool :=
  { p with free := hs.foldl (fun free h => h.next :: free) p.free }

end Pool
end Trellis.Tree
