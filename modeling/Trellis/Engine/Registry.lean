import Trellis.Program.Instruction

/-!
# The registry of sites

Keys are numbered in the order of their first use.
-/
namespace Trellis

structure Registry where
  keys : List Key
deriving DecidableEq, Repr

namespace Registry

def empty : Registry := ⟨[]⟩

/-- The number of a key that is registered. -/
def find? (r : Registry) (key : Key) : Option Nat := r.keys.idxOf? key

/-- The number of a key, which is registered if it is new. -/
def resolve (r : Registry) (key : Key) : Nat × Registry :=
  match r.find? key with
  | some site => (site, r)
  | none => (r.keys.length, ⟨r.keys ++ [key]⟩)

def key? (r : Registry) (site : Nat) : Option Key := r.keys[site]?

/-- The key of a site as text; the number itself if the site is unknown. -/
def label (r : Registry) (site : Nat) : String :=
  match r.key? site with
  | some key => key.label
  | none => "#" ++ toString site

def size (r : Registry) : Nat := r.keys.length

end Registry
end Trellis
