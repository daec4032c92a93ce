/-!
# Clocks

Times are nanoseconds since the engine was made. A clock is read over and over again and never goes back, but
two readings need not agree: time may pass before each of them.
-/
namespace Trellis

structure Clock where
  now : Nat
  /-- How much time will pass before each of the next readings. Before later ones none does. -/
  lapses : List Nat
deriving DecidableEq, Repr

namespace Clock

def new : Clock := ⟨0, []⟩

/-- The clock when it is read, which shows the time of the reading. -/
def read (c : Clock) : Clock := ⟨c.now + c.lapses.headD 0, c.lapses.tail⟩

def advance (c : Clock) (time : Nat) : Clock := { c with now := c.now + time }

end Clock
end Trellis
