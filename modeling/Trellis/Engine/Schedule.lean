/-!
# Scheduling of re-renders

Times are nanoseconds on one clock. The storm guard counts the requests of each window of time; windows
stay aligned to the first one however late the guard is told the time. The schedule has at most one
deadline: requests that come while one is set share it.
-/
namespace Trellis

structure StormGuard where
  quota : Nat
  window : Nat
  start : Nat
  requested : Nat
deriving DecidableEq, Repr

namespace StormGuard

/-- The count stops at this number. -/
def ceiling : Nat := UInt32.size - 1

def new (quota window now : Nat) : StormGuard := ⟨quota, window, now, 0⟩

/-- Moves to the window that contains `now` and starts its count at zero. A window of length zero never ends.
The time since the window's start is reduced to 64 bits. -/
def tick (g : StormGuard) (now : Nat) : StormGuard :=
  let elapsed := now - g.start
  if g.window = 0 ∨ elapsed < g.window then g
  else { g with start := now - elapsed % g.window % UInt64.size, requested := 0 }

def record (g : StormGuard) : StormGuard := { g with requested := min (g.requested + 1) ceiling }

/-- Records a number of requests at once. -/
def recordMany (g : StormGuard) (n : Nat) : StormGuard := { g with requested := min (g.requested + n) ceiling }

theorem recordMany_succ (g : StormGuard) (n : Nat) : g.recordMany (n + 1) = (g.recordMany n).record := by
  simp only [recordMany, record, StormGuard.mk.injEq, true_and]
  omega

def exceeded (g : StormGuard) : Bool := g.quota < g.requested

end StormGuard

inductive Phase where
  | idle
  | rendering
  /-- The last render or handler failed. -/
  | failed
deriving DecidableEq, Repr

def Phase.name : Phase → String
  | .idle => "Idle"
  | .rendering => "Rendering"
  | .failed => "Error"

structure Schedule where
  phase : Phase
  /-- Whether the render in progress has been asked for another one. -/
  pending : Bool
  deadline : Option Nat
  storm : StormGuard
  renders : Nat
deriving DecidableEq, Repr

namespace Schedule

def new (storm : StormGuard) : Schedule := ⟨.idle, false, none, storm, 0⟩

/-- Sets the deadline unless there is one. -/
def arm (s : Schedule) (time : Nat) : Schedule :=
  match s.deadline with
  | some _ => s
  | none => { s with deadline := some time }

/-- Whether the deadline has come. -/
def isDue (s : Schedule) (now : Nat) : Bool :=
  match s.deadline with
  | some time => time ≤ now
  | none => false

end Schedule
end Trellis
