import Trellis.Engine.Clock
import Trellis.Engine.Frame
import Trellis.Engine.Registry
import Trellis.Engine.Schedule
import Trellis.Operand.Stack
import Trellis.Tree.Input

/-!
# The engine's state

Everything that running code can change: the output tree, the operand stack, the frames, the registry of
sites, the listeners and the schedule, and the clock that it reads.
-/
namespace Trellis

open Tree (Handle)

structure Config where
  /-- How many re-renders renderable code may ask for in one window. -/
  quota : Nat := 5
  window : Nat := 1000000000
  /-- How long a requested re-render waits. -/
  settle : Nat := 100000000
  /-- Without diagnostics and without the limit on re-renders. -/
  trusted : Bool := false
deriving DecidableEq, Repr

/-- The mode and the section of the code that is running. -/
structure Context where
  mode : Mode
  code : Section
deriving DecidableEq, Repr

/-- A handler that code has bound to an event on a node. -/
structure Listener where
  site : Nat
  node : Handle
  event : String
  handler : String
deriving DecidableEq, Repr

/-- The failure that the error display shows. -/
structure Report where
  kind : String
  message : String
deriving DecidableEq, Repr

namespace Report

def ofFault (fault : Fault) : Report := ⟨fault.kind, fault.message⟩

def text (r : Report) : String := r.kind ++ ": " ++ r.message

end Report

structure Engine where
  config : Config
  clock : Clock
  tree : Tree
  /-- The node that the program renders into. -/
  mount : Handle
  sites : Registry
  resources : Resources
  sections : Sections
  stack : Operands
  /-- Innermost first. -/
  frames : Frames Handle
  context : Context
  /-- The node that code reads values from. -/
  focus : Option Handle
  /-- In the order in which they were bound. -/
  listeners : List Listener
  schedule : Schedule
  report : Option Report
deriving Repr

namespace Engine

/-- The number of the root key, which is registered first. -/
def rootSite : Nat := 0

/-- The frame of the mounted node. -/
def rootFrame (mount : Handle) : Frame Handle := ⟨rootSite, .root, mount, .root⟩

def new (config : Config) : Engine where
  config
  clock := .new
  tree := .new
  mount := .root
  sites := ⟨[.root]⟩
  resources := .empty
  sections := .empty
  stack := []
  frames := [rootFrame .root]
  context := ⟨.any, .root⟩
  focus := none
  listeners := []
  schedule := .new (.new config.quota config.window 0)
  report := none

/-- The time that the clock shows. -/
abbrev now (e : Engine) : Nat := e.clock.now

/-- The engine when it has read the clock. -/
def timed (e : Engine) : Engine := { e with clock := e.clock.read }

/-- Lets time pass. -/
def advance (e : Engine) (time : Nat) : Engine := { e with clock := e.clock.advance time }

/-- Has time pass before each of the next readings of the clock. -/
def lapse (e : Engine) (times : List Nat) : Engine := { e with clock := { e.clock with lapses := times } }

def setTrusted (e : Engine) (trusted : Bool) : Engine := { e with config := { e.config with trusted } }

end Engine
end Trellis
