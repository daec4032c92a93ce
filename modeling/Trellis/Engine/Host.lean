import Trellis.Engine.Execute

/-!
# What a host can ask of an engine

A host loads a program, mounts it, lets time pass and delivers events. No fault escapes: a render or a
handler that fails leaves the error display on the mounted node.
-/
namespace Trellis.Action

open Tree (Handle)

/-! ### Loading -/

def define (s : Section) : Action Unit := do
  let replaced ← get (·.sections.contains s.label)
  modify fun e => { e with sections := e.sections.define s }
  if replaced then log (.sectionRedefined s.label)

def defineAll : List Section → Action Unit
  | [] => pure ()
  | s :: rest => do
    define s
    defineAll rest

def loadStrings (entries : List (Int64 × String)) : Action Unit :=
  modify fun e => { e with resources := { e.resources with strings := .ofList entries } }

def loadConstants (entries : List (Int64 × Binary64)) : Action Unit :=
  modify fun e => { e with resources := { e.resources with constants := .ofList entries } }

/-- Replaces the tables and adds the sections. A trusted program makes the engine trusted. -/
def loadProgram (p : Program) : Action Unit := do
  if p.trusted then modify (·.setTrusted true)
  loadStrings p.strings
  loadConstants p.constants
  defineAll (p.sections.map .ofDefinition)
  let e ← get id
  log (.programLoaded e.sections.size e.resources.strings.size e.resources.constants.size)

/-! ### Failures -/

/-- The class of the mounted node while it shows an error. -/
def errorClass : String := "arbor-error"

def showError (report : Report) : Action Unit := do
  let mount ← get (·.mount)
  onTree (·.clear mount)
  onTree (·.setAttribute mount "style" "color: red")
  onTree (·.setAttribute mount "class" errorClass)
  let heading ← make (·.createElement "h1")
  onTree (·.setText heading "An error occurred")
  onTree (·.append mount heading)
  let detail ← make (·.createElement "pre")
  onTree (·.setText detail report.text)
  onTree (·.append mount detail)

/-- Gives up what was running and shows the error display. -/
def recover (fault : Fault) : Action Unit := do
  let report := Report.ofFault fault
  log (.failure report.kind report.message)
  modify fun e =>
    { e with
      frames := e.frames.truncate 1
      focus := none
      listeners := []
      schedule := { e.schedule with phase := .failed } }
  match ← attempt (showError report) with
  | .ok () => pure ()
  | .error shown => log (.displayFailed shown.message)
  modify fun e => { e with report := some report }

/-! ### Rendering -/

/-- Builds the output anew by running the main section. -/
def renderPass (n : Nat) : Action Unit := do
  let mount ← get (·.mount)
  onTree (·.clear mount)
  onTree (·.removeAttribute mount "style")
  onTree (·.removeAttribute mount "class")
  modify fun e => { e with stack := [], frames := e.frames.truncate 1, listeners := [], focus := none }
  invoke n Engine.rootSite mainLabel .renderable
  let e ← get id
  if !e.config.trusted && e.schedule.storm.exceeded then
    modify fun e => { e with schedule := { e.schedule with pending := false } }
    fail (.storm e.schedule.storm.quota)

/-- Sets the deadline if another render has been asked for. -/
def rearm : Action Unit := do
  if ← get (·.schedule.pending) then
    let now ← time
    modify fun e => { e with schedule := e.schedule.arm (now + e.config.settle) }

/-- Grants what has been asked for during a cycle, and tells of the cycle. How long it has taken is told in
microseconds, in 64 bits. -/
def finish (started : Nat) : Action Unit := do
  rearm
  let ended ← time
  let schedule ← get (·.schedule)
  let elapsed := (ended - started) / 1000 % UInt64.size
  log (.renderFinished schedule.renders elapsed schedule.phase schedule.deadline.isSome)

def render (n : Nat) : Action Unit := do
  let started ← time
  modify fun e =>
    { e with schedule := { e.schedule with phase := .rendering, pending := false, renders := e.schedule.renders + 1 } }
  match ← attempt (renderPass n) with
  | .ok () => modify fun e => { e with schedule := { e.schedule with phase := .idle }, report := none }
  | .error fault => recover fault
  finish started

/-- Mounts the program on a node, runs its `init` section if it has one, and renders. A fault in `init` is
shown instead of the first render. -/
def boot (n : Nat) (mount : Handle) : Action Unit := do
  modify fun e => { e with frames := [Engine.rootFrame mount], mount }
  log .boot
  let started ←
    if ← get (·.sections.contains initLabel) then attempt (invoke n Engine.rootSite initLabel .callable)
    else pure (.ok ())
  match started with
  | .ok () => render n
  | .error fault => recover fault

/-- Renders if the deadline has come. Tells whether it did. -/
def poll (n : Nat) : Action Bool := do
  let now ← time
  modify fun e => { e with schedule := { e.schedule with storm := e.schedule.storm.tick now } }
  let e ← get id
  if e.schedule.isDue now then
    modify fun e => { e with schedule := { e.schedule with deadline := none } }
    render n
    return true
  else return false

/-! ### Events -/

/-- Runs handlers in order, with the focus on the target, up to the first fault. The number of those that
started is returned. -/
def deliver (n : Nat) (target : Handle) : List Listener → Action Nat
  | [] => pure 0
  | l :: rest => do
    match ← attempt (withFocus target (invoke n l.site l.handler .callable)) with
    | .ok () => return (← deliver n target rest) + 1
    | .error fault =>
      recover fault
      return 1

/-- The listeners for an event on the nodes of a lineage, node by node. -/
def listenersOn (lineage : List Handle) (event : String) (listeners : List Listener) : List Listener :=
  lineage.flatMap fun node => listeners.filter fun l => l.node = node ∧ l.event = event

/-- Delivers an event to the handlers on its target and then to those on each node that holds it. -/
def dispatch (n : Nat) (target : Handle) (event : String) : Action Nat := do
  let e ← get id
  let matching := listenersOn (e.tree.lineage target) event e.listeners
  log (.dispatch event matching.length)
  deliver n target matching

/-! ### Settling -/

/-- Lets time pass to each deadline and renders there, at most `cycles` times. Tells whether no deadline is
left. -/
def settle (n : Nat) : Nat → Action Bool
  | 0 => do return (← get (·.schedule.deadline)).isNone
  | cycles + 1 => do
    match ← get (·.schedule.deadline) with
    | none => return true
    | some deadline =>
      modify fun e => { e with clock := e.clock.advance (deadline - e.now) }
      let _ ← poll n
      settle n cycles

end Trellis.Action
