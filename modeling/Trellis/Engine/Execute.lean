import Trellis.Engine.Output

/-!
# Running code

`execute n` runs code whose blocks and calls are nested fewer than `n` deep. A single instruction is
explained by what running a block or a section's body means, so that `execute` is the only recursion.
-/
namespace Trellis.Action

/-! ### Operands -/

def push (site : Nat) (v : Value) : Action Unit := do
  log (.push (← label site) v.shown)
  onStack (Operands.push v)

def copy (site : Nat) : Action Unit := do
  onStack Operands.copy
  log (.copy (← label site) (← get (·.stack.length)))

def swap (site a b : Nat) : Action Unit := do
  onStack (Operands.swap a b)
  log (.swap (← label site) a b)

def peek (site offset : Nat) : Action Value := do
  let v ← ofExcept ((← get (·.stack)).peek offset)
  log (.peek (← label site) offset v.shown)
  return v

/-- An unknown operator fails before the stack is touched. -/
def calculate (site : Nat) (symbol : String) : Action Value := do
  match Operator.ofSymbol? symbol with
  | none => fail (.unknownOperator symbol)
  | some operator =>
    let v ← onStack (Operands.calculate operator)
    log (.calculate (← label site) operator.symbol v.shown)
    return v

def compare (site : Nat) : Action Bool := do
  let equal ← onStack Operands.compare
  log (.compare (← label site) equal)
  return equal

/-- The value that a source names. A constant out of bounds is refused only when it is pushed. -/
def load (site : Nat) : Source → Action Value
  | .string key => do return .text (← ofExcept ((← get (·.resources)).string key))
  | .constant key => do return .number (← ofExcept ((← get (·.resources)).constant key))
  | .stack offset => peek site offset.toNat

/-- Pushes the value of the focused node. -/
def read (site : Nat) : Action Unit := do
  match ← get (·.focus) with
  | none => fail .noFocus
  | some node =>
    match ← ofTree (·.read node) with
    | .text s => push site (.text s)
    | .toggle on => push site (.ofBool on)

/-! ### Re-renders -/

/-- Asks for another render. Code that is not part of a render pass sets the deadline; a render pass counts the
request, and sets the deadline when it ends. -/
def rerender (site : Nat) : Action Unit := do
  let now ← time
  let e ← get id
  if e.schedule.phase ≠ .rendering ∨ e.context.mode = .callable then
    modify fun e => { e with schedule := e.schedule.arm (now + e.config.settle) }
    log (.rerender (← label site))
  else
    let storm := (e.schedule.storm.tick now).record
    modify fun e => { e with schedule := { e.schedule with storm } }
    log (.rerenderCounted (← label site) storm.requested storm.quota)
  modify fun e => { e with schedule := { e.schedule with pending := true } }

/-! ### Calls -/

/-- Whether a section may be entered in a mode. -/
def discipline (callee : Section) (mode : Mode) : Action Unit := do
  let allowed ←
    match mode with
    | .any => pure true
    | .callable => pure !callee.renderable
    | .renderable =>
      match ← get (·.frames.head?) with
      | some frame => pure (frame.owner.renderable = callee.renderable)
      | none => fail .noFrame
  if !allowed then fail (.callDiscipline callee.label mode)

/-- Runs code in a context of its own. -/
def withContext (context : Context) (body : Action Unit) : Action Unit :=
  bracket (fun e => { e with context }) (fun before e => { e with context := before.context }) body

/-- Enters a section, given what running its body means. -/
def call (run : List Instruction → Action Unit) (site : Nat) (label : String) (mode : Mode) : Action Unit := do
  let callee ← ofExcept ((← get (·.sections)).find label)
  discipline callee mode
  log (.call (← Action.label site) label mode)
  match callee.body with
  | none => pure ()
  | some body => withContext ⟨mode, callee⟩ (run body)

/-! ### Instructions -/

def perform (run : List Instruction → Action Unit) (site : Nat) : Operation → Action Unit
  | .element tag => leaf site tag
  | .value raw source => do value site raw (← load site source)
  | .call label mode => call run site label mode
  | .render => rerender site
  | .listen event handler => listen site event handler
  | .push source => do push site (← load site source)
  | .copy => copy site
  | .pop => do let _ ← pop site
  | .swap a b => swap site a.toNat b.toNat
  | .compare => do let _ ← compare site
  | .read => read site
  | .calculate symbol => do let _ ← calculate site symbol

/-- Runs one instruction, given what running a block or a section's body means. -/
def step (run : List Instruction → Action Unit) (i : Instruction) : Action Unit := do
  let site ← resolve i.id
  match i with
  | .container _ enclosure body => container site enclosure (run body)
  | .conditional _ body => conditional site (run body)
  | .single _ operation => perform run site operation

/-- Runs instructions in order up to the first fault. -/
def sequence (one : Instruction → Action Unit) : List Instruction → Action Unit
  | [] => pure ()
  | i :: is => do
    one i
    sequence one is

def execute : Nat → List Instruction → Action Unit
  | 0, _ => tooDeep
  | n + 1, code => sequence (step (execute n)) code

/-- Enters a section whose code is nested fewer than `n` deep. -/
def invoke (n : Nat) (site : Nat) (label : String) (mode : Mode) : Action Unit := call (execute n) site label mode

end Trellis.Action
