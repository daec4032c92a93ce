import Trellis.Engine.Basic
import Trellis.Engine.Diagnostic

/-!
# Actions

An action runs on an engine. It ends with a value or with a fault, and in both cases leaves an engine and
the diagnostics it gave, or it does not end because code is nested deeper than it may be.
-/
namespace Trellis

inductive Outcome (α : Type) where
  | done (value : α) (engine : Engine) (journal : List Diagnostic)
  | failed (fault : Fault) (engine : Engine) (journal : List Diagnostic)
  | tooDeep
deriving Repr

namespace Outcome

variable {α : Type}

/-- An outcome with earlier diagnostics before its own. -/
def after (earlier : List Diagnostic) : Outcome α → Outcome α
  | .done a e journal => .done a e (earlier ++ journal)
  | .failed fault e journal => .failed fault e (earlier ++ journal)
  | .tooDeep => .tooDeep

def mapEngine (f : Engine → Engine) : Outcome α → Outcome α
  | .done a e journal => .done a (f e) journal
  | .failed fault e journal => .failed fault (f e) journal
  | .tooDeep => .tooDeep

end Outcome

def Action (α : Type) := Engine → Outcome α

namespace Action

variable {α β : Type}

protected def pure (a : α) : Action α := fun e => .done a e []

protected def bind (x : Action α) (f : α → Action β) : Action β := fun e =>
  match x e with
  | .done a e journal => (f a e).after journal
  | .failed fault e journal => .failed fault e journal
  | .tooDeep => .tooDeep

instance : Monad Action where
  pure := Action.pure
  bind := Action.bind

def fail (fault : Fault) : Action α := fun e => .failed fault e []

def tooDeep : Action α := fun _ => .tooDeep

def get (f : Engine → α) : Action α := fun e => .done (f e) e []

def modify (f : Engine → Engine) : Action Unit := fun e => .done () (f e) []

/-- Reads the clock. -/
def time : Action Nat := fun e => .done e.timed.now e.timed []

def ofExcept : Except Fault α → Action α
  | .ok a => pure a
  | .error fault => fail fault

/-- Gives a diagnostic, unless the engine is trusted. -/
def log (d : Diagnostic) : Action Unit := fun e => .done () e (if e.config.trusted then [] else [d])

/-- Ends with the fault of an action as a value. -/
def attempt (x : Action α) : Action (Except Fault α) := fun e =>
  match x e with
  | .done a e journal => .done (.ok a) e journal
  | .failed fault e journal => .done (.error fault) e journal
  | .tooDeep => .tooDeep

/-- Runs an action on a changed engine and changes it again when the action ends, with a value or with a fault.
The second change also sees the engine from before the first. -/
def bracket (enter : Engine → Engine) (leave : Engine → Engine → Engine) (x : Action α) : Action α :=
  fun e => (x (enter e)).mapEngine (leave e)

/-- Changes the engine only when an action ends with a fault. -/
def onFault (f : Engine → Engine) (x : Action α) : Action α := fun e =>
  match x e with
  | .failed fault e journal => .failed fault (f e) journal
  | outcome => outcome

/-- An operation on the operand stack, which may change the stack and fail. -/
def onStack (f : Operands → Operands.Result α) : Action α := fun e =>
  match f e.stack with
  | (.ok a, stack) => .done a { e with stack } []
  | (.error fault, stack) => .failed fault { e with stack } []

/-- An operation on the tree that makes something. -/
def make (f : Tree → α × Tree) : Action α := fun e =>
  let (a, tree) := f e.tree
  .done a { e with tree } []

/-- An operation on the tree that may fail. -/
def onTree (f : Tree → Except Tree.Fault Tree) : Action Unit := fun e =>
  match f e.tree with
  | .ok tree => .done () { e with tree } []
  | .error fault => .failed (.tree fault) e []

/-- What an operation reads off the tree. -/
def ofTree (f : Tree → Except Tree.Fault α) : Action α := fun e =>
  match f e.tree with
  | .ok a => .done a e []
  | .error fault => .failed (.tree fault) e []

/-- The number of a key, which is registered if it is new. -/
def resolve (key : Key) : Action Nat := fun e =>
  let (site, sites) := e.sites.resolve key
  .done site { e with sites } []

/-- The key of a site as text. -/
def label (site : Nat) : Action String := get (·.sites.label site)

end Action
end Trellis
