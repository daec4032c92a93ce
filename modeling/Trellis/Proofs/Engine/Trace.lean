import Trellis.Proofs.Engine.Growth

/-!
# Notes taken along a run

Not everything that code does can be read off the engine that it leaves: which keys it has resolved, say, or where the
listeners are that it has bound. `Engine.trace` follows running code on the engines that the run goes through and takes
notes, of each key that is resolved and of each single instruction. Which notes these are is left open. What is said of
them is a judgement on an engine, the notes and how the action ends there. A judgement that holds of single instructions
and goes from the code inside an instruction to the instruction holds of all code and its notes.
-/
namespace Trellis

open Tree (Handle)

/-- What is noted along a run. -/
structure Notes (τ : Type) where
  /-- When a key is resolved. -/
  resolved : Key → Nat → List τ
  /-- When a single instruction runs that is not a call. -/
  performed : Nat → Engine → Operation → List τ
  /-- What becomes of the notes taken in a container when its element is closed. -/
  closed : Enclosure → List τ → List τ

/-- The notes that are taken after an action, which are none if the action has failed. -/
def Outcome.next {α τ : Type} (trace : Engine → List τ) : Outcome α → List τ
  | .done _ e _ => trace e
  | .failed .. => []
  | .tooDeep => []

@[simp] theorem Outcome.next_nil {α τ : Type} (o : Outcome α) : o.next (fun _ => ([] : List τ)) = [] := by
  cases o <;> rfl

namespace Engine

variable {τ : Type}

/-- The notes of code that runs on an engine. -/
abbrev Tracer (τ : Type) := List Instruction → Engine → List τ

def callTrace (trace : Tracer τ) (label : String) (mode : Mode) (e : Engine) : List τ :=
  match e.sections.find label with
  | .error _ => []
  | .ok callee =>
    match Action.discipline callee mode e, callee.body with
    | .done .., some body => trace body { e with context := ⟨mode, callee⟩ }
    | _, _ => []

def containerTrace (notes : Notes τ) (trace : Tracer τ) (site : Nat) (enclosure : Enclosure) (body : List Instruction)
    (e : Engine) : List τ :=
  if e.context.plain then trace body e else notes.closed enclosure (trace body (e.opened site enclosure))

def conditionalTrace (trace : Tracer τ) (site : Nat) (body : List Instruction) (e : Engine) : List τ :=
  match e.stack, e.frames.head? with
  | v :: stack, some frame =>
    if v.isTrue then
      trace body { e with stack, frames := ⟨site, e.context.code, frame.target, .conditional⟩ :: e.frames }
    else []
  | _, _ => []

def performTrace (notes : Notes τ) (trace : Tracer τ) (site : Nat) (e : Engine) : Operation → List τ
  | .call label mode => callTrace trace label mode e
  | operation => notes.performed site e operation

/-- An instruction resolves its key before anything else. -/
def stepTrace (notes : Notes τ) (trace : Tracer τ) (e : Engine) (i : Instruction) : List τ :=
  let site := (e.sites.resolve i.id).1
  notes.resolved i.id site ++
    match i with
    | .container _ enclosure body => containerTrace notes trace site enclosure body (e.registered i.id)
    | .conditional _ body => conditionalTrace trace site body (e.registered i.id)
    | .single _ operation => performTrace notes trace site (e.registered i.id) operation

/-- Each instruction takes its notes where the one before it has left the engine, up to the first that fails. -/
def sequenceTrace (one : Instruction → Action Unit) (trace : Engine → Instruction → List τ) : Tracer τ
  | [], _ => []
  | i :: is, e => trace e i ++ (one i e).next (sequenceTrace one trace is)

/-- The notes of `execute n`. -/
def trace (notes : Notes τ) : Nat → Tracer τ
  | 0, _, _ => []
  | n + 1, code, e =>
    sequenceTrace (Action.step (Action.execute n)) (stepTrace notes (trace notes n)) code e

end Engine

namespace Action

open Engine

variable {τ : Type}

/-- The judgement holds of what single instructions note, and of an instruction that runs code if it holds of the code.
What the code does to the engine is known to keep a relation. -/
structure Noting (notes : Notes τ) (R : Engine → Engine → Prop) (J : Engine → List τ → Outcome Unit → Prop) : Prop where
  keeps : Closed R
  tooDeep : ∀ {e ts}, J e ts .tooDeep
  after : ∀ {e ts o} journal, J e ts o → J e ts (o.after journal)
  idle : ∀ e stack, J e [] (.done () { e with stack } [])
  failed : ∀ e fault stack, J e [] (.failed fault { e with stack } [])
  seq : ∀ {e e' ts ts' journal o}, R e e' → J e ts (.done () e' journal) → J e' ts' o →
    J e (ts ++ ts') (o.after journal)
  context : ∀ {e context ts o}, J { e with context } ts o →
    J e ts (o.mapEngine fun e' => { e' with context := e.context })
  frame : ∀ {e stack site frame ts o}, e.frames.head? = some frame →
    J { e with stack, frames := ⟨site, e.context.code, frame.target, .conditional⟩ :: e.frames } ts o →
      J e ts (o.mapEngine fun e' => { e' with frames := e'.frames.tail })
  resolve : ∀ {e key ts o}, J (e.registered key) ts o → J e (notes.resolved key (e.sites.resolve key).1 ++ ts) o
  perform : ∀ {e site operation} run, site < e.sites.keys.length → (∀ label mode, operation ≠ .call label mode) →
    J e (notes.performed site e operation) (perform run site operation e)
  container : ∀ {e site enclosure body ts}, e.context.plain = false → Keeps R body →
    J (e.opened site enclosure) ts (body (e.opened site enclosure)) →
      J e (notes.closed enclosure ts) (container site enclosure body e)

namespace Noting

variable {notes : Notes τ} {R : Engine → Engine → Prop} {J : Engine → List τ → Outcome Unit → Prop}
  {run : List Instruction → Action Unit} {trace : Tracer τ}

theorem call (hJ : Noting notes R J) (hrun : ∀ code e, J e (trace code e) (run code e)) (site : Nat) (label : String)
    (mode : Mode) (e : Engine) : J e (callTrace trace label mode e) (call run site label mode e) := by
  unfold callTrace Action.call
  rw [bind_of_done (x := get _) rfl]
  cases hf : e.sections.find label with
  | error fault => exact hJ.failed e _ e.stack
  | ok callee =>
    rw [bind_of_done (x := ofExcept _) rfl]
    rcases discipline_cases callee mode e with hd | ⟨fault, hd⟩
    · rw [bind_of_done hd, bind_of_done (x := Action.label site) rfl, bind_of_done (x := log _) rfl]
      simp only [hd, Outcome.after_after]
      refine hJ.after _ ?_
      cases callee.body with
      | none => exact hJ.idle e e.stack
      | some body => exact hJ.context (hrun body _)
    · rw [bind_of_failed hd]
      simp only [hd]
      exact hJ.failed e fault e.stack

theorem conditional (hJ : Noting notes R J) (hrun : ∀ code e, J e (trace code e) (run code e)) (site : Nat)
    (body : List Instruction) (e : Engine) :
    J e (conditionalTrace trace site body e) (conditional site (run body) e) := by
  unfold conditionalTrace
  cases hf : e.frames.head? with
  | some frame =>
    obtain ⟨journal, heq⟩ := conditional_eq site (run body) (e := e) (h := frame.target) (by rw [hf]; rfl)
    rw [heq]
    refine hJ.after journal ?_
    cases hs : e.stack with
    | nil => exact hJ.failed e _ []
    | cons v stack =>
      by_cases hv : v.isTrue = true
      · simp only [if_pos hv]
        exact hJ.frame hf (hrun body _)
      · simp only [if_neg hv]
        exact hJ.idle e stack
  | none =>
    -- with nowhere to write to, a conditional fails before its code runs
    unfold Action.conditional
    cases hs : e.stack with
    | nil =>
      have hpop : pop site e = .failed (.underflow .pop) { e with stack := [] } [] :=
        bind_of_failed (by rw [onStack, hs]; rfl)
      rw [bind_of_failed hpop]
      exact hJ.failed e _ []
    | cons v stack =>
      obtain ⟨journal, hpop⟩ := pop_of_cons hs site
      rw [bind_of_done hpop, bind_of_done (x := Action.label site) rfl, bind_of_done (x := log _) rfl]
      simp only [Outcome.after_after]
      refine hJ.after _ ?_
      by_cases hv : v.isTrue = true
      · rw [if_pos hv, bind_of_failed (target_of_none (e := { e with stack }) hf)]
        exact hJ.failed e _ stack
      · rw [if_neg hv]
        exact hJ.idle e stack

theorem block (hJ : Noting notes R J) (hkeeps : ∀ code, Keeps R (run code))
    (hrun : ∀ code e, J e (trace code e) (run code e)) (site : Nat) (enclosure : Enclosure) (body : List Instruction)
    (e : Engine) :
    J e (containerTrace notes trace site enclosure body e) (Action.container site enclosure (run body) e) := by
  unfold containerTrace
  cases hplain : e.context.plain with
  | true =>
    rw [if_pos rfl, container_of_plain hplain]
    exact hrun body e
  | false =>
    rw [if_neg Bool.false_ne_true]
    exact hJ.container hplain (hkeeps body) (hrun body _)

/-- A call has the notes of the code that it runs. -/
theorem single (hJ : Noting notes R J) (hrun : ∀ code e, J e (trace code e) (run code e)) {site : Nat}
    {operation : Operation} {e : Engine}
    (hother : (∀ label mode, operation ≠ .call label mode) →
      J e (notes.performed site e operation) (Action.perform run site operation e)) :
    J e (performTrace notes trace site e operation) (Action.perform run site operation e) := by
  cases operation with
  | call label mode => exact hJ.call hrun site label mode e
  | _ => exact hother fun _ _ h => (by cases h)

/-- An instruction has the notes of its own key, and then those of what it does. -/
theorem step (hJ : Noting notes R J) (hkeeps : ∀ code, Keeps R (run code))
    (hrun : ∀ code e, J e (trace code e) (run code e)) (i : Instruction) (e : Engine) :
    J e (stepTrace notes trace e i) (step run i e) := by
  unfold Action.step stepTrace
  rw [bind_of_done (x := Action.resolve i.id) rfl, Outcome.after_nil]
  apply hJ.resolve
  cases i with
  | container id enclosure body => exact hJ.block hkeeps hrun _ enclosure body (e.registered id)
  | conditional id body => exact hJ.conditional hrun _ body (e.registered id)
  | single id operation => exact hJ.single hrun (hJ.perform run (e.sites.resolve_lt id))

theorem sequence (hJ : Noting notes R J) {one : Instruction → Action Unit} {trace : Engine → Instruction → List τ}
    (hkeeps : ∀ i, Keeps R (one i)) (hone : ∀ i e, J e (trace e i) (one i e)) (code : List Instruction) (e : Engine) :
    J e (sequenceTrace one trace code e) (sequence one code e) := by
  induction code generalizing e with
  | nil => exact hJ.idle e e.stack
  | cons i code ih =>
    have hi := hone i e
    have hk := hkeeps i e
    rw [Action.sequence, sequenceTrace]
    cases ho : one i e with
    | done _ e' journal =>
      rw [ho] at hi hk
      rw [bind_of_done ho]
      exact hJ.seq hk hi (ih e')
    | failed fault e' journal =>
      rw [ho] at hi
      rw [bind_of_failed ho, Outcome.next, List.append_nil]
      exact hi
    | tooDeep =>
      rw [bind_of_tooDeep ho]
      exact hJ.tooDeep

/-- The judgement holds of code of any length and depth and of its notes. -/
theorem execute (hJ : Noting notes R J) (n : Nat) (code : List Instruction) (e : Engine) :
    J e (Engine.trace notes n code e) (execute n code e) := by
  induction n generalizing code e with
  | zero => exact hJ.tooDeep
  | succ n ih =>
    have hkeeps := hJ.keeps.execute n
    exact hJ.sequence (hJ.keeps.step hkeeps) (hJ.step hkeeps ih) code e

theorem invoke (hJ : Noting notes R J) (n site : Nat) (label : String) (mode : Mode) (e : Engine) :
    J e (callTrace (Engine.trace notes n) label mode e) (invoke n site label mode e) :=
  hJ.call (hJ.execute n) site label mode e

end Noting
end Action
end Trellis
