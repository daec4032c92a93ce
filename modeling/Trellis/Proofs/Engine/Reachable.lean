import Trellis.Proofs.Engine.Confined

/-!
# The engines a host can reach

A host loads programs, edits the tree, mounts, lets time pass, delivers events, and may also run code and single
instructions by itself. `Engine.Reachable` holds of every engine that a sequence of such requests leads to, whatever
handles they name and whether they fail or not. Between two requests an engine is at rest: the tree is sound, the
only frame is the one of the mounted node, and no code is running.
-/
namespace Trellis

open Tree (Handle Edit)

/-- What a host can ask of an engine, apart from questions that change nothing. -/
inductive Request where
  | load (p : Program)
  | define (d : Definition)
  | strings (entries : List (Int64 × String))
  | constants (entries : List (Int64 × Binary64))
  | trust (on : Bool)
  | advance (time : Nat)
  | lapse (times : List Nat)
  | edit (x : Edit)
  | focus (node : Option Handle)
  | register (key : Key)
  | boot (mount : Handle)
  | render
  | poll
  | dispatch (target : Handle) (event : String)
  | execute (code : List Instruction)
  | container (site : Nat) (enclosure : Enclosure) (code : List Instruction)
  | conditional (site : Nat) (code : List Instruction)
  | perform (site : Nat) (operation : Operation)
  | push (site : Nat) (v : Value)
  | value (site : Nat) (raw : Bool) (content : Value)

open Action in
/-- Code that a request runs may be nested fewer than `n` deep. -/
def Request.run (n : Nat) : Request → Action Unit
  | .load p => loadProgram p
  | .define d => Action.define (.ofDefinition d)
  | .strings entries => loadStrings entries
  | .constants entries => loadConstants entries
  | .trust on => modify (·.setTrusted on)
  | .advance time => modify (·.advance time)
  | .lapse times => modify (·.lapse times)
  | .edit x => modify fun e => { e with tree := e.tree.edit x }
  | .focus node => modify fun e => { e with focus := node }
  | .register key => do let _ ← resolve key
  | .boot mount => Action.boot n mount
  | .render => Action.render n
  | .poll => do let _ ← Action.poll n
  | .dispatch target event => do let _ ← Action.dispatch n target event
  | .execute code => Action.execute n code
  | .container site enclosure code => Action.container site enclosure (Action.execute n code)
  | .conditional site code => Action.conditional site (Action.execute n code)
  | .perform site operation => Action.perform (Action.execute n) site operation
  | .push site v => Action.push site v
  | .value site raw content => Action.value site raw content

/-- The engine that is left, if the action ends. -/
def Outcome.engine? {α : Type} : Outcome α → Option Engine
  | .done _ e _ => some e
  | .failed _ e _ => some e
  | .tooDeep => none

theorem Outcome.Leaves.engine {α : Type} {P : Engine → Prop} {o : Outcome α} {e : Engine} (ho : o.Leaves P)
    (he : o.engine? = some e) : P e := by
  cases o with
  | done a e' journal => cases he; exact ho
  | failed fault e' journal => cases he; exact ho
  | tooDeep => cases he

namespace Engine

inductive Reachable : Engine → Prop
  | new (config : Config) : Reachable (.new config)
  | request {e e' : Engine} (n : Nat) (r : Request) (he : Reachable e) (hr : (r.run n e).engine? = some e') :
    Reachable e'

/-- One request after another. -/
theorem Reachable.requests {e e' : Engine} (he : e.Reachable) (n : Nat) {rs : List Request}
    (hr : rs.foldlM (fun e r => (r.run n e).engine?) e = some e') : e'.Reachable := by
  induction rs generalizing e with
  | nil => cases hr; exact he
  | cons r rs ih =>
    obtain ⟨e₁, hr₁, hrs⟩ := Option.bind_eq_some_iff.1 hr
    exact ih (he.request n r hr₁) hrs

structure AtRest (e : Engine) : Prop where
  sound : e.tree.Sound
  frames : e.frames = [rootFrame e.mount]
  context : e.context = ⟨.any, .root⟩

end Engine

namespace Action

variable {α : Type}

/-- Code that starts on an engine with a sound tree leaves one with a sound tree. -/
structure Steady (e e' : Engine) : Prop extends Confined e e' where
  sound : e.tree.Sound → e'.tree.Sound

theorem stable_steady : Stable Steady where
  refl e := ⟨.refl e, id⟩
  trans hab hbc := ⟨hab.toConfined.trans hbc.toConfined, fun h => hbc.sound (hab.sound h)⟩
  stack hf e := ⟨stable_confined.stack hf e, id⟩
  tree e x := ⟨stable_confined.tree e x, fun h => h.edit x⟩
  site e key := ⟨stable_confined.site e key, id⟩
  listener e l := ⟨stable_confined.listener e l, id⟩
  time e := ⟨stable_confined.time e, id⟩
  arm e time := ⟨stable_confined.arm e time, id⟩
  count e time := ⟨stable_confined.count e time, id⟩
  pending e := ⟨stable_confined.pending e, id⟩
  frame frame h := ⟨stable_confined.frame frame h.toConfined, h.sound⟩
  focus focus h := ⟨stable_confined.focus focus h.toConfined, h.sound⟩
  context context h := ⟨stable_confined.context context h.toConfined, h.sound⟩

namespace Chain

variable {R : Engine → Engine → Prop}

theorem define (hR : Chain R) (hs : ∀ e sections, R e { e with sections }) (s : Section) : Keeps R (define s) := by
  refine hR.bind (hR.get _) fun replaced => ?_
  refine hR.bind (fun e => hs e _) fun _ => ?_
  exact .ite (hR.log _) (hR.pure ())

/-- Loading a program changes the configuration, the tables and the sections. -/
theorem loadProgram (hR : Chain R) (hs : ∀ e sections, R e { e with sections })
    (hr : ∀ e resources, R e { e with resources }) (hc : ∀ e config, R e { e with config }) (p : Program) :
    Keeps R (loadProgram p) := by
  have hall : ∀ ss, Keeps R (defineAll ss) := by
    intro ss
    induction ss with
    | nil => exact hR.pure ()
    | cons s ss ih => exact hR.bind (hR.define hs s) fun _ => ih
  have hrest : Keeps R (do
      loadStrings p.strings
      loadConstants p.constants
      defineAll (p.sections.map .ofDefinition)
      let e ← Action.get id
      Action.log (.programLoaded e.sections.size e.resources.strings.size e.resources.constants.size)) := by
    refine hR.bind (fun e => hr e _) fun _ => ?_
    refine hR.bind (fun e => hr e _) fun _ => ?_
    refine hR.bind (hall _) fun _ => ?_
    exact hR.bind (hR.get _) fun _ => hR.log _
  exact .ite (hR.bind (fun e => hc e _) fun _ => hrest) hrest

end Chain

theorem Keeps.attempt {R : Engine → Engine → Prop} {x : Action α} (hx : Keeps R x) : Keeps R (attempt x) := by
  intro e
  have hxe := hx e
  unfold Action.attempt
  cases hr : x e with
  | done a e' journal =>
    rw [hr] at hxe
    exact hxe
  | failed fault e' journal =>
    rw [hr] at hxe
    exact hxe
  | tooDeep => trivial

/-! ### Requests -/

/-- The relation allows every change that mounting, rendering and delivering events make by themselves. The code that
they run keeps a stable relation from which this one follows. -/
structure Staged (S R : Engine → Engine → Prop) : Prop extends Chain R where
  stable : Stable S
  of : ∀ {e e'}, S e e' → R e e'
  clock : ∀ e clock, R e { e with clock }
  schedule : ∀ e schedule, R e { e with schedule }
  report : ∀ e report, R e { e with report }
  mount : ∀ e mount, R e { e with frames := [Engine.rootFrame mount], mount }
  empty : ∀ e, R e { e with stack := [], frames := e.frames.truncate 1, listeners := [], focus := none }
  stop : ∀ e schedule, R e { e with frames := e.frames.truncate 1, focus := none, listeners := [], schedule }

namespace Staged

variable {S R : Engine → Engine → Prop}

theorem keeps (hR : Staged S R) {x : Action α} (hx : Keeps S x) : Keeps R x := fun e => (hx e).mono fun _ => hR.of

theorem onTree (hR : Staged S R) {f : Tree → Except Tree.Fault Tree}
    (hf : ∀ t : Tree, ∃ x : Edit, t.edit x = t.after (f t)) : Keeps R (onTree f) := hR.keeps (hR.stable.onTree hf)

theorem invoke (hR : Staged S R) (n site : Nat) (label : String) (mode : Mode) :
    Keeps R (invoke n site label mode) := hR.keeps (hR.stable.closed.invoke n site label mode)

/-- What the relation allows of code it allows of a single operation on the stack. -/
theorem operative (hR : Staged S R) : Operative fun x => Keeps R x where
  pure := hR.pure
  bind := hR.bind
  get _ := hR.get _
  log _ := hR.log _
  tell g _ _ := hR.bind (hR.get g) fun _ => hR.log _
  raise _ := hR.fail _
  onStack hf := hR.keeps (hR.stable.onStack hf)

theorem recover (hR : Staged S R) (fault : Fault) : Keeps R (recover fault) := by
  have hshow : Keeps S (showError (.ofFault fault)) :=
    hR.stable.woven.showError (fun node => hR.stable.onTree fun _ => ⟨.clear node, rfl⟩) _
  exact hR.operative.recover (fun e => hR.stop e _) (hR.keeps hshow).attempt fun e => hR.report e _

theorem renderPass (hR : Staged S R) (n : Nat) : Keeps R (renderPass n) := by
  refine hR.bind (hR.get _) fun mount => ?_
  refine hR.bind (hR.onTree fun _ => ⟨.clear mount, rfl⟩) fun _ => ?_
  refine hR.bind (hR.onTree fun _ => ⟨.removeAttribute mount _, rfl⟩) fun _ => ?_
  refine hR.bind (hR.onTree fun _ => ⟨.removeAttribute mount _, rfl⟩) fun _ => ?_
  refine hR.bind hR.empty fun _ => ?_
  refine hR.bind (hR.invoke n _ _ _) fun _ => ?_
  refine hR.bind (hR.get _) fun e => ?_
  apply Keeps.ite
  · exact hR.bind (fun e => hR.schedule e _) fun _ => hR.fail _
  · exact hR.pure ()

theorem time (hR : Staged S R) : Keeps R time := fun e => hR.clock e _

theorem rearm (hR : Staged S R) : Keeps R rearm := by
  refine hR.bind (hR.get _) fun pending => .ite ?_ (hR.pure ())
  exact hR.bind hR.time fun now e => hR.schedule e _

theorem finish (hR : Staged S R) (started : Nat) : Keeps R (finish started) :=
  hR.bind hR.rearm fun _ => hR.bind hR.time fun _ => hR.bind (hR.get _) fun _ => hR.log _

theorem render (hR : Staged S R) (n : Nat) : Keeps R (render n) := by
  refine hR.bind hR.time fun started => ?_
  refine hR.bind (fun e => hR.schedule e _) fun _ => ?_
  refine hR.bind (hR.renderPass n).attempt fun passed => ?_
  cases passed with
  | ok =>
    refine hR.bind (fun e => ?_) fun _ => hR.finish started
    exact hR.trans (hR.schedule e { e.schedule with phase := .idle }) (hR.report _ none)
  | error fault => exact hR.bind (hR.recover fault) fun _ => hR.finish started

theorem boot (hR : Staged S R) (n : Nat) (mount : Handle) : Keeps R (boot n mount) := by
  refine hR.bind (fun e => hR.mount e mount) fun _ => ?_
  refine hR.bind (hR.log _) fun _ => ?_
  refine hR.bind (hR.get _) fun defined => ?_
  refine .ite (hR.bind (hR.invoke n _ _ _).attempt ?_) (hR.bind (hR.pure _) ?_)
  all_goals
    intro started
    cases started with
    | ok => exact hR.render n
    | error fault => exact hR.recover fault

theorem poll (hR : Staged S R) (n : Nat) : Keeps R (poll n) := by
  refine hR.bind hR.time fun now => ?_
  refine hR.bind (fun e => hR.schedule e _) fun _ => ?_
  refine hR.bind (hR.get _) fun e => ?_
  apply Keeps.ite
  · refine hR.bind (fun e => hR.schedule e _) fun _ => ?_
    exact hR.bind (hR.render n) fun _ => hR.pure _
  · exact hR.pure _

theorem deliver (hR : Staged S R) (n : Nat) (target : Handle) (ls : List Listener) :
    Keeps R (deliver n target ls) := by
  induction ls with
  | nil => exact hR.pure _
  | cons l ls ih =>
    have hrun := hR.stable.withFocus target (hR.stable.closed.invoke n l.site l.handler .callable)
    refine hR.bind (hR.keeps hrun).attempt fun ended => ?_
    cases ended with
    | ok => exact hR.bind ih fun _ => hR.pure _
    | error fault => exact hR.bind (hR.recover fault) fun _ => hR.pure _

theorem dispatch (hR : Staged S R) (n : Nat) (target : Handle) (event : String) :
    Keeps R (dispatch n target event) := by
  refine hR.bind (hR.get _) fun e => ?_
  exact hR.bind (hR.log _) fun _ => hR.deliver n target _

end Staged

/-- The relation allows every change that a host's requests make by themselves. The code that they run keeps a stable
relation from which this one follows. -/
structure Hosted (S R : Engine → Engine → Prop) : Prop extends Chain R where
  stable : Stable S
  of : ∀ {e e'}, S e e' → R e e'
  config : ∀ e config, R e { e with config }
  clock : ∀ e clock, R e { e with clock }
  resources : ∀ e resources, R e { e with resources }
  sections : ∀ e sections, R e { e with sections }
  schedule : ∀ e schedule, R e { e with schedule }
  report : ∀ e report, R e { e with report }
  focus : ∀ e focus, R e { e with focus }
  mount : ∀ e mount, R e { e with frames := [Engine.rootFrame mount], mount }
  empty : ∀ e, R e { e with stack := [], frames := e.frames.truncate 1, listeners := [], focus := none }
  stop : ∀ e schedule, R e { e with frames := e.frames.truncate 1, focus := none, listeners := [], schedule }

namespace Hosted

variable {S R : Engine → Engine → Prop}

theorem staged (hR : Hosted S R) : Staged S R :=
  ⟨hR.toChain, hR.stable, hR.of, hR.clock, hR.schedule, hR.report, hR.mount, hR.empty, hR.stop⟩

theorem request (hR : Hosted S R) (n : Nat) (r : Request) : Keeps R (r.run n) := by
  have hcode := hR.stable.closed.execute n
  cases r with
  | load p => exact hR.toChain.loadProgram hR.sections hR.resources hR.config p
  | define d => exact hR.toChain.define hR.sections _
  | strings | constants => exact fun e => hR.resources e _
  | trust on => exact fun e => hR.config e _
  | advance | lapse => exact fun e => hR.clock e _
  | edit x => exact fun e => hR.of (hR.stable.tree e x)
  | focus node => exact fun e => hR.focus e node
  | register key =>
    have hkey : Keeps S (resolve key) := fun e => hR.stable.site e key
    exact hR.bind (hR.staged.keeps hkey) fun _ => hR.pure ()
  | boot mount => exact hR.staged.boot n mount
  | render => exact hR.staged.render n
  | poll => exact hR.bind (hR.staged.poll n) fun _ => hR.pure ()
  | dispatch target event => exact hR.bind (hR.staged.dispatch n target event) fun _ => hR.pure ()
  | execute code => exact hR.staged.keeps (hcode code)
  | container site enclosure code => exact hR.staged.keeps (hR.stable.woven.container site enclosure (hcode code))
  | conditional site code => exact hR.staged.keeps (hR.stable.woven.conditional site (hcode code))
  | perform site operation => exact hR.staged.keeps (hR.stable.closed.perform hcode site operation)
  | push site v => exact hR.staged.keeps (hR.stable.woven.push site v)
  | value site raw content => exact hR.staged.keeps (hR.stable.woven.value site raw content)

end Hosted

/-- An engine that was at rest is at rest again. -/
def Rests (e e' : Engine) : Prop := e.AtRest → e'.AtRest

/-- Mounting puts an engine at rest on the new node, and the frames are cut back to the one that is left at rest. -/
theorem hosted_rests : Hosted Steady Rests where
  refl _ := id
  trans hab hbc h := hbc (hab h)
  stable := stable_steady
  of h he := ⟨h.sound he.sound, by rw [h.frames, h.mount, he.frames], h.context.trans he.context⟩
  config _ _ h := ⟨h.sound, h.frames, h.context⟩
  clock _ _ h := ⟨h.sound, h.frames, h.context⟩
  resources _ _ h := ⟨h.sound, h.frames, h.context⟩
  sections _ _ h := ⟨h.sound, h.frames, h.context⟩
  schedule _ _ h := ⟨h.sound, h.frames, h.context⟩
  report _ _ h := ⟨h.sound, h.frames, h.context⟩
  focus _ _ h := ⟨h.sound, h.frames, h.context⟩
  mount _ _ h := ⟨h.sound, rfl, h.context⟩
  empty _ h := ⟨h.sound, by rw [h.frames]; rfl, h.context⟩
  stop _ _ h := ⟨h.sound, by rw [h.frames]; rfl, h.context⟩

theorem rests_request (n : Nat) (r : Request) : Keeps Rests (r.run n) := hosted_rests.request n r

end Action

namespace Engine

theorem atRest_new (config : Config) : (new config).AtRest := ⟨Tree.sound_new, rfl, rfl⟩

/-- Every engine that a host can reach is at rest. -/
theorem Reachable.atRest {e : Engine} (he : e.Reachable) : e.AtRest := by
  induction he with
  | new config => exact atRest_new config
  | request n r _ hr ih => exact (Action.rests_request n r _).engine hr ih

end Engine
end Trellis
