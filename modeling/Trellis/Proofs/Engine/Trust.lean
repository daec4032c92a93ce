import Mathlib.Data.List.Forall2
import Trellis.Proofs.Scheduling.Deadline

/-!
# What trust changes

A trusted engine gives no diagnostics and is never refused a re-render. Nothing else depends on the flag. A host that
makes the same requests of two new engines, of which only one is trusted, hears the same replies and leaves the same
engines step by step, as long as the one that is not trusted has no storm to report. Requests that set the flag are
part of this: they make the two engines the same.
-/
namespace Trellis

open Tree (Handle)

/-! ### What a host hears -/

/-- What a host hears when its request has ended without a fault. -/
inductive Reply where
  | nothing
  | flag (b : Bool)
  | count (n : Nat)
  | value (v : Value)
deriving Repr

open Action in
/-- The request, with what the host hears of it. -/
def Request.reply (n : Nat) : Request → Action Reply
  | .register key => do return .count (← resolve key)
  | .poll => do return .flag (← Action.poll n)
  | .dispatch target event => do return .count (← Action.dispatch n target event)
  | .perform site .pop => do return .value (← pop site)
  | .perform site .compare => do return .flag (← compare site)
  | .perform site (.calculate symbol) => do return .value (← calculate site symbol)
  | r => do
    r.run n
    return .nothing

/-- A request, or the question for a value on the operand stack: of all questions only this one is told of. -/
inductive HostCall where
  | request (r : Request)
  | peek (site offset : Nat)

def HostCall.reply (n : Nat) : HostCall → Action Reply
  | .request r => r.reply n
  | .peek site offset => do return .value (← Action.peek site offset)

/-- How the calls of a host end, one after the other. -/
def transcript (n : Nat) : List HostCall → Engine → List (Outcome Reply)
  | [], _ => []
  | c :: cs, e =>
    c.reply n e ::
      match (c.reply n e).engine? with
      | some e' => transcript n cs e'
      | none => []

namespace Outcome

variable {α β : Type}

@[simp] theorem engine?_after (o : Outcome α) (j : List Diagnostic) : (o.after j).engine? = o.engine? := by
  cases o <;> rfl

/-- The outcome without the value. -/
def forget : Outcome α → Outcome Unit
  | .done _ e j => .done () e j
  | .failed fault e j => .failed fault e j
  | .tooDeep => .tooDeep

theorem forget_unit (o : Outcome Unit) : o.forget = o := by cases o <;> rfl

@[simp] theorem engine?_forget (o : Outcome α) : o.forget.engine? = o.engine? := by cases o <;> rfl

theorem forget_bind_pure (x : Action α) (f : α → β) (e : Engine) :
    ((x >>= fun a => pure (f a)) e).forget = (x e).forget := by
  cases hr : x e with
  | done a e' j =>
    rw [Action.bind_of_done hr]
    exact congrArg (Outcome.done () e') (List.append_nil j)
  | failed fault e' j => rw [Action.bind_of_failed hr]; rfl
  | tooDeep => rw [Action.bind_of_tooDeep hr]; rfl

theorem engine?_bind_pure (x : Action α) (f : α → β) (e : Engine) :
    ((x >>= fun a => pure (f a)) e).engine? = (x e).engine? := by
  rw [← engine?_forget, forget_bind_pure, engine?_forget]

end Outcome

/-- A request does the same whether its reply is heard or not. -/
theorem Request.forget_reply (n : Nat) (r : Request) (e : Engine) : (r.reply n e).forget = r.run n e := by
  have hheard : ∀ {α : Type} (x : Action α) (f : α → Reply),
      ((x >>= fun a => pure (f a)) e).forget = (x >>= fun _ => pure ()) e := fun x f => by
    rw [Outcome.forget_bind_pure, ← Outcome.forget_bind_pure x fun _ => (), Outcome.forget_unit]
  have hunheard : ((r.run n >>= fun _ => pure Reply.nothing) e).forget = r.run n e := by
    rw [Outcome.forget_bind_pure, Outcome.forget_unit]
  cases r with
  | register key => exact hheard _ _
  | poll => exact hheard _ _
  | dispatch target event => exact hheard _ _
  | perform site operation =>
    cases operation with
    | pop | compare | calculate => exact hheard _ _
    | _ => exact hunheard
  | _ => exact hunheard

/-! ### Engines that differ in the flag -/

/-- The first engine is the second one, or the second one with its diagnostics on. -/
def Engine.Shadows (e e' : Engine) : Prop := e = e' ∨ e = e'.loud

/-- Two outcomes are the same but for the diagnostics and the flag. -/
inductive Outcome.Matches {α : Type} : Outcome α → Outcome α → Prop
  | done {a : α} {e e' : Engine} (j j' : List Diagnostic) (h : e.Shadows e') : Matches (.done a e j) (.done a e' j')
  | failed {fault : Fault} {e e' : Engine} (j j' : List Diagnostic) (h : e.Shadows e') :
    Matches (.failed fault e j) (.failed fault e' j')
  | tooDeep : Matches .tooDeep .tooDeep

namespace Outcome

variable {α β : Type} {o o' : Outcome α}

theorem Matches.refl (o : Outcome α) : o.Matches o := by
  cases o with
  | done a e j => exact .done j j (.inl rfl)
  | failed fault e j => exact .failed j j (.inl rfl)
  | tooDeep => exact .tooDeep

theorem Matches.after (h : o.Matches o') (j j' : List Diagnostic) : (o.after j).Matches (o'.after j') := by
  cases h with
  | done _ _ h => exact .done _ _ h
  | failed _ _ h => exact .failed _ _ h
  | tooDeep => exact .tooDeep

theorem Matches.bind_pure {x y : Action α} {e e' : Engine} (h : (x e).Matches (y e')) (f : α → β) :
    ((x >>= fun a => pure (f a)) e).Matches ((y >>= fun a => pure (f a)) e') := by
  change Matches (Action.bind x _ e) (Action.bind y _ e')
  unfold Action.bind
  generalize x e = o at h ⊢
  generalize y e' = o' at h ⊢
  cases h with
  | done j j' h => exact .done _ _ h
  | failed j j' h => exact .failed j j' h
  | tooDeep => exact .tooDeep

/-- Code that is traced ends alike on an engine and its loud copy. -/
theorem Echoes.matches {P : Option Fault → List Diagnostic → Engine → Prop} (h : o.Echoes P o') : o'.Matches o := by
  cases h with
  | done => exact .done _ _ (.inr rfl)
  | failed => exact .failed _ _ (.inr rfl)
  | tooDeep => exact .tooDeep

/-- No storm is reported by the engine that is left. -/
def Calm (o : Outcome α) : Prop := ∀ r ∈ o.engine?.bind (·.report), r.kind ≠ "RerenderStormError"

instance (o : Outcome α) : Decidable o.Calm :=
  inferInstanceAs (Decidable (∀ r ∈ o.engine?.bind (·.report), r.kind ≠ "RerenderStormError"))

theorem Calm.of_engine? {o : Outcome α} {o' : Outcome β} (h : o.Calm) (he : o'.engine? = o.engine?) : o'.Calm :=
  fun r hr => h r (he ▸ hr)

end Outcome

namespace Engine

theorem ended_loud (e : Engine) : e.loud.ended = e.ended.loud := by
  unfold ended rearmed
  by_cases hp : e.schedule.pending = true
  · rw [if_pos hp, if_pos (show e.loud.schedule.pending = true from hp)]
    rfl
  · rw [if_neg hp, if_neg (show ¬e.loud.schedule.pending = true from hp)]
    rfl

theorem report_ended (e : Engine) : e.ended.report = e.report := by
  obtain ⟨_, _, h⟩ := e.ended_eq
  rw [h]

end Engine

namespace Action

variable {e : Engine} {n : Nat}

/-! ### Rendering -/

/-- The pass has ended without a fault. If the loud copy is refused, it has a storm to report. -/
theorem render_matches_of_rebuilt {e₁ : Engine} {j told : List Diagnostic}
    (hrun : rebuild n e.started = .done () e₁ j) (hloud : rebuild n e.loud.started = .done () e₁.loud told)
    (hcalm : (render n e.loud).Calm) : (render n e.loud).Matches (render n e) := by
  cases hs : e₁.schedule.storm.exceeded with
  | false =>
    obtain ⟨_, -, hrender⟩ := render_of_passed (renderPass_of_granted hrun (by rw [hs, Bool.and_false]))
    obtain ⟨_, -, hrender'⟩ := render_of_passed (renderPass_of_granted hloud hs)
    rw [hrender, hrender']
    have hended := Engine.ended_loud { e₁ with schedule := { e₁.schedule with phase := .idle }, report := none }
    exact .done _ _ (.inr hended)
  | true =>
    obtain ⟨e₂, _, told₂, -, hrec, hrecovers, -⟩ := recover_done (.storm e₁.schedule.storm.quota)
      { e₁ with schedule := { e₁.schedule with pending := false } }
    obtain ⟨_, -, hrender'⟩ := render_of_faulted (renderPass_of_refused hloud hs) hrec
    have hreport : e₂.loud.ended.report = some (.ofFault (.storm e₁.schedule.storm.quota)) :=
      (Engine.report_ended _).trans hrecovers.report
    rw [hrender'] at hcalm
    exact absurd rfl (hcalm _ hreport)

theorem render_matches (hcalm : (render n e.loud).Calm) :
    (render n e.loud).Matches (render n e) := by
  rcases (asks_rebuild n e.started).elim with
    ⟨_, e₁, j, told, hrun, hloud, -⟩ | ⟨fault, e₁, j, told, hrun, hloud, -⟩ | ⟨hrun, hloud⟩
  · exact render_matches_of_rebuilt hrun hloud hcalm
  · have hpass : renderPass n e.started = .failed fault e₁ j := by rw [renderPass_eq, bind_of_failed hrun]
    have hpass' : renderPass n e.loud.started = .failed fault e₁.loud told := by
      rw [renderPass_eq]
      exact bind_of_failed hloud
    obtain ⟨e₂, _, told₂, hrec, hrec', -⟩ := recover_done fault e₁
    obtain ⟨_, -, hrender⟩ := render_of_faulted hpass hrec
    obtain ⟨_, -, hrender'⟩ := render_of_faulted hpass' hrec'
    rw [hrender, hrender']
    exact .done _ _ (.inr (Engine.ended_loud _))
  · have hpass : renderPass n e.started = .tooDeep := by rw [renderPass_eq, bind_of_tooDeep hrun]
    have hpass' : renderPass n e.loud.started = .tooDeep := by rw [renderPass_eq]; exact bind_of_tooDeep hloud
    rw [render_of_tooDeep hpass, render_of_tooDeep hpass']
    exact .tooDeep

theorem boot_matches {mount : Handle} (hcalm : (boot n mount e.loud).Calm) :
    (boot n mount e.loud).Matches (boot n mount e) := by
  cases hi : e.sections.contains initLabel with
  | false =>
    rw [boot_without_init (e := e.loud) n mount hi] at hcalm
    rw [boot_without_init n mount hi, boot_without_init (e := e.loud) n mount hi]
    exact (render_matches (e := mounted mount e) (hcalm.of_engine? (by rw [Outcome.engine?_after]; rfl))).after _ _
  | true =>
    rw [boot_with_init (e := e.loud) n mount hi, mounted_loud] at hcalm
    rw [boot_with_init n mount hi, boot_with_init (e := e.loud) n mount hi, mounted_loud]
    refine Outcome.Matches.after ?_ _ _
    rcases (hereditary_asks.invoke n Engine.rootSite initLabel .callable (mounted mount e)).elim with
      ⟨_, e₁, j, told, hrun, hloud, -⟩ | ⟨fault, e₁, j, told, hrun, hloud, -⟩ | ⟨hrun, hloud⟩
    · rw [attempt_of_done hloud] at hcalm
      rw [attempt_of_done hrun, attempt_of_done hloud]
      exact (render_matches (hcalm.of_engine? (by simp [opened]))).after _ _
    · obtain ⟨e₂, _, told₂, hrec, hrec', -⟩ := recover_done fault e₁
      rw [attempt_of_failed hrun, attempt_of_failed hloud, opened, hrec, hrec']
      exact .done _ _ (.inr rfl)
    · rw [attempt_of_tooDeep hrun, attempt_of_tooDeep hloud]
      exact .tooDeep

theorem poll_matches (hcalm : (poll n e.loud).Calm) :
    (poll n e.loud).Matches (poll n e) := by
  cases hd : e.isDue with
  | true =>
    rw [poll_of_due (e := e.loud) n hd] at hcalm
    rw [poll_of_due n hd, poll_of_due (e := e.loud) n hd]
    have hrender : (render n (disarmed e).loud).Calm := hcalm.of_engine? (Outcome.engine?_bind_pure _ _ _).symm
    exact (render_matches (e := disarmed e) hrender).bind_pure _
  | false =>
    rw [poll_of_early n hd, poll_of_early (e := e.loud) n hd]
    exact .done _ _ (.inr rfl)

theorem dispatch_matches (target : Handle) (event : String) (hp : e.schedule.phase ≠ .rendering) :
    (dispatch n target event e.loud).Matches (dispatch n target event e) := by
  rw [dispatch_eq, dispatch_eq]
  exact (deliver_echoes n target _ hp).matches.after _ _

end Action

/-! ### Runs -/

namespace Request

variable {e : Engine} {n : Nat}

theorem load_matches (p : Program) : ((load p).run n e.loud).Matches ((load p).run n e) := by
  obtain ⟨j, hload⟩ := Action.loadProgram_eq p e
  obtain ⟨j', hload'⟩ := Action.loadProgram_eq p e.loud
  rw [run, hload, hload']
  refine .done _ _ ?_
  unfold Engine.loaded
  cases p.trusted with
  | true => exact .inl rfl
  | false => exact .inr rfl

/-- A request ends alike on an engine and its loud copy, unless the copy has a storm to report. -/
theorem reply_matches {r : Request} (hp : e.schedule.phase ≠ .rendering) (hcalm : (r.reply n e.loud).Calm) :
    (r.reply n e.loud).Matches (r.reply n e) := by
  have hinner : ∀ {α : Type} {x : Action α} {f : α → Reply},
      ((x >>= fun a => pure (f a)) e.loud).Calm → (x e.loud).Calm :=
    fun h => h.of_engine? (Outcome.engine?_bind_pure _ _ _).symm
  have hcode := Action.hereditary_asks.execute n
  cases r with
  | load p => exact (load_matches p).bind_pure _
  | define d =>
    obtain ⟨j, hdefine⟩ := Action.define_eq (.ofDefinition d) e
    obtain ⟨j', hdefine'⟩ := Action.define_eq (.ofDefinition d) e.loud
    have hmatches : (Action.define (.ofDefinition d) e.loud).Matches (Action.define (.ofDefinition d) e) := by
      rw [hdefine, hdefine']
      exact .done _ _ (.inr rfl)
    exact hmatches.bind_pure _
  | trust on => exact .done _ _ (.inl rfl)
  | strings | constants | advance | lapse | edit | focus | register => exact .done _ _ (.inr rfl)
  | boot mount => exact (Action.boot_matches (hinner hcalm)).bind_pure _
  | render => exact (Action.render_matches (hinner hcalm)).bind_pure _
  | poll => exact (Action.poll_matches (hinner hcalm)).bind_pure _
  | dispatch target event => exact (Action.dispatch_matches target event hp).bind_pure _
  | execute code => exact (hcode code e).matches.bind_pure _
  | container site enclosure code =>
    exact (Action.woven_asks.container site enclosure (hcode code) e).matches.bind_pure _
  | conditional site code => exact (Action.woven_asks.conditional site (hcode code) e).matches.bind_pure _
  | perform site operation =>
    have hrun := (Action.hereditary_asks.perform hcode site operation e).matches
    cases operation with
    | pop => exact (Action.woven_asks.pop site e).matches.bind_pure _
    | compare => exact (Action.woven_asks.compare site e).matches.bind_pure _
    | calculate symbol => exact (Action.woven_asks.calculate site symbol e).matches.bind_pure _
    | _ => exact hrun.bind_pure fun _ => Reply.nothing
  | push site v => exact (Action.woven_asks.push site v e).matches.bind_pure _
  | value site raw content => exact (Action.woven_asks.value site raw content e).matches.bind_pure _

end Request

namespace HostCall

variable {e e' : Engine} {n : Nat} {c : HostCall}

theorem reply_matches (hp : e.schedule.phase ≠ .rendering) (hcalm : (c.reply n e.loud).Calm) :
    (c.reply n e.loud).Matches (c.reply n e) := by
  cases c with
  | request r => exact Request.reply_matches hp hcalm
  | peek site offset => exact (Action.woven_asks.peek site offset e).matches.bind_pure _

/-- A host's call leaves no render pass under way. -/
theorem reply_timely (he : e.Timely) (hr : (c.reply n e).engine? = some e') : e'.Timely := by
  cases c with
  | request r =>
    rw [reply, ← Outcome.engine?_forget, r.forget_reply] at hr
    exact he.request hr
  | peek site offset =>
    -- looking at the stack leaves the clockwork alone
    have hstill := Action.traceable_still
    obtain ⟨_, halike, -⟩ := (hstill.bind (hstill.writing.peek site offset) fun v => hstill.pure (Reply.value v)) e
      |>.engine hr
    refine ⟨by rw [halike.schedule]; exact he.phase, fun d hd => ?_⟩
    rw [halike.schedule] at hd
    rw [Engine.now, halike.clock, halike.config]
    exact he.near d hd

end HostCall

/-- Engines that differ in the flag at most are led to such engines by each call in turn. -/
theorem transcript_matches {n : Nat} {cs : List HostCall} {e e' : Engine} (hs : e.Shadows e') (ht : e'.Timely)
    (hcalm : ∀ o ∈ transcript n cs e, o.Calm) :
    List.Forall₂ Outcome.Matches (transcript n cs e) (transcript n cs e') := by
  induction cs generalizing e e' with
  | nil => exact .nil
  | cons c cs ih =>
    have hfirst : (c.reply n e).Matches (c.reply n e') := by
      rcases hs with rfl | rfl
      · exact .refl _
      · exact HostCall.reply_matches ht.phase (hcalm _ List.mem_cons_self)
    refine .cons hfirst ?_
    have hrest : ∀ e₁, (c.reply n e).engine? = some e₁ → ∀ o ∈ transcript n cs e₁, o.Calm := by
      intro e₁ he₁ o ho
      apply hcalm o
      rw [transcript, he₁]
      exact List.mem_cons_of_mem _ ho
    have htimely : ∀ e₁, (c.reply n e').engine? = some e₁ → e₁.Timely := fun e₁ => HostCall.reply_timely ht
    generalize c.reply n e = o at hfirst hrest ⊢
    generalize c.reply n e' = o' at hfirst htimely ⊢
    cases hfirst with
    | done j j' h => exact ih h (htimely _ rfl) (hrest _ rfl)
    | failed j j' h => exact ih h (htimely _ rfl) (hrest _ rfl)
    | tooDeep => exact .nil

/-! ### Silence -/

/-- Nothing is told, and the engine that is left is trusted. -/
def Outcome.Silent {α : Type} : Outcome α → Prop
  | .done _ e j => e.config.trusted = true ∧ j = []
  | .failed _ e j => e.config.trusted = true ∧ j = []
  | .tooDeep => True

theorem Outcome.Silent.journal {α : Type} {o : Outcome α} (h : o.Silent) : o.journal = [] := by
  cases o with
  | done a e j => exact h.2
  | failed fault e j => exact h.2
  | tooDeep => rfl

theorem Outcome.Silent.engine {α : Type} {o : Outcome α} {e : Engine} (h : o.Silent) (he : o.engine? = some e) :
    e.config.trusted = true := by
  cases o with
  | done a e' j => cases he; exact h.1
  | failed fault e' j => cases he; exact h.1
  | tooDeep => cases he

theorem Outcome.silent_forget {α : Type} {o : Outcome α} : o.forget.Silent ↔ o.Silent := by
  cases o <;> exact Iff.rfl

namespace Action

/-- The action tells nothing on a trusted engine, and leaves it trusted. -/
def Mute {α : Type} (x : Action α) : Prop := ∀ e, e.config.trusted = true → (x e).Silent

theorem Mute.bind {α β : Type} {x : Action α} {f : α → Action β} (hx : Mute x) (hf : ∀ a, Mute (f a)) :
    Mute (x >>= f) := by
  intro e he
  have hxe := hx e he
  cases hr : x e with
  | done a e' j =>
    rw [hr] at hxe
    obtain ⟨he', rfl⟩ := hxe
    rw [bind_of_done hr, Outcome.after_nil]
    exact hf a e' he'
  | failed fault e' j =>
    rw [hr] at hxe
    rw [bind_of_failed hr]
    exact hxe
  | tooDeep =>
    rw [bind_of_tooDeep hr]
    trivial

/-- Whatever keeps the configuration keeps the trust. -/
theorem compositional_mute : Compositional @Mute where
  pure _ _ he := ⟨he, rfl⟩
  fail _ _ he := ⟨he, rfl⟩
  get _ _ he := ⟨he, rfl⟩
  log _ _ he := ⟨he, if_pos he⟩
  modify hf e he := ⟨(congrArg Config.trusted (hf e)).trans he, rfl⟩
  onStack f e he := by
    unfold onStack
    split
    · exact ⟨he, rfl⟩
    · exact ⟨he, rfl⟩
  make _ _ he := ⟨he, rfl⟩
  onTree f e he := by
    unfold onTree
    split
    · exact ⟨he, rfl⟩
    · exact ⟨he, rfl⟩
  ofTree f e he := by
    unfold ofTree
    split
    · exact ⟨he, rfl⟩
    · exact ⟨he, rfl⟩
  resolve _ _ he := ⟨he, rfl⟩
  bind := Mute.bind
  attempt {_ x} hx e he := by
    have hxe := hx e he
    unfold attempt
    generalize x e = o at hxe ⊢
    cases o with
    | done a e' j => exact hxe
    | failed fault e' j => exact hxe
    | tooDeep => trivial
  bracket {_ enter leave x} hx hi ho e he := by
    have hxe := hx (enter e) ((congrArg Config.trusted (hi e)).trans he)
    unfold bracket
    generalize x (enter e) = o at hxe ⊢
    cases o with
    | done a e' j => exact ⟨(congrArg Config.trusted (ho e e')).trans hxe.1, hxe.2⟩
    | failed fault e' j => exact ⟨(congrArg Config.trusted (ho e e')).trans hxe.1, hxe.2⟩
    | tooDeep => trivial
  onFault {_ f x} hx hf e he := by
    have hxe := hx e he
    unfold onFault
    generalize x e = o at hxe ⊢
    cases o with
    | done a e' j => exact hxe
    | failed fault e' j => exact ⟨(congrArg Config.trusted (hf e')).trans hxe.1, hxe.2⟩
    | tooDeep => trivial

theorem hereditary_mute : Hereditary (Mute (α := Unit)) := compositional_mute.woven.hereditary fun _ _ => trivial

/-! ### Requests -/

theorem mute_define (s : Section) : Mute (define s) := by
  have hP := compositional_mute
  exact hP.bind (hP.get _) fun _ => hP.bind (hP.modify fun _ => rfl) fun _ => hP.woven.ite (hP.log _) (hP.pure ())

theorem mute_renderPass (n : Nat) : Mute (renderPass n) := by
  have hP := compositional_mute
  refine hP.bind (hP.get _) fun mount => hP.bind (hP.onTree _) fun _ => hP.bind (hP.onTree _) fun _ => ?_
  refine hP.bind (hP.onTree _) fun _ => hP.bind (hP.modify fun _ => rfl) fun _ => ?_
  refine hP.bind (hereditary_mute.invoke n _ _ _) fun _ => hP.bind (hP.get _) fun e => hP.woven.ite ?_ (hP.pure ())
  exact hP.bind (hP.modify fun _ => rfl) fun _ => hP.fail _

theorem mute_finish (started : Nat) : Mute (finish started) := by
  have hP := compositional_mute
  have hrearm : Mute rearm := by
    refine hP.bind (hP.get _) fun _ => hP.woven.ite ?_ (hP.pure ())
    exact hP.bind hP.time fun _ => hP.modify fun _ => rfl
  exact hP.bind hrearm fun _ => hP.bind hP.time fun _ => hP.bind (hP.get _) fun _ => hP.log _

theorem mute_render (n : Nat) : Mute (render n) := by
  have hP := compositional_mute
  refine hP.bind hP.time fun started => hP.bind (hP.modify fun _ => rfl) fun _ => ?_
  refine hP.bind (hP.attempt (mute_renderPass n)) fun passed => ?_
  cases passed with
  | ok => exact hP.bind (hP.modify fun _ => rfl) fun _ => mute_finish started
  | error fault => exact hP.bind (hP.recover fault) fun _ => mute_finish started

theorem mute_boot (n : Nat) (mount : Handle) : Mute (boot n mount) := by
  have hP := compositional_mute
  refine hP.bind (hP.modify fun _ => rfl) fun _ => hP.bind (hP.log _) fun _ => hP.bind (hP.get _) fun defined => ?_
  refine hP.woven.ite (hP.bind (hP.attempt (hereditary_mute.invoke n _ _ _)) ?_) (hP.bind (hP.pure _) ?_)
  all_goals
    intro started
    cases started with
    | ok => exact mute_render n
    | error fault => exact hP.recover fault

theorem mute_poll (n : Nat) : Mute (poll n) := by
  have hP := compositional_mute
  refine hP.bind hP.time fun now => hP.bind (hP.modify fun _ => rfl) fun _ => hP.bind (hP.get _) fun e => ?_
  refine hP.woven.ite ?_ (hP.pure _)
  exact hP.bind (hP.modify fun _ => rfl) fun _ => hP.bind (mute_render n) fun _ => hP.pure _

theorem mute_deliver (n : Nat) (target : Handle) (ls : List Listener) : Mute (deliver n target ls) := by
  have hP := compositional_mute
  induction ls with
  | nil => exact hP.pure _
  | cons l ls ih =>
    refine hP.bind (hP.attempt (hP.woven.withFocus target (hereditary_mute.invoke n _ _ _))) fun ended => ?_
    cases ended with
    | ok => exact hP.bind ih fun _ => hP.pure _
    | error fault => exact hP.bind (hP.recover fault) fun _ => hP.pure _

theorem mute_dispatch (n : Nat) (target : Handle) (event : String) : Mute (dispatch n target event) := by
  have hP := compositional_mute
  exact hP.bind (hP.get _) fun _ => hP.bind (hP.log _) fun _ => mute_deliver n target _

/-- A load tells nothing if the engine is trusted or the program is: the flag is the first thing that it sets. -/
theorem silent_loadProgram (p : Program) (e : Engine) (he : e.config.trusted = true ∨ p.trusted = true) :
    (loadProgram p e).Silent := by
  have hP := compositional_mute
  have hall : ∀ ss, Mute (defineAll ss) := by
    intro ss
    induction ss with
    | nil => exact hP.pure ()
    | cons s ss ih => exact hP.bind (mute_define s) fun _ => ih
  have hrest : Mute (do
      loadStrings p.strings
      loadConstants p.constants
      defineAll (p.sections.map .ofDefinition)
      let e ← get id
      log (.programLoaded e.sections.size e.resources.strings.size e.resources.constants.size)) := by
    refine hP.bind (hP.modify fun _ => rfl) fun _ => hP.bind (hP.modify fun _ => rfl) fun _ => ?_
    exact hP.bind (hall _) fun _ => hP.bind (hP.get _) fun _ => hP.log _
  unfold loadProgram
  cases ht : p.trusted with
  | false => exact hrest e (he.resolve_right (ht ▸ Bool.false_ne_true))
  | true =>
    rw [if_pos rfl, bind_of_done (x := modify (·.setTrusted true)) (e := e) rfl, Outcome.after_nil]
    exact hrest (e.setTrusted true) rfl

end Action

/-- The call turns the diagnostics off, if they are on. -/
def HostCall.Trusts : HostCall → Prop
  | .request (.trust on) => on = true
  | .request (.load p) => p.trusted = true
  | _ => False

namespace Request

variable {n : Nat} {r : Request} {e : Engine}

theorem silent_run (he : e.config.trusted = true ∨ (HostCall.request r).Trusts) (hr : r ≠ .trust false) :
    (r.run n e).Silent := by
  have hP := Action.compositional_mute
  have hcode := Action.hereditary_mute.execute n
  have htrusted : ¬(HostCall.request r).Trusts → e.config.trusted = true := he.resolve_right
  cases r with
  | load p => exact Action.silent_loadProgram p e he
  | trust on =>
    cases on with
    | false => exact absurd rfl hr
    | true => exact ⟨rfl, rfl⟩
  | define d => exact Action.mute_define _ e (htrusted id)
  | strings | constants | advance | lapse | edit | focus | register => exact ⟨htrusted id, rfl⟩
  | boot mount => exact Action.mute_boot n mount e (htrusted id)
  | render => exact Action.mute_render n e (htrusted id)
  | poll => exact hP.bind (Action.mute_poll n) (fun _ => hP.pure ()) e (htrusted id)
  | dispatch target event => exact hP.bind (Action.mute_dispatch n target event) (fun _ => hP.pure ()) e (htrusted id)
  | execute code => exact hcode code e (htrusted id)
  | container site enclosure code =>
    exact hP.woven.container site enclosure (hcode code) e (htrusted id)
  | conditional site code => exact hP.woven.conditional site (hcode code) e (htrusted id)
  | perform site operation => exact Action.hereditary_mute.perform hcode site operation e (htrusted id)
  | push site v => exact hP.woven.push site v e (htrusted id)
  | value site raw content => exact hP.woven.value site raw content e (htrusted id)

end Request

theorem HostCall.silent_reply {n : Nat} {c : HostCall} {e : Engine} (he : e.config.trusted = true ∨ c.Trusts)
    (hc : c ≠ .request (.trust false)) : (c.reply n e).Silent := by
  cases c with
  | request r =>
    rw [← Outcome.silent_forget, reply, r.forget_reply]
    exact Request.silent_run he fun hr => hc (congrArg _ hr)
  | peek site offset =>
    have hP := Action.compositional_mute
    exact hP.bind (hP.woven.peek site offset) (fun _ => hP.pure _) e (he.resolve_right id)

/-- Trust changes the diagnostics and the verdict on storms alone. On two copies of an engine, one trusted and one not,
the same calls end with the same replies or faults and leave engines that are equal but for the flag, for as long as
the copy that is not trusted reports no storm. Nothing is told by a call that finds the engine trusted or makes it so,
and the engine is trusted from then on, until the host says otherwise. -/
theorem trusted_run_matches {e : Engine} (he : e.Reachable) (n : Nat) (cs : List HostCall)
    (hcalm : ∀ o ∈ transcript n cs (e.setTrusted false), o.Calm) :
    List.Forall₂ Outcome.Matches (transcript n cs (e.setTrusted false)) (transcript n cs (e.setTrusted true)) ∧
      ∀ (c : HostCall) (e₁ : Engine), e₁.config.trusted = true ∨ c.Trusts →
        (c.reply n e₁).journal = [] ∧
          (c ≠ .request (.trust false) → ∀ e₂, (c.reply n e₁).engine? = some e₂ → e₂.config.trusted = true) := by
  have htimely : (e.setTrusted true).Timely := (he.request n (.trust true) rfl).timely
  refine ⟨transcript_matches (.inr rfl) htimely hcalm, fun c e₁ he₁ => ⟨?_, fun hc e₂ he₂ => ?_⟩⟩
  · by_cases hc : c = .request (.trust false)
    · subst hc
      rfl
    · exact (HostCall.silent_reply he₁ hc).journal
  · exact (HostCall.silent_reply he₁ hc).engine he₂

/-- The restless program is mounted and polled at its deadline. -/
def restlessVisit : List HostCall :=
  [.request (.load Engine.restless), .request (.boot .root), .request (.advance 100000000), .request .poll, .peek 0 0]

theorem trusted_run_matches_restless :
    (∀ o ∈ transcript 2 restlessVisit ((Engine.new {}).setTrusted false), o.Calm) ∧
      List.Forall₂ Outcome.Matches (transcript 2 restlessVisit ((Engine.new {}).setTrusted false))
        (transcript 2 restlessVisit ((Engine.new {}).setTrusted true)) := by
  have hcalm : ∀ o ∈ transcript 2 restlessVisit ((Engine.new {}).setTrusted false), o.Calm := by decide +kernel
  exact ⟨hcalm, (trusted_run_matches (.new {}) 2 _ hcalm).1⟩

end Trellis
