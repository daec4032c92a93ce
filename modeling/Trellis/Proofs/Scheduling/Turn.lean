import Trellis.Proofs.Engine.Loading
import Trellis.Proofs.Scheduling.Cycle

/-!
# What the requests of a host do to the schedule

A host's request either runs outside a render pass all the time, or ends with one render cycle. Before the cycle code
may have run as well: a mount begins with the `init` section, and a poll tells the storm guard the time and takes the
deadline away. Between two requests no render pass is under way, so that every request for a re-render that is made
outside a cycle sets the deadline at once.
-/
namespace Trellis

open Diagnostic (direct counted requests countedAt)
open Tree (Handle)

namespace Engine

/-- Something has run outside a render pass. The requests for a re-render that it would tell of have set the
deadline. -/
structure Outside (e : Engine) (told : List Diagnostic) (e' : Engine) : Prop where
  config : e'.config = e.config
  clock : e'.clock = e.clock.after (requests told)
  renders : e'.schedule.renders = e.schedule.renders
  storm : e'.schedule.storm = e.schedule.storm
  phase : e'.schedule.phase ≠ .rendering
  counted : counted told = 0
  deadline : Schedule.Armed e.config.settle e.now e'.now e.schedule.deadline (direct told) e'.schedule.deadline

/-- A request of a host that would tell of some requests for a re-render. -/
inductive Turn (e : Engine) (told : List Diagnostic) (e' : Engine) : Prop
  | outside (h : e.Outside told e')
  | cycle {e₁ : Engine} {before during : List Diagnostic} (h : e.Outside before e₁) (hc : e₁.Cycle during e')
    (ht : told = before ++ during)

variable {e e₁ e₂ : Engine} {told later : List Diagnostic}

theorem Outside.now_le (h : e.Outside told e₁) : e.now ≤ e₁.now := by
  unfold now
  rw [h.clock]
  exact e.clock.now_le_after _

/-- Nothing has been asked for, and the schedule has at most been given another phase. -/
theorem Outside.quiet (hconfig : e₁.config = e.config) (hclock : e₁.clock = e.clock) {phase : Phase}
    (hschedule : e₁.schedule = { e.schedule with phase }) (hp : phase ≠ .rendering) (ht : requests told = 0) :
    e.Outside told e₁ := by
  have hdirect : direct told = 0 := by unfold requests at ht; omega
  have hcounted : Diagnostic.counted told = 0 := by unfold requests at ht; omega
  refine ⟨hconfig, ?_, by rw [hschedule], by rw [hschedule], by rwa [hschedule], hcounted, ?_⟩
  · rw [hclock, ht, Clock.after_zero]
  · rw [hschedule, hdirect]
    exact .none _

theorem Outside.still (h : e.Alike e₁) (hp : e.schedule.phase ≠ .rendering) (ht : requests told = 0) :
    e.Outside told e₁ := .quiet h.config h.clock h.schedule hp ht

theorem Outside.trans (h : e.Outside told e₁) (h' : e₁.Outside later e₂) : e.Outside (told ++ later) e₂ where
  config := h'.config.trans h.config
  clock := by rw [h'.clock, h.clock, Clock.after_after, Diagnostic.requests_append]
  renders := h'.renders.trans h.renders
  storm := h'.storm.trans h.storm
  phase := h'.phase
  counted := by rw [Diagnostic.counted_append, h.counted, h'.counted]
  deadline := by
    have hlater := h'.deadline
    rw [h.config] at hlater
    rw [Diagnostic.direct_append]
    exact h.deadline.trans hlater h.now_le h'.now_le

theorem Turn.before (h : e.Outside told e₁) (h' : e₁.Turn later e₂) : e.Turn (told ++ later) e₂ := by
  cases h' with
  | outside h' => exact .outside (h.trans h')
  | cycle h' hc ht => exact .cycle (h.trans h') hc (by rw [ht, List.append_assoc])

theorem Cycle.turn (hc : e.Cycle told e₁) (hp : e.schedule.phase ≠ .rendering) : e.Turn told e₁ := by
  have hnone : e.Outside [] e := .still (.refl e) hp rfl
  exact .cycle hnone hc rfl

end Engine

theorem Asks.outside_pass {e e' : Engine} {fault : Option Fault} {told : List Diagnostic} (h : Asks e fault told e')
    (hp : e.schedule.phase ≠ .rendering) : e.Outside told e' where
  config := h.config
  clock := h.clock
  renders := h.renders
  storm := by rw [h.storm, Diagnostic.countedAt_eq_nil (h.outside hp), StormGuard.countAll_nil]
  phase := by rwa [h.phase]
  counted := h.outside hp
  deadline := h.deadline

theorem Action.Recovers.outside_pass {e e' : Engine} {fault : Fault} {told : List Diagnostic}
    (h : Recovers fault e e') (ht : requests told = 0) : e.Outside told e' :=
  .quiet h.config h.clock h.schedule nofun ht

theorem Outcome.Tells.after {α : Type} {P Q : List Diagnostic → Engine → Prop} {o o' : Outcome α} (h : o.Tells P o')
    {told : List Diagnostic} (journal : List Diagnostic) (hPQ : ∀ later e, P later e → Q (told ++ later) e) :
    (o.after journal).Tells Q (o'.after told) := by
  cases h with
  | done h => exact .done (hPQ _ _ h)
  | tooDeep => exact .tooDeep

theorem Outcome.Tells.bind_pure {α β : Type} {P : List Diagnostic → Engine → Prop} {x y : Action α} {e e' : Engine}
    (h : (x e).Tells P (y e')) (f g : α → β) :
    ((x >>= fun a => pure (f a)) e).Tells P ((y >>= fun a => pure (g a)) e') := by
  change Tells P (Action.bind x _ e) (Action.bind y _ e')
  unfold Action.bind
  generalize x e = o at h ⊢
  generalize y e' = o' at h ⊢
  cases h with
  | @done _ _ _ _ _ told h => exact .done (by rwa [List.append_nil told])
  | tooDeep => exact .tooDeep

theorem Outcome.Echoes.tells {α : Type} {P : Option Fault → List Diagnostic → Engine → Prop} {o o' : Outcome α}
    (h : o.Echoes P o') (hf : ∀ fault told e, ¬P (some fault) told e) : o.Tells (P none) o' := by
  cases h with
  | done journal h => exact .done h
  | failed journal h => exact absurd h (hf _ _ _)
  | tooDeep => exact .tooDeep

theorem Outcome.Tells.mono {α : Type} {P Q : List Diagnostic → Engine → Prop} {o o' : Outcome α} (h : o.Tells P o')
    (hPQ : ∀ told e, P told e → Q told e) : o.Tells Q o' := by
  cases h with
  | done h => exact .done (hPQ _ _ h)
  | tooDeep => exact .tooDeep

/-- A poll would find that the deadline has come. -/
def Engine.isDue (e : Engine) : Bool := e.schedule.isDue e.timed.now

namespace Action

variable {e : Engine}

/-! ### Mounting -/

/-- The engine with the program mounted on a node. -/
def mounted (mount : Handle) (e : Engine) : Engine := { e with frames := [Engine.rootFrame mount], mount }

theorem mounted_loud (mount : Handle) (e : Engine) : mounted mount e.loud = (mounted mount e).loud := rfl

/-- What follows the `init` section. -/
def opened (n : Nat) : Except Fault Unit → Action Unit
  | .ok () => render n
  | .error fault => recover fault

theorem boot_without_init (n : Nat) (mount : Handle) (hi : e.sections.contains initLabel = false) :
    boot n mount e = (render n (mounted mount e)).after (e.voice .boot) := by
  unfold boot
  rw [bind_of_done (x := modify _) rfl, bind_of_done (x := log _) rfl, bind_of_done (x := get _) rfl]
  dsimp only
  rw [hi, if_neg Bool.false_ne_true, bind_of_done (x := pure _) rfl]
  simp only [Outcome.after_after, List.nil_append, List.append_nil]
  rfl

theorem boot_with_init (n : Nat) (mount : Handle) (hi : e.sections.contains initLabel = true) :
    boot n mount e =
      ((attempt (invoke n Engine.rootSite initLabel .callable) >>= opened n) (mounted mount e)).after
        (e.voice .boot) := by
  unfold boot
  rw [bind_of_done (x := modify _) rfl, bind_of_done (x := log _) rfl, bind_of_done (x := get _) rfl]
  dsimp only
  rw [hi, if_pos rfl]
  simp only [Outcome.after_after, List.nil_append, List.append_nil]
  rfl

theorem boot_tells (n : Nat) (mount : Handle) (hp : e.schedule.phase ≠ .rendering) :
    (boot n mount e).Tells e.Turn (boot n mount e.loud) := by
  have hrender : ∀ e : Engine, e.schedule.phase ≠ .rendering → (render n e).Tells e.Turn (render n e.loud) :=
    fun e hp => (render_tells n e).mono fun _ _ h => h.turn hp
  -- mounting and telling of it leave the schedule alone
  have hmount : e.Outside (e.loud.voice .boot) (mounted mount e) :=
    .still ⟨rfl, rfl, rfl, rfl⟩ hp (e.loud.requests_voice rfl)
  cases hi : e.sections.contains initLabel with
  | false =>
    rw [boot_without_init n mount hi, boot_without_init (e := e.loud) n mount hi]
    exact (hrender (mounted mount e) hp).after _ fun _ _ h => .before hmount h
  | true =>
    rw [boot_with_init n mount hi, boot_with_init (e := e.loud) n mount hi, mounted_loud]
    refine Outcome.Tells.after (P := (mounted mount e).Turn) ?_ _ fun _ _ h => .before hmount h
    rcases (hereditary_asks.invoke n Engine.rootSite initLabel .callable (mounted mount e)).elim with
      ⟨_, e₁, j, told, hrun, hloud, hasks⟩ | ⟨fault, e₁, j, told, hrun, hloud, hasks⟩ | ⟨hrun, hloud⟩
    · have hinit := hasks.outside_pass hp
      rw [attempt_of_done hrun, attempt_of_done hloud]
      exact (hrender e₁ hinit.phase).after j fun _ _ h => .before hinit h
    · have hinit := hasks.outside_pass hp
      obtain ⟨e₂, j', told', hrec, hrec', hrecovers, ht⟩ := recover_done fault e₁
      rw [attempt_of_failed hrun, attempt_of_failed hloud, opened, hrec, hrec']
      exact .done (.outside (hinit.trans (hrecovers.outside_pass ht)))
    · rw [attempt_of_tooDeep hrun, attempt_of_tooDeep hloud]
      exact .tooDeep

/-! ### Polling -/

/-- The engine when a poll has read the clock and told the storm guard the time. -/
def ticked (e : Engine) : Engine :=
  { e.timed with schedule := { e.schedule with storm := e.schedule.storm.tick e.timed.now } }

/-- The engine when a poll has taken the deadline. -/
def disarmed (e : Engine) : Engine := { ticked e with schedule := { (ticked e).schedule with deadline := none } }

theorem poll_of_due (n : Nat) (hd : e.isDue = true) :
    poll n e = (render n >>= fun _ => pure true) (disarmed e) := by
  unfold poll
  rw [bind_of_done (x := time) rfl, bind_of_done (x := modify _) rfl, bind_of_done (x := get id) rfl]
  dsimp only [id]
  split
  · rw [bind_of_done (x := modify _) rfl]
    simp only [Outcome.after_nil]
    rfl
  case isFalse hnot => exact absurd hd hnot

theorem poll_of_early (n : Nat) (hd : e.isDue = false) : poll n e = .done false (ticked e) [] := by
  unfold poll
  rw [bind_of_done (x := time) rfl, bind_of_done (x := modify _) rfl, bind_of_done (x := get id) rfl]
  dsimp only [id]
  split
  case isTrue hdue => exact absurd (hd.symm.trans hdue) Bool.false_ne_true
  · rfl

/-- A poll whose time has come is a cycle that starts without a deadline. -/
theorem poll_tells_of_due (n : Nat) (hd : e.isDue = true) :
    (poll n e).Tells (disarmed e).Cycle (poll n e.loud) := by
  rw [poll_of_due n hd, poll_of_due (e := e.loud) n hd]
  exact (render_tells n (disarmed e)).bind_pure _ _

/-! ### Events -/

/-- Handlers run outside a render pass, and so does what deals with their faults. -/
theorem deliver_echoes (n : Nat) (target : Handle) (ls : List Listener) (hp : e.schedule.phase ≠ .rendering) :
    (deliver n target ls e).Echoes (fun fault told e' => fault = none ∧ e.Outside told e')
      (deliver n target ls e.loud) := by
  induction ls generalizing e with
  | nil => exact .done [] ⟨rfl, .still (.refl e) hp rfl⟩
  | cons l ls ih =>
    have hhandler := woven_asks.withFocus target (hereditary_asks.invoke n l.site l.handler .callable) e
    unfold deliver
    rcases hhandler.elim with
      ⟨_, e₁, j, told, hrun, hloud, hasks⟩ | ⟨fault, e₁, j, told, hrun, hloud, hasks⟩ | ⟨hrun, hloud⟩
    · have hinit := hasks.outside_pass hp
      rw [attempt_of_done hrun, attempt_of_done hloud]
      exact ((ih hinit.phase).bind_pure _).after j fun _ _ _ h => ⟨h.1, hinit.trans h.2⟩
    · have hinit := hasks.outside_pass hp
      obtain ⟨e₂, j', told', hrec, hrec', hrecovers, ht⟩ := recover_done fault e₁
      rw [attempt_of_failed hrun, attempt_of_failed hloud]
      dsimp only
      rw [bind_of_done hrec, bind_of_done hrec']
      exact .done _ ⟨rfl, hinit.trans (hrecovers.outside_pass (by rw [Diagnostic.requests_append, ht]; rfl))⟩
    · rw [attempt_of_tooDeep hrun, attempt_of_tooDeep hloud]
      exact .tooDeep

theorem dispatch_eq (n : Nat) (target : Handle) (event : String) (e : Engine) :
    dispatch n target event e =
      (deliver n target (listenersOn (e.tree.lineage target) event e.listeners) e).after
        (e.voice (.dispatch event (listenersOn (e.tree.lineage target) event e.listeners).length)) := by
  unfold dispatch
  rw [bind_of_done (x := get id) rfl, bind_of_done (x := log _) rfl]
  simp only [Outcome.after_nil]
  rfl

theorem dispatch_tells (n : Nat) (target : Handle) (event : String) (hp : e.schedule.phase ≠ .rendering) :
    (dispatch n target event e).Tells e.Turn (dispatch n target event e.loud) := by
  let matching := listenersOn (e.tree.lineage target) event e.listeners
  have htold : e.Outside (e.loud.voice (.dispatch event matching.length)) e :=
    .still (.refl e) hp (e.loud.requests_voice rfl)
  have hdeliver := (deliver_echoes n target matching hp).tells fun _ _ _ h => nomatch h.1
  rw [dispatch_eq, dispatch_eq]
  exact hdeliver.after _ fun _ _ h => .outside (htold.trans h.2)

end Action

/-! ### Requests -/

/-- The diagnostics that an outcome comes with. -/
def Outcome.journal {α : Type} : Outcome α → List Diagnostic
  | .done _ _ journal => journal
  | .failed _ _ journal => journal
  | .tooDeep => []

theorem Outcome.Tells.engine {α : Type} {P : List Diagnostic → Engine → Prop} {o o' : Outcome α} {e : Engine}
    (h : o.Tells P o') (he : o.engine? = some e) : P o'.journal e := by
  cases h with
  | done h => cases he; exact h
  | tooDeep => cases he

theorem Outcome.Echoes.engine {α : Type} {P : Option Fault → List Diagnostic → Engine → Prop} {o o' : Outcome α}
    {e : Engine} (h : o.Echoes P o') (he : o.engine? = some e) : ∃ fault, P fault o'.journal e := by
  cases h with
  | done journal h => cases he; exact ⟨_, h⟩
  | failed journal h => cases he; exact ⟨_, h⟩
  | tooDeep => cases he

namespace Action

/-- The action tells of no request for a re-render. -/
def Unasking {α : Type} (x : Action α) : Prop := ∀ e, requests (x e).journal = 0

theorem Unasking.bind {α β : Type} {x : Action α} {f : α → Action β} (hx : Unasking x) (hf : ∀ a, Unasking (f a)) :
    Unasking (x >>= f) := by
  intro e
  have hxe := hx e
  cases hrun : x e with
  | done a e' journal =>
    rw [hrun] at hxe
    have hfe := hf a e'
    rw [bind_of_done hrun]
    cases hrest : f a e' with
    | done | failed =>
      rw [hrest] at hfe
      exact (Diagnostic.requests_append _ _).trans (Nat.add_eq_zero_iff.2 ⟨hxe, hfe⟩)
    | tooDeep => rfl
  | failed fault e' journal =>
    rw [hrun] at hxe
    rw [bind_of_failed hrun]
    exact hxe
  | tooDeep =>
    rw [bind_of_tooDeep hrun]
    rfl

theorem unasking_log {d : Diagnostic} (h : d.isRequest = false) : Unasking (log d) := fun e => e.requests_voice h

theorem unasking_define (s : Section) : Unasking (define s) := by
  refine Unasking.bind (fun _ => rfl) fun replaced => ?_
  refine Unasking.bind (fun _ => rfl) fun _ => ?_
  cases replaced with
  | true => exact unasking_log rfl
  | false => exact fun _ => rfl

theorem unasking_defineAll (ss : List Section) : Unasking (defineAll ss) := by
  induction ss with
  | nil => exact fun _ => rfl
  | cons s ss ih => exact (unasking_define s).bind fun _ => ih

theorem unasking_loadProgram (p : Program) : Unasking (loadProgram p) := by
  have hrest : Unasking (do
      loadStrings p.strings
      loadConstants p.constants
      defineAll (p.sections.map .ofDefinition)
      let e ← get id
      log (.programLoaded e.sections.size e.resources.strings.size e.resources.constants.size)) := by
    refine Unasking.bind (fun _ => rfl) fun _ => ?_
    refine Unasking.bind (fun _ => rfl) fun _ => ?_
    refine Unasking.bind (unasking_defineAll _) fun _ => ?_
    exact Unasking.bind (fun _ => rfl) fun _ => unasking_log rfl
  unfold loadProgram
  cases p.trusted with
  | true => exact Unasking.bind (fun _ => rfl) fun _ => hrest
  | false => exact hrest

end Action

namespace Request

/-- What a request would tell if the engine's diagnostics were on. -/
def told (n : Nat) (r : Request) (e : Engine) : List Diagnostic := (r.run n e.loud).journal

/-- Apart from requests for a re-render, the clock is read once when a render begins, and before that by a poll. -/
def readings : Request → Nat
  | .poll => 2
  | _ => 1

/-- The times of the requests for a re-render that have been counted. All of them are made during a render. -/
def times (n : Nat) (r : Request) (e : Engine) : List Nat := countedAt (e.clock.after r.readings) (r.told n e)

/-- The time of the last reading before the verdict on the requests for a re-render. -/
def judgedAt (n : Nat) (r : Request) (e : Engine) : Nat :=
  (e.clock.after (r.readings + requests (r.told n e))).now

/-- On an engine that is not trusted this is what the request tells. -/
theorem told_eq {e : Engine} (h : e.config.trusted = false) (n : Nat) (r : Request) :
    r.told n e = (r.run n e).journal := by
  rw [told, Engine.loud_eq h]

/-- The request runs no code. -/
def isPassive : Request → Bool
  | .load _ | .define _ | .strings _ | .constants _ | .trust _ | .advance _ | .lapse _ | .edit _ | .focus _
  | .register _ | .push .. | .value .. => true
  | _ => false

variable {e e' : Engine} {n : Nat} {r : Request}

/-- A request that runs no code leaves the schedule alone. Time may pass. -/
theorem passive_schedule (h : r.isPassive = true) (hr : (r.run n e).engine? = some e') :
    e'.schedule = e.schedule ∧ e.now ≤ e'.now ∧ e'.config.settle = e.config.settle := by
  have hstill : ∀ {x : Action Unit}, Action.Traces Action.Still x → (x e).engine? = some e' →
      e'.schedule = e.schedule ∧ e.now ≤ e'.now ∧ e'.config.settle = e.config.settle := by
    intro x hx he
    obtain ⟨_, halike, -⟩ := (hx e).engine he
    exact ⟨halike.schedule, Nat.le_of_eq (congrArg Clock.now halike.clock.symm), by rw [halike.config]⟩
  cases r with
  | load p =>
    obtain ⟨journal, hload⟩ := Action.loadProgram_eq p e
    rw [run, hload] at hr
    cases hr
    exact ⟨rfl, Nat.le_refl _, rfl⟩
  | define d =>
    obtain ⟨journal, hdefine⟩ := Action.define_eq (.ofDefinition d) e
    rw [run, hdefine] at hr
    cases hr
    exact ⟨rfl, Nat.le_refl _, rfl⟩
  | strings | constants | trust | lapse | edit | focus | register =>
    cases hr
    exact ⟨rfl, Nat.le_refl _, rfl⟩
  | advance time =>
    cases hr
    exact ⟨rfl, Nat.le_add_right _ _, rfl⟩
  | push site v => exact hstill (Action.traceable_still.writing.push site v) hr
  | value site raw content => exact hstill (Action.traceable_still.writing.value site raw content) hr
  | _ => cases h

/-- A request that runs no code tells of no request for a re-render. -/
theorem passive_told (h : r.isPassive = true) (n : Nat) (e : Engine) : requests (r.told n e) = 0 := by
  have hstill : ∀ {x : Action Unit}, Action.Traces Action.Still x → requests (x e.loud).journal = 0 := by
    intro x hx
    have hecho := hx e
    generalize x e = o, x e.loud = o' at hecho
    cases hecho with
    | done journal h => exact h.2
    | failed journal h => exact h.2
    | tooDeep => rfl
  cases r with
  | load p => exact Action.unasking_loadProgram p _
  | define d => exact Action.unasking_define _ _
  | strings | constants | trust | edit | focus | register | advance | lapse => rfl
  | push site v => exact hstill (Action.traceable_still.writing.push site v)
  | value site raw content => exact hstill (Action.traceable_still.writing.value site raw content)
  | _ => cases h

/-- Any other request but a poll is a turn. -/
theorem turn (hp : e.schedule.phase ≠ .rendering) (h : r.isPassive = false) (hpoll : r ≠ .poll)
    (hr : (r.run n e).engine? = some e') : e.Turn (r.told n e) e' := by
  have hcode : ∀ {x : Action Unit}, Action.Traces Asks x → (x e).engine? = some e' →
      e.Turn (x e.loud).journal e' := by
    intro x hx he
    obtain ⟨_, hasks⟩ := (hx e).engine he
    exact .outside (hasks.outside_pass hp)
  cases r with
  | boot mount => exact (Action.boot_tells n mount hp).engine hr
  | render => exact ((Action.render_tells n e).mono fun _ _ h => h.turn hp).engine hr
  | poll => exact absurd rfl hpoll
  | dispatch target event => exact ((Action.dispatch_tells n target event hp).bind_pure _ _).engine hr
  | execute code => exact hcode (Action.hereditary_asks.execute n code) hr
  | container site enclosure code =>
    exact hcode (Action.woven_asks.container site enclosure (Action.hereditary_asks.execute n code)) hr
  | conditional site code => exact hcode (Action.woven_asks.conditional site (Action.hereditary_asks.execute n code)) hr
  | perform site operation =>
    exact hcode (Action.hereditary_asks.perform (Action.hereditary_asks.execute n) site operation) hr
  | _ => cases h

/-- What a poll does: a cycle that starts without a deadline if the deadline has come, and else nothing but to tell
the storm guard the time. -/
theorem poll_cases (hr : (Request.poll.run n e).engine? = some e') :
    (e.isDue = true ∧ (Action.disarmed e).Cycle (Request.poll.told n e) e') ∨
      (e.isDue = false ∧ e' = Action.ticked e ∧ Request.poll.told n e = []) := by
  cases hd : e.isDue with
  | true => exact .inl ⟨rfl, ((Action.poll_tells_of_due n hd).bind_pure _ _).engine hr⟩
  | false =>
    have hpoll := Action.poll_of_early n hd
    have hloud := Action.poll_of_early (e := e.loud) n hd
    rw [Request.run, Action.bind_of_done hpoll] at hr
    cases hr
    exact .inr ⟨rfl, rfl, congrArg Outcome.journal (Action.bind_of_done hloud)⟩

/-- All that a request can come to. -/
inductive Answer (r : Request) (e : Engine) (told : List Diagnostic) (e' : Engine) : Prop
  | passive (hpoll : r ≠ .poll) (hs : e'.schedule = e.schedule) (hnow : e.now ≤ e'.now)
    (hsettle : e'.config.settle = e.config.settle) (ht : requests told = 0)
  | early (hpoll : r = .poll) (hd : e.isDue = false) (he : e' = Action.ticked e) (ht : told = [])
  | due (hpoll : r = .poll) (hd : e.isDue = true) (hc : (Action.disarmed e).Cycle told e')
  | turn (hpoll : r ≠ .poll) (ht : e.Turn told e')

theorem answer (hp : e.schedule.phase ≠ .rendering) (hr : (r.run n e).engine? = some e') :
    r.Answer e (r.told n e) e' := by
  by_cases hpoll : r = .poll
  · subst hpoll
    rcases poll_cases hr with ⟨hd, hc⟩ | ⟨hd, he, ht⟩
    · exact .due rfl hd hc
    · exact .early rfl hd he ht
  · cases hpassive : r.isPassive with
    | true =>
      obtain ⟨hs, hnow, hsettle⟩ := passive_schedule hpassive hr
      exact .passive hpoll hs hnow hsettle (passive_told hpassive n e)
    | false => exact .turn hpoll (turn hp hpassive hpoll hr)

end Request
end Trellis
