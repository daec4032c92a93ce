import Trellis.Proofs.Engine.Compose
import Trellis.Proofs.Engine.Mount
import Trellis.Proofs.Scheduling.Requests

/-!
# Render cycles

A render runs the main section and then gives a verdict on the requests for further renders: they are granted by a
deadline, or there have been too many of them. A cycle is what this comes to on the clock and the schedule. It depends
on the requests that the cycle would tell of, and on how the cycle ends: the output is settled, its code has failed, or
the verdict was a storm. The clock is read when the cycle begins, at each request, when requests are granted in the end,
and once more to tell how long the cycle has taken.
-/
namespace Trellis

open Diagnostic (direct counted requests countedAt)

/-- What an engine gives of a diagnostic. -/
def Engine.voice (e : Engine) (d : Diagnostic) : List Diagnostic := if e.config.trusted then [] else [d]

theorem Engine.requests_voice (e : Engine) {d : Diagnostic} (h : d.isRequest = false) : requests (e.voice d) = 0 := by
  unfold voice
  split
  · rfl
  · exact Diagnostic.requests_singleton h

/-- What is pending when a cycle ends is granted. -/
theorem Engine.ended_armed (e : Engine) :
    ∃ k deadline, e.ended = { e with clock := e.clock.after k, schedule := { e.schedule with deadline } } ∧
      Schedule.Armed e.config.settle e.now (e.clock.after k).now e.schedule.deadline
        (if e.schedule.pending then 1 else 0) deadline := by
  unfold ended rearmed
  cases e.schedule.pending with
  | false => exact ⟨1, e.schedule.deadline, rfl, .none _⟩
  | true =>
    obtain ⟨deadline, harm⟩ := e.schedule.arm_eq (e.timed.now + e.config.settle)
    have hdeadline := e.schedule.armed_arm e.config.settle e.timed.now
    rw [harm] at hdeadline
    rw [if_pos rfl, harm]
    exact ⟨2, deadline, rfl, hdeadline.widen e.clock.now_le_read (Clock.now_le_read _)⟩

namespace Action

variable {α β : Type} {e : Engine}

theorem attempt_of_done {x : Action α} {f : Except Fault α → Action β} {e' : Engine} {a : α} {j : List Diagnostic}
    (h : x e = .done a e' j) : (attempt x >>= f) e = (f (.ok a) e').after j :=
  bind_of_done (by rw [attempt, h])

theorem attempt_of_failed {x : Action α} {f : Except Fault α → Action β} {e' : Engine} {fault : Fault}
    {j : List Diagnostic} (h : x e = .failed fault e' j) : (attempt x >>= f) e = (f (.error fault) e').after j :=
  bind_of_done (by rw [attempt, h])

theorem attempt_of_tooDeep {x : Action α} {f : Except Fault α → Action β} (h : x e = .tooDeep) :
    (attempt x >>= f) e = .tooDeep :=
  bind_of_tooDeep (by rw [attempt, h])

/-- The action is never given up as too deep. -/
def Halts (x : Action α) : Prop := ∀ e, x e ≠ .tooDeep

theorem Halts.bind {x : Action α} {f : α → Action β} (hx : Halts x) (hf : ∀ a, Halts (f a)) : Halts (x >>= f) := by
  intro e
  cases hr : x e with
  | done a e' j =>
    rw [bind_of_done hr]
    cases hfa : f a e' with
    | done | failed => nofun
    | tooDeep => exact absurd hfa (hf a e')
  | failed fault e' j =>
    rw [bind_of_failed hr]
    nofun
  | tooDeep => exact absurd hr (hx e)

/-- Only running code can be given up. -/
theorem compositional_halts : Compositional @Halts where
  pure _ _ := nofun
  fail _ _ := nofun
  get _ _ := nofun
  log _ _ := nofun
  modify _ _ := nofun
  onStack f e := by
    unfold onStack
    split
    · nofun
    · nofun
  make _ _ := nofun
  onTree f e := by
    unfold onTree
    split
    · nofun
    · nofun
  ofTree f e := by
    unfold ofTree
    split
    · nofun
    · nofun
  resolve _ _ := nofun
  bind := Halts.bind
  attempt {_ x} hx e := by
    unfold attempt
    cases hr : x e with
    | tooDeep => exact absurd hr (hx e)
    | done | failed => nofun
  bracket {_ enter _ x} hx _ _ e := by
    unfold bracket
    cases hr : x (enter e) with
    | tooDeep => exact absurd hr (hx _)
    | done | failed => nofun
  onFault {_ _ x} hx _ e := by
    unfold onFault
    cases hr : x e with
    | tooDeep => exact absurd hr (hx e)
    | done | failed => nofun

/-! ### Failures -/

/-- An action that asks for nothing and leaves the clockwork alone. -/
def Still (e : Engine) (_ : Option Fault) (told : List Diagnostic) (e' : Engine) : Prop :=
  e.Alike e' ∧ requests told = 0

theorem traceable_still : Traceable Still where
  refl e := ⟨.refl e, rfl⟩
  trans := by
    rintro a b c fault told later ⟨hab, ht⟩ ⟨hbc, hl⟩
    refine ⟨⟨?_, ?_, ?_, ?_⟩, by rw [Diagnostic.requests_append, ht, hl]⟩
    · rw [hbc.config, hab.config]
    · rw [hbc.clock, hab.clock]
    · rw [hbc.schedule, hab.schedule]
    · rw [hbc.report, hab.report]
  fail e _ _ := ⟨.refl e, rfl⟩
  log e _ h := ⟨.refl e, Diagnostic.requests_singleton h⟩
  alike := by
    rintro a b c d fault told hab ⟨hbc, ht⟩ hcd
    refine ⟨⟨?_, ?_, ?_, ?_⟩, ht⟩
    · rw [hcd.config, hbc.config, hab.config]
    · rw [hcd.clock, hbc.clock, hab.clock]
    · rw [hcd.schedule, hbc.schedule, hab.schedule]
    · rw [hcd.report, hbc.report, hab.report]

theorem still_showError (report : Report) : Traces Still (showError report) :=
  traceable_still.writing.showError (fun _ => traceable_still.onTree _) report

/-- A fault has been dealt with. -/
structure Recovers (fault : Fault) (e e' : Engine) : Prop where
  config : e'.config = e.config
  clock : e'.clock = e.clock
  report : e'.report = some (.ofFault fault)
  schedule : e'.schedule = { e.schedule with phase := .failed }

theorem recover_of_shown {fault : Fault} {e' : Engine} {j : List Diagnostic}
    (h : showError (.ofFault fault) e.stopped = .done () e' j) :
    recover fault e = .done () { e' with report := some (.ofFault fault) }
      (e.voice (.failure fault.kind fault.message) ++ j) := by
  unfold recover
  rw [bind_of_done (x := log _) rfl, bind_of_done (x := modify _) rfl]
  refine (congrArg (fun o => Outcome.after _ (Outcome.after [] o)) (attempt_of_done h)).trans ?_
  change Outcome.done () _ (_ ++ ([] ++ (j ++ ([] ++ [])))) = _
  simp only [List.append_nil, List.nil_append]
  rfl

theorem recover_of_unshown {fault shown : Fault} {e' : Engine} {j : List Diagnostic}
    (h : showError (.ofFault fault) e.stopped = .failed shown e' j) :
    recover fault e = .done () { e' with report := some (.ofFault fault) }
      (e.voice (.failure fault.kind fault.message) ++ (j ++ e'.voice (.displayFailed shown.message))) := by
  unfold recover
  rw [bind_of_done (x := log _) rfl, bind_of_done (x := modify _) rfl]
  refine (congrArg (fun o => Outcome.after _ (Outcome.after [] o)) (attempt_of_failed h)).trans ?_
  change Outcome.done () _ (_ ++ ([] ++ (j ++ (_ ++ [])))) = _
  simp only [List.append_nil, List.nil_append]
  rfl

/-- Dealing with a fault always ends, and asks for nothing. -/
theorem recover_done (fault : Fault) (e : Engine) :
    ∃ e' journal told, recover fault e = .done () e' journal ∧ recover fault e.loud = .done () e'.loud told ∧
      Recovers fault e e' ∧ requests told = 0 := by
  have hfailure : requests (e.loud.voice (.failure fault.kind fault.message)) = 0 := e.loud.requests_voice rfl
  rcases (still_showError (.ofFault fault) e.stopped).elim with
    ⟨_, e', j, told, hrun, hloud, hsame, ht⟩ | ⟨shown, e', j, told, hrun, hloud, hsame, ht⟩ | ⟨hrun, -⟩
  · refine ⟨_, _, _, recover_of_shown hrun, recover_of_shown (e := e.loud) hloud,
      ⟨hsame.config, hsame.clock, rfl, hsame.schedule⟩, ?_⟩
    rw [Diagnostic.requests_append, hfailure, ht]
  · refine ⟨_, _, _, recover_of_unshown hrun, recover_of_unshown (e := e.loud) hloud,
      ⟨hsame.config, hsame.clock, rfl, hsame.schedule⟩, ?_⟩
    rw [Diagnostic.requests_append, Diagnostic.requests_append, hfailure, ht, Engine.requests_voice _ rfl]
  · exact absurd hrun (compositional_halts.showError _ _)

/-! ### The pass and the verdict -/

/-- Empties the mounted node and runs the main section on it. -/
def rebuild (n : Nat) : Action Unit := do
  let mount ← get (·.mount)
  onTree (·.clear mount)
  onTree (·.removeAttribute mount "style")
  onTree (·.removeAttribute mount "class")
  modify fun e => { e with stack := [], frames := e.frames.truncate 1, listeners := [], focus := none }
  invoke n Engine.rootSite mainLabel .renderable

/-- Refuses a pass that has been asked for too many re-renders. -/
def judge : Action Unit := do
  let e ← get id
  if !e.config.trusted && e.schedule.storm.exceeded then
    modify fun e => { e with schedule := { e.schedule with pending := false } }
    fail (.storm e.schedule.storm.quota)

theorem renderPass_eq (n : Nat) : renderPass n = rebuild n >>= fun _ => judge := by
  simp only [rebuild, bind_assoc]
  rfl

theorem renderPass_of_granted {n : Nat} {e' : Engine} {j : List Diagnostic} (hrun : rebuild n e = .done () e' j)
    (hs : (!e'.config.trusted && e'.schedule.storm.exceeded) = false) : renderPass n e = .done () e' j := by
  rw [renderPass_eq, bind_of_done hrun]
  unfold judge
  rw [bind_of_done (x := get id) rfl]
  dsimp only [id]
  rw [if_neg (by rw [hs]; exact Bool.false_ne_true)]
  exact congrArg (Outcome.done () e') (List.append_nil j)

theorem renderPass_of_refused {n : Nat} {e' : Engine} {j : List Diagnostic} (hrun : rebuild n e = .done () e' j)
    (hs : (!e'.config.trusted && e'.schedule.storm.exceeded) = true) :
    renderPass n e = .failed (.storm e'.schedule.storm.quota)
      { e' with schedule := { e'.schedule with pending := false } } j := by
  rw [renderPass_eq, bind_of_done hrun]
  unfold judge
  rw [bind_of_done (x := get id) rfl]
  dsimp only [id]
  rw [if_pos hs]
  exact congrArg (Outcome.failed _ _) (List.append_nil j)

theorem asks_rebuild (n : Nat) : Traces Asks (rebuild n) := by
  refine traceable_asks.bind (traceable_asks.get fun _ => rfl) fun mount => ?_
  refine traceable_asks.bind (traceable_asks.onTree _) fun _ => ?_
  refine traceable_asks.bind (traceable_asks.onTree _) fun _ => ?_
  refine traceable_asks.bind (traceable_asks.onTree _) fun _ => ?_
  refine traceable_asks.bind (traceable_asks.changing (fun _ => ⟨rfl, rfl, rfl, rfl⟩) fun _ => rfl) fun _ => ?_
  exact hereditary_asks.invoke n _ _ _

theorem render_of_passed {n : Nat} {e' : Engine} {j : List Diagnostic}
    (hp : renderPass n e.started = .done () e' j) :
    ∃ rest, requests rest = 0 ∧ render n e = .done ()
      (Engine.ended { e' with schedule := { e'.schedule with phase := .idle }, report := none }) (j ++ rest) := by
  let e₁ : Engine := { e' with schedule := { e'.schedule with phase := .idle }, report := none }
  refine ⟨e₁.voice (finished e.timed.now e₁.ended), e₁.requests_voice rfl, ?_⟩
  rw [render_eq, attempt_of_done hp]
  dsimp only
  rw [bind_of_done (x := modify _) rfl, finish_eq]
  rfl

theorem render_of_faulted {n : Nat} {fault : Fault} {e₁ e₂ : Engine} {j j' : List Diagnostic}
    (hp : renderPass n e.started = .failed fault e₁ j) (hr : recover fault e₁ = .done () e₂ j') :
    ∃ rest, requests rest = requests j' ∧ render n e = .done () e₂.ended (j ++ rest) := by
  refine ⟨j' ++ e₂.voice (finished e.timed.now e₂.ended), ?_, ?_⟩
  · rw [Diagnostic.requests_append, Engine.requests_voice _ rfl, Nat.add_zero]
  · rw [render_eq, attempt_of_failed hp]
    dsimp only
    rw [bind_of_done hr, finish_eq]
    rfl

end Action

/-! ### Cycles -/

/-- How a render cycle ends that would tell of some requests, and how many of these are granted. Unless it is refused
as a storm, all of them are; a storm leaves those that had set the deadline already. -/
inductive Engine.Verdict (e : Engine) (told : List Diagnostic) (e' : Engine) : Nat → Prop
  | settled (phase : e'.schedule.phase = .idle) (report : e'.report = none)
    (guard : e.config.trusted = true ∨ e'.schedule.storm.exceeded = false) : Verdict e told e' (requests told)
  | failed (fault : Fault) (calm : fault.isStorm = false) (phase : e'.schedule.phase = .failed)
    (report : e'.report = some (.ofFault fault)) : Verdict e told e' (requests told)
  | stormed (untrusted : e.config.trusted = false) (exceeded : e'.schedule.storm.exceeded = true)
    (phase : e'.schedule.phase = .failed) (report : e'.report = some (.ofFault (.storm e'.schedule.storm.quota))) :
    Verdict e told e' (direct told)

/-- A render has taken an engine to another one, and would tell of some requests. -/
structure Engine.Cycle (e : Engine) (told : List Diagnostic) (e' : Engine) : Prop where
  config : e'.config = e.config
  /-- The clock has been read at the start, by the requests, and afterwards. -/
  clock : ∃ k, e'.clock = e.clock.after (1 + requests told + k)
  renders : e'.schedule.renders = e.schedule.renders + 1
  storm : e'.schedule.storm = e.schedule.storm.countAll (countedAt e.clock.read told)
  verdict : ∃ granted, e.Verdict told e' granted ∧
    Schedule.Armed e.config.settle e.timed.now e'.now e.schedule.deadline granted e'.schedule.deadline

namespace Engine

variable {e e₁ : Engine} {told rest : List Diagnostic}

theorem Cycle.append (h : e.Cycle told e₁) (hr : requests rest = 0) : e.Cycle (told ++ rest) e₁ := by
  have hdirect : direct (told ++ rest) = direct told := by
    unfold requests at hr
    rw [Diagnostic.direct_append]
    omega
  have hcounted : counted rest = 0 := by
    unfold requests at hr
    omega
  have hrequests : requests (told ++ rest) = requests told := by rw [Diagnostic.requests_append, hr, Nat.add_zero]
  refine ⟨h.config, by rw [hrequests]; exact h.clock, h.renders, ?_, ?_⟩
  · rw [h.storm, Diagnostic.countedAt_append, Diagnostic.countedAt_eq_nil hcounted, List.append_nil]
  · obtain ⟨granted, hverdict, hdeadline⟩ := h.verdict
    refine ⟨granted, ?_, hdeadline⟩
    cases hverdict with
    | settled phase report guard => exact hrequests ▸ .settled phase report guard
    | failed fault calm phase report => exact hrequests ▸ .failed fault calm phase report
    | stormed untrusted exceeded phase report => exact hdirect ▸ .stormed untrusted exceeded phase report

end Engine

namespace Asks

variable {e e₁ e₂ : Engine} {fault : Fault} {told : List Diagnostic}

/-- The code of a cycle has run, and the engine that it has left has been given a phase and a report. What is still
pending is granted. -/
theorem cycle {ended : Option Fault} (h : Asks e.started ended told e₁) {phase : Phase} {pending : Bool}
    (hconfig : e₂.config = e₁.config) (hclock : e₂.clock = e₁.clock)
    (hschedule : e₂.schedule = { e₁.schedule with phase, pending }) {granted : Nat}
    (hgranted : direct told + (if pending then 1 else 0) = 0 ↔ granted = 0)
    (hverdict : ∀ clock deadline,
      e.Verdict told { e₂ with clock, schedule := { e₂.schedule with deadline } } granted) :
    e.Cycle told e₂.ended := by
  obtain ⟨k, deadline, hended, harmed⟩ := e₂.ended_armed
  have hpass : Schedule.Armed e.config.settle e.timed.now e₁.now e.schedule.deadline (direct told)
    e₁.schedule.deadline := h.deadline
  have hstart : e₁.clock = e.clock.read.after (requests told) := h.clock
  rw [hconfig, Engine.now, hclock, hschedule, h.config] at harmed
  rw [hended, hclock, hstart, Clock.after_after]
  refine ⟨hconfig.trans h.config, ⟨k, ?_⟩, ?_, ?_, granted, hverdict _ _, ?_⟩
  · rw [Nat.add_assoc, Clock.after_one_add]
  · rw [hschedule]
    exact h.renders
  · rw [hschedule]
    exact h.storm
  · rw [← Clock.after_after, ← hstart]
    exact (hpass.trans harmed h.now_le (e₁.clock.now_le_after k)).congr hgranted

/-- Where everything is granted, what is pending when the code has run is all that has not set the deadline. -/
theorem granted_iff {ended : Option Fault} (h : Asks e.started ended told e₁) :
    direct told + (if e₁.schedule.pending then 1 else 0) = 0 ↔ requests told = 0 := by
  have hpending : e₁.schedule.pending = decide (0 < requests told) := h.pending
  rw [hpending, requests]
  by_cases hpos : 0 < direct told + counted told
  · rw [if_pos (decide_eq_true hpos)]
    omega
  · rw [if_neg fun h => hpos (of_decide_eq_true h)]
    omega

theorem settled (h : Asks e.started none told e₁)
    (hg : e.config.trusted = true ∨ e₁.schedule.storm.exceeded = false) :
    e.Cycle told (Engine.ended { e₁ with schedule := { e₁.schedule with phase := .idle }, report := none }) :=
  h.cycle rfl rfl rfl h.granted_iff fun _ _ => .settled rfl rfl hg

theorem failed (h : Asks e.started (some fault) told e₁) (hr : Action.Recovers fault e₁ e₂) :
    e.Cycle told e₂.ended := by
  refine h.cycle hr.config hr.clock hr.schedule h.granted_iff fun _ _ => ?_
  rw [hr.schedule]
  exact .failed fault (h.calm fault rfl) rfl hr.report

theorem stormed (h : Asks e.started none told e₁) (ht : e.config.trusted = false)
    (hs : e₁.schedule.storm.exceeded = true)
    (hr : Action.Recovers (.storm e₁.schedule.storm.quota)
      { e₁ with schedule := { e₁.schedule with pending := false } } e₂) : e.Cycle told e₂.ended := by
  refine h.cycle hr.config hr.clock hr.schedule (Iff.of_eq rfl) fun _ _ => ?_
  rw [hr.schedule]
  exact .stormed ht hs rfl hr.report

end Asks

/-- Two outcomes that need not be the same: the first is that of an engine, the second tells what it does. -/
inductive Outcome.Tells {α : Type} (P : List Diagnostic → Engine → Prop) : Outcome α → Outcome α → Prop
  | done {a a' : α} {e e' : Engine} {journal told : List Diagnostic} (h : P told e) :
    Tells P (.done a e journal) (.done a' e' told)
  | tooDeep : Tells P .tooDeep .tooDeep

namespace Action

variable {e : Engine}

/-- The code has ended without a fault. The verdict on it is the same for the engine and its loud copy unless the
engine is trusted and has been asked for too many re-renders. -/
theorem render_tells_of_rebuilt {n : Nat} {e e₁ : Engine} {j told : List Diagnostic}
    (hrun : rebuild n e.started = .done () e₁ j) (hloud : rebuild n e.loud.started = .done () e₁.loud told)
    (hasks : Asks e.started none told e₁) : (render n e).Tells e.Cycle (render n e.loud) := by
  have htrusted : e₁.config.trusted = e.config.trusted := congrArg Config.trusted hasks.config
  cases hs : e₁.schedule.storm.exceeded with
  | false =>
    have hpass := renderPass_of_granted hrun (by rw [hs, Bool.and_false])
    have hpass' := renderPass_of_granted hloud hs
    obtain ⟨_, -, hrender⟩ := render_of_passed hpass
    obtain ⟨rest, hrest, hrender'⟩ := render_of_passed hpass'
    rw [hrender, hrender']
    exact .done ((hasks.settled (.inr hs)).append hrest)
  | true =>
    have hpass' := renderPass_of_refused hloud hs
    obtain ⟨e₂, _, told₂, -, hrec', -, ht₂⟩ := recover_done (.storm e₁.schedule.storm.quota)
      { e₁ with schedule := { e₁.schedule with pending := false } }
    obtain ⟨rest, hrest, hrender'⟩ := render_of_faulted hpass' hrec'
    rw [hrender']
    cases ht : e.config.trusted with
    | true =>
      have hpass := renderPass_of_granted hrun (by rw [htrusted, ht]; rfl)
      obtain ⟨_, -, hrender⟩ := render_of_passed hpass
      rw [hrender]
      exact .done ((hasks.settled (.inl ht)).append (hrest.trans ht₂))
    | false =>
      have hpass := renderPass_of_refused hrun (by rw [htrusted, ht, hs]; rfl)
      obtain ⟨e₃, _, _, hrec, -, hrecovers, -⟩ := recover_done (.storm e₁.schedule.storm.quota)
        { e₁ with schedule := { e₁.schedule with pending := false } }
      obtain ⟨_, -, hrender⟩ := render_of_faulted hpass hrec
      rw [hrender]
      exact .done ((hasks.stormed ht hs hrecovers).append (hrest.trans ht₂))

/-- A render is a cycle. The loud copy of the engine tells of its requests, even if only the copy is refused. -/
theorem render_tells (n : Nat) (e : Engine) : (render n e).Tells e.Cycle (render n e.loud) := by
  rcases (asks_rebuild n e.started).elim with
    ⟨_, e₁, j, told, hrun, hloud, hasks⟩ | ⟨fault, e₁, j, told, hrun, hloud, hasks⟩ | ⟨hrun, hloud⟩
  · exact render_tells_of_rebuilt hrun hloud hasks
  · have hpass : renderPass n e.started = .failed fault e₁ j := by rw [renderPass_eq, bind_of_failed hrun]
    have hpass' : renderPass n e.loud.started = .failed fault e₁.loud told := by
      rw [renderPass_eq]
      exact bind_of_failed hloud
    obtain ⟨e₂, _, told₂, hrec, hrec', hrecovers, ht₂⟩ := recover_done fault e₁
    obtain ⟨_, -, hrender⟩ := render_of_faulted hpass hrec
    obtain ⟨rest, hrest, hrender'⟩ := render_of_faulted hpass' hrec'
    rw [hrender, hrender']
    exact .done ((hasks.failed hrecovers).append (hrest.trans ht₂))
  · have hpass : renderPass n e.started = .tooDeep := by rw [renderPass_eq, bind_of_tooDeep hrun]
    have hpass' : renderPass n e.loud.started = .tooDeep := by rw [renderPass_eq]; exact bind_of_tooDeep hloud
    rw [render_of_tooDeep hpass, render_of_tooDeep hpass']
    exact .tooDeep

end Action
end Trellis
