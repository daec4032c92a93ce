import Trellis.Proofs.Engine.Settled
import Trellis.Proofs.Scheduling.Window

/-!
# The storm bound

An engine that is not trusted lets no more cycles succeed in a window than the quota says, of those that ask for another
render while they run, as long as the guard's counter can exceed the quota. What the guard objects to has been counted
since it was last told the time. The verdict on a render does not tell it the time, and so may rest on a window that
has passed: this is the case exactly if nothing has been counted in the present one.
-/
namespace Trellis

open Diagnostic (requests)

namespace Engine

variable {config : Config} {steps : List Step} {e e' : Engine}

/-! ### Verdicts -/

variable {told : List Diagnostic}

/-- An engine that is not trusted ends a cycle idle only if the guard does not object. -/
theorem Cycle.not_exceeded (h : e.Cycle told e') (hu : e.config.trusted = false) (hp : e'.schedule.phase = .idle) :
    e'.schedule.storm.exceeded = false := by
  obtain ⟨granted, hverdict, -⟩ := h.verdict
  cases hverdict with
  | settled phase report guard => exact guard.resolve_left fun ht => nomatch hu.symm.trans ht
  | failed fault calm phase => exact nomatch phase.symm.trans hp
  | stormed untrusted exceeded phase => exact nomatch phase.symm.trans hp

theorem Cycle.failed_of_exceeded (h : e.Cycle told e') (hu : e.config.trusted = false)
    (hx : e'.schedule.storm.exceeded = true) : e'.schedule.phase = .failed := by
  obtain ⟨granted, hverdict, -⟩ := h.verdict
  cases hverdict with
  | settled phase => exact nomatch hx.symm.trans (h.not_exceeded hu phase)
  | failed fault calm phase => exact phase
  | stormed untrusted exceeded phase => exact phase

/-- A step that counts something, or renders, is one cycle of an engine that is not trusted. At its verdict the guard's
count is in line with the history. -/
theorem Run.cycle_at {s : Step} (h : Run config (s :: steps) e) (hw : 0 < config.window)
    (hs : s.times ≠ [] ∨ s.before.schedule.renders < s.after.schedule.renders) :
    ∃ (e₁ : Engine) (during : List Diagnostic), e₁.config.trusted = false ∧
      e₁.schedule.renders = s.before.schedule.renders ∧ e₁.Cycle during s.after ∧
      Tallies config (times (s :: steps)) s.judged s.after.schedule.storm := by
  cases h with
  | request n r h hu hr =>
    cases h.reachable.timely.effect hr with
    | idle ht hrenders =>
      rcases hs with hs | hs
      · exact absurd ht hs
      · exact absurd hs (Nat.not_lt_of_le (Nat.le_of_eq hrenders))
    | cycle hconfig hrenders hc hg hstorm _ =>
      exact ⟨_, _, hconfig ▸ hu, hrenders, hc, hstorm ▸ (h.tallies hw).judged hw hg⟩

/-- The requests that a step has counted fall into the window of the verdict on them. -/
def Step.Brief (window : Nat) (s : Step) : Prop := ∀ t ∈ s.times, t / window = s.judged / window

/-- This is so if the clock stands still while the request is answered. -/
theorem Step.brief_of_still {s : Step} (h : s.before.clock.lapses = []) (window : Nat) : s.Brief window := by
  have hafter : ∀ k, s.before.clock.after k = s.before.clock := Clock.after_of_still h
  intro t ht
  rw [Step.times, Request.times, hafter] at ht
  rw [Step.judged, Request.judgedAt, hafter, Diagnostic.eq_now_of_still h ht]

/-- When a step succeeds that counts something, no more than the quota has been counted so far in the window of its
verdict. -/
theorem Run.requestsIn_le_quota {s : Step} (h : Run config (s :: steps) e) (hw : 0 < config.window)
    (hsize : config.window < UInt64.size) (hq : config.quota < StormGuard.ceiling) (ht : s.times ≠ [])
    (hs : s.succeeds = true) :
    requestsIn config.window (s.judged / config.window) (s :: steps) ≤ config.quota := by
  obtain ⟨e₁, during, hu, -, hc, htallies⟩ := h.cycle_at hw (.inl ht)
  have hcalm := hc.not_exceeded hu (of_decide_eq_true hs)
  refine Nat.le_trans (htallies.countP_le hw hsize) (Nat.le_of_not_lt fun hlt => ?_)
  exact nomatch hcalm.symm.trans (htallies.exceeded hq hlt)

theorem Run.successes_le (h : Run config steps e) (hw : 0 < config.window) (hsize : config.window < UInt64.size)
    (hq : config.quota < StormGuard.ceiling) (hbrief : ∀ s ∈ steps, s.Brief config.window) (k : Nat) :
    steps.countP (fun s => s.countsIn config.window k && s.succeeds) ≤ config.quota := by
  induction h with
  | new => exact Nat.zero_le _
  | @request steps e e' n r h hu hr ih =>
    obtain ⟨hnew, hold⟩ := List.forall_mem_cons.1 hbrief
    by_cases hs : (Step.countsIn config.window k ⟨n, r, e, e'⟩ && Step.succeeds ⟨n, r, e, e'⟩) = true
    · obtain ⟨hcounts, hsucceeds⟩ := Bool.and_eq_true_iff.1 hs
      obtain ⟨t, ht, hwindow⟩ := List.any_eq_true.1 hcounts
      obtain rfl : t / config.window = k := of_decide_eq_true hwindow
      have hle := (h.request n r hu hr).requestsIn_le_quota hw hsize hq (List.ne_nil_of_mem ht) hsucceeds
      rw [← hnew t ht] at hle
      refine Nat.le_trans (List.countP_mono_left fun s _ hs => ?_) (Nat.le_trans (countP_countsIn_le _ _ _) hle)
      exact (Bool.and_eq_true_iff.1 hs).1
    · rw [List.countP_cons, if_neg hs]
      exact ih hold

/-- The storm bound. In each window, at most as many cycles succeed that count requests as the quota says. A cycle that
comes after as many in its window fails. This needs a counter that can exceed the quota, and a clock that does not move
on to another window while a render counts requests, in particular one that stands still meanwhile. -/
theorem storm_bound (h : Run config steps e) (hw : 0 < config.window) (hsize : config.window < UInt64.size)
    (hq : config.quota < StormGuard.ceiling) (hbrief : ∀ s ∈ steps, s.Brief config.window) :
    (∀ k, steps.countP (fun s => s.countsIn config.window k && s.succeeds) ≤ config.quota) ∧
      ∀ later s earlier, steps = later ++ s :: earlier → ∀ t ∈ s.times,
        s.after.schedule.renders = s.before.schedule.renders + 1 ∧
          (config.quota ≤ earlier.countP (·.countsIn config.window (t / config.window)) →
            s.after.schedule.phase = .failed) := by
  refine ⟨h.successes_le hw hsize hq hbrief, ?_⟩
  rintro later s earlier rfl t ht
  obtain ⟨e₁, during, hu, hrenders, hc, htallies⟩ := h.at.cycle_at hw (.inl (List.ne_nil_of_mem ht))
  refine ⟨hc.renders.trans (by rw [hrenders]), fun hmany => hc.failed_of_exceeded hu ?_⟩
  rw [hbrief s (List.mem_append_right _ List.mem_cons_self) t ht] at hmany
  refine htallies.exceeded hq (Nat.lt_of_lt_of_le ?_ (htallies.countP_le hw hsize))
  refine Nat.lt_of_lt_of_le (Nat.lt_succ_of_le hmany) (Nat.le_trans ?_ (countP_countsIn_le _ _ _))
  have hcounts : s.countsIn config.window (s.judged / config.window) = true :=
    List.any_eq_true.2 ⟨t, ht, decide_eq_true (hbrief s (List.mem_append_right _ List.mem_cons_self) t ht)⟩
  refine Nat.le_of_eq ?_
  rw [List.countP_cons, if_pos hcounts]

/-- With a quota of one, the second render of the restless program fails. -/
theorem storm_bound_restless :
    ∃ s steps e, Run { quota := 1 } (s :: steps) e ∧
      steps.countP (fun s => s.countsIn 1000000000 0 && s.succeeds) = 1 ∧ s.times = [1020] ∧
      s.after.schedule.phase = .failed := by
  obtain ⟨s, steps, e, h, hs⟩ := exists_run_of_replay { quota := 1 } 2
    [.render, .lapse [1000, 20], .render, .load restless]
    (fun s steps => (s.times, steps.countP (fun s => s.countsIn 1000000000 0 && s.succeeds),
      steps.countP (·.countsIn 1000000000 0),
      (s :: steps).all fun s => s.times.all fun t => t / 1000000000 = s.judged / 1000000000))
    (b := ([1020], 1, 1, true)) (by decide +kernel)
  simp only [Prod.mk.injEq] at hs
  obtain ⟨htimes, hsucceeds, hcounts, hbrief⟩ := hs
  refine ⟨s, steps, e, h, hsucceeds, htimes, ?_⟩
  have hall : ∀ s' ∈ s :: steps, s'.Brief 1000000000 := fun s' hs' t ht =>
    of_decide_eq_true (List.all_eq_true.1 (List.all_eq_true.1 hbrief s' hs') t ht)
  have ht : 1020 ∈ s.times := by
    rw [htimes]
    exact List.mem_cons_self
  have hbound := storm_bound h (by decide) (by decide) (by decide) hall
  exact (hbound.2 [] s steps rfl 1020 ht).2 (Nat.le_of_eq hcounts.symm)

/-! ### Where the counter ends -/

/-- The main section of the restless program. -/
def again : Section := .ofDefinition ⟨mainLabel, true, [.single (.symbol "again") .render]⟩

/-- An engine that can render the main section of the restless program, with a quota that the counter cannot exceed. -/
structure Unbounded (e : Engine) : Prop extends Ready e where
  main : e.sections.find mainLabel = .ok again
  untrusted : e.config.trusted = false
  quota : StormGuard.ceiling ≤ e.schedule.storm.quota

/-- Running it in a render pass makes one request, which is counted. -/
theorem execute_again (hp : e.schedule.phase = .rendering) (hmode : e.context.mode = .renderable)
    (hu : e.config.trusted = false) :
    ∃ e' journal, Action.execute 1 [.single (.symbol "again") .render] e = .done () e' journal ∧
      Diagnostic.counted journal = 1 ∧ e'.sections = e.sections ∧ e'.config = e.config ∧
      e'.schedule.storm = (e.schedule.storm.tick e.timed.now).record := by
  let e₁ : Engine := { e with sites := (e.sites.resolve (.symbol "again")).2 }
  let site := (e.sites.resolve (.symbol "again")).1
  have hresolve : Action.resolve (.symbol "again") e = .done site e₁ [] := rfl
  have hcounted : ¬(e₁.schedule.phase ≠ .rendering ∨ e₁.context.mode = .callable) := by
    change ¬(e.schedule.phase ≠ .rendering ∨ e.context.mode = .callable)
    rw [hp, hmode]
    decide
  have hrerender := Action.rerender_of_counted site hcounted
  rw [show e₁.config.trusted = false from hu, if_neg Bool.false_ne_true] at hrerender
  have hstep : Action.step (Action.execute 0) (.single (.symbol "again") .render) e =
      (Action.rerender site e₁).after [] := Action.bind_of_done hresolve
  rw [hrerender] at hstep
  exact ⟨_, _, Action.bind_of_done hstep, rfl, rfl, rfl, rfl⟩

theorem invoke_again (hm : e.sections.find mainLabel = .ok again) (hf : e.frames = [rootFrame e.mount])
    (hp : e.schedule.phase = .rendering) (hu : e.config.trusted = false) :
    ∃ e' journal, Action.invoke 1 rootSite mainLabel .renderable e = .done () e' journal ∧
      Diagnostic.counted journal = 1 ∧ e'.sections = e.sections ∧ e'.config = e.config ∧
      e'.schedule.storm = (e.schedule.storm.tick e.timed.now).record := by
  have hallowed : Action.discipline again .renderable e = .done () e [] := by
    have hframe : Action.get (·.frames.head?) e = .done (some (rootFrame e.mount)) e [] := by
      rw [Action.get, hf]
      rfl
    unfold Action.discipline
    dsimp only
    rw [Action.bind_of_done hframe]
    rfl
  have hcall : Action.invoke 1 rootSite mainLabel .renderable e =
      (Action.withContext ⟨.renderable, again⟩ (Action.execute 1 [.single (.symbol "again") .render]) e).after
        (e.voice (.call (e.sites.label rootSite) mainLabel .renderable)) := by
    unfold Action.invoke Action.call
    rw [Action.bind_of_done (x := Action.get _) rfl, hm, Action.bind_of_done (x := Action.ofExcept _) rfl,
      Action.bind_of_done hallowed, Action.bind_of_done (x := Action.label _) rfl,
      Action.bind_of_done (x := Action.log _) rfl]
    simp only [Outcome.after_nil]
    rfl
  obtain ⟨e', journal, hrun, hcounted, hsections, hconfig, hstorm⟩ :=
    execute_again (e := { e with context := ⟨.renderable, again⟩ }) hp rfl hu
  have hvoice := e.requests_voice (d := .call (e.sites.label rootSite) mainLabel .renderable) rfl
  rw [hcall, Action.withContext, Action.bracket, hrun]
  refine ⟨{ e' with context := e.context }, _, rfl, ?_, hsections, hconfig, hstorm⟩
  rw [Diagnostic.counted_append, hcounted]
  unfold requests at hvoice
  omega

/-- Rendering it succeeds, and leaves an engine of the same kind. -/
theorem Unbounded.render (he : e.Unbounded) :
    ∃ e' journal, Action.render 1 e = .done () e' journal ∧ 0 < Diagnostic.counted journal ∧
      e'.schedule.phase = .idle ∧ e'.Unbounded := by
  obtain ⟨-, -, -, -, -, -, hpass⟩ := @Action.renderPass_of_blank e.started 1 he.sound he.mounted
  rw [blank_started] at hpass
  have hframes : (e.started.emptied e.blank).frames = [rootFrame e.mount] := by
    change Frames.truncate 1 e.frames = _
    rw [he.frames]
    rfl
  obtain ⟨e₁, journal, hrun, hcounted, hsections, hconfig, hstorm⟩ :=
    invoke_again (e := e.started.emptied e.blank) he.main hframes rfl he.untrusted
  have hquota : e₁.schedule.storm.quota = e.schedule.storm.quota := by
    rw [hstorm]
    exact StormGuard.quota_tick _ _
  have hcalm : e₁.schedule.storm.exceeded = false := by
    refine decide_eq_false (Nat.not_lt_of_le ?_)
    rw [hquota, hstorm]
    exact Nat.le_trans (Nat.min_le_right _ _) he.quota
  rw [hrun] at hpass
  dsimp only at hpass
  rw [hcalm, Bool.and_false, if_neg Bool.false_ne_true] at hpass
  obtain ⟨rest, -, hrender⟩ := Action.render_of_passed hpass
  have hends := (Action.render_ends he.toReady 1).engine (congrArg Outcome.engine? hrender)
  obtain ⟨_, _, hended, -⟩ := ended_armed { e₁ with schedule := { e₁.schedule with phase := .idle }, report := none }
  rw [hended] at hrender hends
  refine ⟨_, _, hrender, ?_, rfl, ⟨hends.settled.toReady, ?_, ?_, ?_⟩⟩
  · rw [Diagnostic.counted_append, hcounted]
    omega
  · exact (congrArg (Sections.find · mainLabel) hsections).trans he.main
  · exact (congrArg Config.trusted hconfig).trans he.untrusted
  · exact Nat.le_trans he.quota (Nat.le_of_eq hquota.symm)

theorem unbounded_loaded : ((Engine.new { quota := StormGuard.ceiling }).loaded restless).Unbounded where
  toAtRest := (reachable_loaded _ _).atRest
  mounted := ⟨_, rfl, rfl⟩
  main := rfl
  untrusted := rfl
  quota := Nat.le_refl _

/-- Any number of cycles of the restless program succeed in one window, if the counter cannot exceed the quota. -/
theorem exists_run_unbounded (n : Nat) :
    ∃ steps e, Run { quota := StormGuard.ceiling } steps e ∧ e.Unbounded ∧ e.clock = .new ∧
      (∀ s ∈ steps, s.before.clock.lapses = []) ∧
      steps.countP (fun s => s.countsIn 1000000000 0 && s.succeeds) = n := by
  induction n with
  | zero =>
    obtain ⟨journal, hload⟩ := Action.loadProgram_eq restless (.new { quota := StormGuard.ceiling })
    have h := Run.new.request 0 (.load restless) rfl (congrArg Outcome.engine? hload)
    refine ⟨_, _, h, unbounded_loaded, rfl, List.forall_mem_singleton.2 rfl, ?_⟩
    -- the only step is the load, which counts nothing
    have hnone := Request.passive_told (r := .load restless) rfl 0 (.new { quota := StormGuard.ceiling })
    have htimes : (Request.load restless).times 0 (.new { quota := StormGuard.ceiling }) = [] :=
      Diagnostic.countedAt_eq_nil (Nat.add_eq_zero_iff.1 hnone).2 _
    refine List.countP_eq_zero.2 (List.forall_mem_singleton.2 ?_)
    rw [Step.countsIn, Step.times, htimes]
    exact Bool.false_ne_true
  | succ n ih =>
    obtain ⟨steps, e, h, he, hclock, hstill, hcount⟩ := ih
    obtain ⟨e', journal, hrender, hcounted, hphase, he'⟩ := he.render
    have hrun : (Request.render.run 1 e).engine? = some e' := congrArg Outcome.engine? hrender
    have hafter : ∀ k, e.clock.after k = .new := fun k => by rw [hclock, Clock.after_of_still rfl]
    refine ⟨_, e', h.request 1 .render he.untrusted hrun, he', ?_, ?_, ?_⟩
    · obtain ⟨k, hend⟩ := ((Action.render_tells 1 e).engine hrun).clock
      rw [hend, hafter]
    · exact List.forall_mem_cons.2 ⟨by rw [hclock]; rfl, hstill⟩
    · have htold : Request.render.told 1 e = journal :=
        (Request.told_eq he.untrusted 1 .render).trans (congrArg Outcome.journal hrender)
      have hcounts : Step.countsIn 1000000000 0 ⟨1, .render, e, e'⟩ = true := by
        obtain ⟨t, ht⟩ := List.exists_mem_of_length_pos (Nat.lt_of_lt_of_eq hcounted
          (Diagnostic.length_countedAt .new journal).symm)
        have htimes : Step.times ⟨1, .render, e, e'⟩ = Diagnostic.countedAt .new journal := by
          rw [Step.times, Request.times, hafter, htold]
        refine List.any_eq_true.2 ⟨t, htimes ▸ ht, ?_⟩
        rw [Diagnostic.eq_now_of_still rfl ht]
        rfl
      have hsucceeds : Step.succeeds ⟨1, .render, e, e'⟩ = true := decide_eq_true hphase
      rw [List.countP_cons, hcount, hcounts, hsucceeds]
      rfl

/-- So the storm bound fails for the quota that is the ceiling of the counter, also with a clock that never moves. -/
theorem storm_bound_saturated :
    ∃ steps e, Run { quota := StormGuard.ceiling } steps e ∧ (∀ s ∈ steps, s.before.clock.lapses = []) ∧
      StormGuard.ceiling < steps.countP (fun s => s.countsIn 1000000000 0 && s.succeeds) := by
  obtain ⟨steps, e, h, -, -, hstill, hcount⟩ := exists_run_unbounded (StormGuard.ceiling + 1)
  exact ⟨steps, e, h, hstill, by omega⟩

/-! ### Stale verdicts -/

/-- A poll that renders has told the guard the time, so that the guard's window is the present one, unless the clock has
moved on to another window meanwhile. -/
theorem Run.le_start_of_poll {s : Step} (h : Run config (s :: steps) e) (hw : 0 < config.window)
    (hsize : config.window < UInt64.size) (hp : s.request = .poll)
    (hrenders : s.before.schedule.renders < s.after.schedule.renders)
    (hsame : s.before.timed.now / config.window = s.judged / config.window) :
    s.judged / config.window * config.window ≤ s.after.schedule.storm.start := by
  cases h with
  | @request _ e₁ _ n r h hu hr =>
    cases h.reachable.timely.effect hr with
    | idle _ hnone => exact absurd hrenders (Nat.not_lt_of_le (Nat.le_of_eq hnone))
    | cycle _ _ _ hg hstorm _ =>
      rcases hg with ⟨hpoll, -⟩ | ⟨-, rfl⟩
      · exact absurd hp hpoll
      have htold : Tallies config (times steps) e₁.timed.now (e₁.schedule.storm.tick e₁.timed.now) :=
        ((h.tallies hw).later e₁.clock.now_le_read).tick hw
      rw [← hsame]
      refine Nat.le_trans (htold.le_start hw hsize (StormGuard.current_tick _ _)) ?_
      dsimp only
      rw [hstorm]
      exact StormGuard.start_le_countAll _ _

/-- When a verdict is stale. A storm is the doing of requests in the window of its verdict if the guard has been told
the time in that window. With windows that the clock can tell, this is so exactly if anything has been counted in the
window at all, and always if the storm is met by a poll that has begun in the window. -/
theorem storm_verdict_iff {s : Step} (h : Run config (s :: steps) e) (hw : 0 < config.window)
    (hs : s.before.Stormed s.after) :
    (s.judged / config.window * config.window ≤ s.after.schedule.storm.start →
      config.quota < requestsIn config.window (s.judged / config.window) (s :: steps)) ∧
    (config.window < UInt64.size →
      (config.quota < requestsIn config.window (s.judged / config.window) (s :: steps) ↔
        0 < requestsIn config.window (s.judged / config.window) (s :: steps)) ∧
      (s.request = .poll → s.before.timed.now / config.window = s.judged / config.window →
        config.quota < requestsIn config.window (s.judged / config.window) (s :: steps))) := by
  obtain ⟨e₁, during, -, -, hc, htallies⟩ := h.cycle_at hw (.inr hs.1)
  have hexceeded := (hc.of_storm hs.2).1
  have htold : s.judged / config.window * config.window ≤ s.after.schedule.storm.start →
      config.quota < requestsIn config.window (s.judged / config.window) (s :: steps) := fun hstart =>
    Nat.lt_of_lt_of_le (htallies.quota_lt hexceeded) (htallies.since_le hw hstart)
  refine ⟨htold, fun hsize => ⟨⟨Nat.zero_lt_of_lt, fun hpos => htold ?_⟩, fun hp hsame => htold ?_⟩⟩
  · refine Nat.le_of_not_lt fun hstart => ?_
    exact Nat.ne_of_gt hpos (htallies.countP_eq_zero hsize hstart)
  · exact h.le_start_of_poll hw hsize hp hs.1 hsame

/-- With a quota of one, the second render of the restless program is a storm of its own window's doing. -/
theorem storm_verdict_iff_restless :
    ∃ s steps e, Run { quota := 1 } (s :: steps) e ∧ s.before.Stormed s.after ∧ s.judged = 1020 ∧
      1 < requestsIn 1000000000 (s.judged / 1000000000) (s :: steps) := by
  obtain ⟨s, steps, e, h, hs⟩ := exists_run_of_replay { quota := 1 } 2
    [.render, .lapse [1000, 20], .render, .load restless]
    (fun s steps => (s.judged, s.before.schedule.renders, s.after.schedule.renders, s.after.report,
      requestsIn 1000000000 (s.judged / 1000000000) (s :: steps)))
    (b := (1020, 1, 2, some (.ofFault (.storm 1)), 2)) (by decide +kernel)
  simp only [Prod.mk.injEq] at hs
  obtain ⟨hjudged, hbefore, hafter, hreport, hcount⟩ := hs
  have hstorm : s.before.Stormed s.after := ⟨by omega, 1, hreport⟩
  have hpos : 0 < requestsIn 1000000000 (s.judged / 1000000000) (s :: steps) := by omega
  exact ⟨s, steps, e, h, hstorm, hjudged, ((storm_verdict_iff h (by decide) hstorm).2 (by decide)).1.2 hpos⟩

/-- When a program has made a storm and is then given a main section that asks for nothing, the next render is refused,
in whichever window it comes. -/
theorem storm_verdict_stale :
    ∃ s steps e, Run { quota := 0 } (s :: steps) e ∧ s.before.Stormed s.after ∧ s.judged = 2000000000 ∧
      requestsIn 1000000000 2 (s :: steps) = 0 := by
  obtain ⟨s, steps, e, h, hs⟩ := exists_run_of_replay { quota := 0 } 2
    [.render, .define ⟨mainLabel, true, []⟩, .advance 2000000000, .render, .load restless]
    (fun s steps => (s.judged, s.before.schedule.renders, s.after.schedule.renders, s.after.report,
      requestsIn 1000000000 2 (s :: steps)))
    (b := (2000000000, 1, 2, some (.ofFault (.storm 0)), 0)) (by decide +kernel)
  simp only [Prod.mk.injEq] at hs
  obtain ⟨htime, hbefore, hafter, hreport, hnone⟩ := hs
  exact ⟨s, steps, e, h, ⟨by omega, 0, hreport⟩, htime, hnone⟩

end Engine
end Trellis
