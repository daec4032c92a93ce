import Trellis.Proofs.Scheduling.Window

/-!
# How often polls render

A poll renders when it finds that the deadline has passed, and takes the deadline away before it does. Whoever sets the
next one, the render itself, a handler, or a render that the host has asked for, sets it to the settling time after a
reading of the clock of its own. None of these readings is earlier than the one with which the polled render begins. So
the renders that polls run keep this distance from each other, whatever else the host asks for in between, however the
clock moves, and whether the engine is trusted or not. Their number in a span of time is bounded by its length.
-/
namespace Trellis

namespace Engine

variable {e e' : Engine} {told : List Diagnostic} {d : Nat}

/-! ### Where a deadline comes from -/

theorem Outside.origin (h : e.Outside told e') (hd : e'.schedule.deadline = some d) :
    e.schedule.deadline = some d ∨ e.now + e.config.settle ≤ d := by
  rcases h.deadline.origin hd with hd | ⟨time, hs, -, rfl⟩
  · exact .inl hd
  · exact .inr (Nat.add_le_add_right hs _)

theorem Cycle.origin (h : e.Cycle told e') (hd : e'.schedule.deadline = some d) :
    e.schedule.deadline = some d ∨ e.timed.now + e.config.settle ≤ d := by
  obtain ⟨n, -, hdeadline⟩ := h.deadline
  rcases hdeadline.origin hd with hd | ⟨time, hs, -, rfl⟩
  · exact .inl hd
  · exact .inr (Nat.add_le_add_right hs _)

theorem Turn.now_le (h : e.Turn told e') : e.now ≤ e'.now := by
  cases h with
  | outside h => exact h.now_le
  | cycle h hc _ => exact Nat.le_trans h.now_le (Nat.le_trans (Clock.now_le_read _) hc.now_le)

/-- A mount may set the deadline in its `init` section as well as in the render that follows. -/
theorem Turn.origin (h : e.Turn told e') (hd : e'.schedule.deadline = some d) :
    e.schedule.deadline = some d ∨ e.now + e.config.settle ≤ d := by
  cases h with
  | outside h => exact h.origin hd
  | @cycle e₁ _ _ h hc _ =>
    rcases hc.origin hd with hd | hd
    · exact h.origin hd
    · have hnow := h.now_le
      have hread := e₁.clock.now_le_read
      rw [h.config] at hd
      exact .inr (Nat.le_trans (Nat.add_le_add_right (Nat.le_trans hnow hread) _) hd)

theorem Turn.settle (h : e.Turn told e') : e'.config.settle = e.config.settle := by
  cases h with
  | outside h => rw [h.config]
  | cycle h hc _ => rw [hc.config, h.config]

/-! ### Histories -/

/-- The time at which the render of a poll begins, which is the second time that the clock is read. -/
def Step.started (s : Step) : Nat := s.before.timed.timed.now

/-- The step is a poll that has run a render. -/
def Step.fires (s : Step) : Bool :=
  match s.request, Action.poll s.depth s.before with
  | .poll, .done ran _ _ => ran
  | _, _ => false

theorem Step.fires_of_ne_poll {s : Step} (h : s.request ≠ .poll) : s.fires = false := by
  unfold fires
  split
  case h_1 hr _ => exact absurd hr h
  case h_2 => rfl

theorem Step.fires_of_early {s : Step} (h : s.before.isDue = false) : s.fires = false := by
  unfold fires
  rw [Action.poll_of_early s.depth h]
  split
  case h_1 hpoll => cases hpoll; rfl
  case h_2 => rfl

/-- A poll whose time has come renders, if it ends at all. -/
theorem Step.fires_of_due {n : Nat} (h : e.isDue = true)
    (hr : (Request.poll.run n e).engine? = some e') : Step.fires ⟨n, .poll, e, e'⟩ = true := by
  obtain ⟨d, hd, hle⟩ := Schedule.isDue_iff.1 h
  rcases poll_fires hd hle n with ⟨hdeep, -⟩ | ⟨e₁, journal, hpoll, -⟩
  · rw [Request.run, Action.bind_of_tooDeep hdeep] at hr
    cases hr
  · rw [fires, hpoll]

/-- All that a host has asked of an engine so far, the latest first. -/
inductive History (config : Config) : List Step → Engine → Prop
  | new : History config [] (.new config)
  | request {steps : List Step} {e e' : Engine} (n : Nat) (r : Request) (h : History config steps e)
      (hr : (r.run n e).engine? = some e') : History config (⟨n, r, e, e'⟩ :: steps) e'

variable {config : Config} {steps : List Step}

theorem Run.history (h : Run config steps e) : History config steps e := by
  induction h with
  | new => exact .new
  | request n r _ _ hr ih => exact ih.request n r hr

theorem History.reachable (h : History config steps e) : e.Reachable := by
  induction h with
  | new => exact .new config
  | request n r _ hr ih => exact ih.request n r hr

/-! ### The distance between polled renders -/

/-- A time has passed, and the deadline is at least the settling time after it. -/
structure Clear (e : Engine) (settle time : Nat) : Prop where
  passed : time ≤ e.now
  deadline : ∀ d, e.schedule.deadline = some d → time + settle ≤ d

theorem Clear.of_le {settle time time' : Nat} (h : e.Clear settle time) (hle : time' ≤ time) :
    e.Clear settle time' where
  passed := Nat.le_trans hle h.passed
  deadline d hd := Nat.le_trans (Nat.add_le_add_right hle settle) (h.deadline d hd)

/-- A request that starts after a time sets a deadline that is clear of it. -/
theorem Clear.of_origin {settle time : Nat} (h : e.Clear settle time) (hs : e.config.settle = settle)
    (hnow : e.now ≤ e'.now)
    (ho : ∀ d, e'.schedule.deadline = some d → e.schedule.deadline = some d ∨ e.now + e.config.settle ≤ d) :
    e'.Clear settle time := by
  have hpassed := h.passed
  refine ⟨Nat.le_trans hpassed hnow, fun d hd => ?_⟩
  rcases ho d hd with hd | hd
  · exact h.deadline d hd
  · omega

/-- The renders that polls have run keep their distance, and the present deadline keeps it from each of them. -/
structure Spaced (config : Config) (steps : List Step) (e : Engine) : Prop where
  settle : e.config.settle = config.settle
  apart : (steps.filter Step.fires).Pairwise fun later earlier => earlier.started + config.settle ≤ later.started
  clear : ∀ s ∈ steps.filter Step.fires, e.Clear config.settle s.started

/-- A step that is no polled render only has to keep the deadline clear. -/
theorem Spaced.skip (h : Spaced config steps e) {s : Step} (hs : s.fires = false)
    (hsettle : e'.config.settle = e.config.settle) (hnow : e.now ≤ e'.now)
    (ho : ∀ d, e'.schedule.deadline = some d → e.schedule.deadline = some d ∨ e.now + e.config.settle ≤ d) :
    Spaced config (s :: steps) e' := by
  have hfilter : (s :: steps).filter Step.fires = steps.filter Step.fires :=
    List.filter_cons_of_neg (by rw [hs]; exact Bool.false_ne_true)
  refine ⟨hsettle.trans h.settle, ?_, ?_⟩
  · rw [hfilter]
    exact h.apart
  · rw [hfilter]
    exact fun s hs => (h.clear s hs).of_origin h.settle hnow ho

/-- A polled render comes after a deadline that was clear of all earlier ones. It takes that deadline away and leaves
at most one that is clear of itself. -/
theorem Spaced.fire (h : Spaced config steps e) {s : Step} (hs : s.started = e.timed.timed.now)
    (hfires : s.fires = true) (hd : e.isDue = true) (hc : (Action.disarmed e).Cycle told e') :
    Spaced config (s :: steps) e' := by
  obtain ⟨d, hdeadline, hle⟩ := Schedule.isDue_iff.1 hd
  have hread : e.timed.now ≤ e.timed.timed.now := e.timed.clock.now_le_read
  have hsettle : e'.config.settle = config.settle := (congrArg Config.settle hc.config).trans h.settle
  have hearlier : ∀ s' ∈ steps.filter Step.fires, s'.started + config.settle ≤ e.timed.timed.now :=
    fun s' hs' => Nat.le_trans ((h.clear s' hs').deadline d hdeadline) (Nat.le_trans hle hread)
  have hself : e'.Clear config.settle e.timed.timed.now := by
    refine ⟨hc.now_le, fun d' hd' => ?_⟩
    rcases hc.origin hd' with hnone | hd'
    · cases hnone
    · rw [← h.settle]
      exact hd'
  refine ⟨hsettle, ?_, ?_⟩
  · rw [List.filter_cons_of_pos hfires, List.pairwise_cons, hs]
    exact ⟨hearlier, h.apart⟩
  · rw [List.filter_cons_of_pos hfires]
    intro s' hs'
    rcases List.mem_cons.1 hs' with rfl | hs'
    · exact hs ▸ hself
    · exact hself.of_le (Nat.le_trans (Nat.le_add_right _ _) (hearlier s' hs'))

/-- Each request keeps the distance. -/
theorem Spaced.request (h : Spaced config steps e) (he : e.Timely) {n : Nat} {r : Request}
    (hr : (r.run n e).engine? = some e') : Spaced config (⟨n, r, e, e'⟩ :: steps) e' := by
  cases Request.answer he.phase hr with
  | passive hpoll hs hnow hsettle _ =>
    exact h.skip (Step.fires_of_ne_poll hpoll) hsettle hnow fun d hd => .inl (hs ▸ hd)
  | early hpoll hd he' _ =>
    subst he'
    exact h.skip (Step.fires_of_early hd) rfl e.clock.now_le_read fun d hd => .inl hd
  | due hpoll hd hc =>
    subst hpoll
    exact h.fire rfl (Step.fires_of_due hd hr) hd hc
  | turn hpoll ht =>
    exact h.skip (Step.fires_of_ne_poll hpoll) ht.settle ht.now_le fun d hd => ht.origin hd

theorem History.spaced (h : History config steps e) : Spaced config steps e := by
  induction h with
  | new => exact ⟨rfl, List.Pairwise.nil, fun _ hs => absurd hs List.not_mem_nil⟩
  | request n r h hr ih => exact ih.request h.reachable.timely hr

/-! ### Their number in a span of time -/

/-- The latest of some times that keep a distance is as far from the start as there are others. -/
theorem le_of_spaced {gap start : Nat} {t : Nat} {ts : List Nat}
    (h : (t :: ts).Pairwise fun later earlier => earlier + gap ≤ later) (hs : ∀ t' ∈ t :: ts, start ≤ t') :
    start + ts.length * gap ≤ t := by
  induction ts generalizing t with
  | nil => simpa using hs t
  | cons t' ts ih =>
    obtain ⟨hfirst, hrest⟩ := List.pairwise_cons.1 h
    have hnext := hfirst t' List.mem_cons_self
    have hlen := ih hrest fun x hx => hs x (List.mem_cons_of_mem t hx)
    rw [List.length_cons, Nat.add_mul, Nat.one_mul]
    omega

theorem length_le_of_spaced {gap start span : Nat} {ts : List Nat} (hgap : 0 < gap)
    (h : ts.Pairwise fun later earlier => earlier + gap ≤ later)
    (hs : ∀ t ∈ ts, start ≤ t ∧ t ≤ start + span) : ts.length ≤ 1 + span / gap := by
  cases ts with
  | nil => exact Nat.zero_le _
  | cons t ts =>
    have hfar := le_of_spaced h fun t' ht' => (hs t' ht').1
    have hend := (hs t List.mem_cons_self).2
    have hlen : ts.length ≤ span / gap := (Nat.le_div_iff_mul_le hgap).2 (by omega)
    rw [List.length_cons]
    omega

/-- The render of a poll begins in a span. -/
def Step.within (start span : Nat) (s : Step) : Bool := start ≤ s.started ∧ s.started ≤ start + span

/-- The renders that polls run start at least the settling time apart, so that no span of time has more of them than
it has room for. -/
theorem polled_renders_spaced (h : History config steps e) :
    ((steps.filter Step.fires).Pairwise fun later earlier => earlier.started + config.settle ≤ later.started) ∧
      (0 < config.settle → ∀ start span,
        steps.countP (fun s => s.fires && s.within start span) ≤ 1 + span / config.settle) := by
  refine ⟨h.spaced.apart, fun hpos start span => ?_⟩
  let times := ((steps.filter Step.fires).filter (Step.within start span)).map Step.started
  have hapart : times.Pairwise fun later earlier => earlier + config.settle ≤ later :=
    List.pairwise_map.2 (h.spaced.apart.filter _)
  have hwithin : ∀ t ∈ times, start ≤ t ∧ t ≤ start + span := by
    intro t ht
    obtain ⟨s, hs, rfl⟩ := List.mem_map.1 ht
    exact of_decide_eq_true (List.mem_filter.1 hs).2
  calc steps.countP (fun s => s.fires && s.within start span)
      = times.length := by
        rw [List.length_map, List.filter_filter, List.countP_eq_length_filter]
        simp only [Bool.and_comm]
    _ ≤ 1 + span / config.settle := length_le_of_spaced hpos hapart hwithin

/-- The restless program, polled at two deadlines in a row, while the clock goes on at every reading. Between them the
host renders once more by itself. -/
theorem polled_renders_spaced_restless :
    ∃ steps e, History {} steps e ∧ (steps.filter Step.fires).map Step.started = [200016000, 100007000] ∧
      steps.countP (fun s => s.fires && s.within 100000000 100020000) = 2 ∧
      ((steps.filter Step.fires).Pairwise fun later earlier => earlier.started + 100000000 ≤ later.started) ∧
      steps.countP (fun s => s.fires && s.within 100000000 100020000) ≤ 1 + 100020000 / 100000000 := by
  obtain ⟨s, steps, e, h, hs⟩ := exists_run_of_replay {} 2
    [.poll, .advance 50000000, .render, .advance 50000000, .poll, .advance 100000000, .boot .root,
      .lapse (List.replicate 20 1000), .load restless]
    (fun s steps => (((s :: steps).filter Step.fires).map Step.started,
      (s :: steps).countP (fun s => s.fires && s.within 100000000 100020000)))
    (b := ([200016000, 100007000], 2)) (by decide +kernel)
  simp only [Prod.mk.injEq] at hs
  obtain ⟨hapart, hcount⟩ := polled_renders_spaced h.history
  exact ⟨_, e, h.history, hs.1, hs.2, hapart, hcount (by decide) 100000000 100020000⟩

end Engine
end Trellis
