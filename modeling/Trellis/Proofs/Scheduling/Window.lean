import Trellis.Proofs.Scheduling.Deadline

/-!
# Windows of time and the storm guard

The windows divide the time since the engine was made. A host's requests are kept as a history, so that the times of the
requests for a re-render which have been counted can be compared with the guard's own count. The guard starts anew with
each window in which it is told the time, and from there on counts what the window has seen, up to the ceiling of its
counter. It is told the time by a poll and by each request that it counts. The clock may move between any two of these.
-/
namespace Trellis

open Diagnostic (requests countedAt)

namespace Engine

/-- A request that a host has made. -/
structure Step where
  depth : Nat
  request : Request
  before : Engine
  after : Engine

namespace Step

/-- The times of the requests for a re-render that have been counted. -/
def times (s : Step) : List Nat := s.request.times s.depth s.before

/-- The time of the verdict on them. -/
def judged (s : Step) : Nat := s.request.judgedAt s.depth s.before

/-- A request for a re-render was counted in the window with a number. -/
def countsIn (window k : Nat) (s : Step) : Bool := s.times.any fun t => t / window = k

def succeeds (s : Step) : Bool := s.after.schedule.phase = .idle

end Step

/-- All that a host has asked of an engine so far, the latest first. Whenever it asked for something, the engine was not
trusted. -/
inductive Run (config : Config) : List Step → Engine → Prop
  | new : Run config [] (.new config)
  | request {steps : List Step} {e e' : Engine} (n : Nat) (r : Request) (h : Run config steps e)
      (hu : e.config.trusted = false) (hr : (r.run n e).engine? = some e') : Run config (⟨n, r, e, e'⟩ :: steps) e'

/-- Makes requests, given with the latest first, of a new engine. -/
def replay (config : Config) (n : Nat) : List Request → Option (List Step × Engine)
  | [] => some ([], .new config)
  | r :: rs =>
    match replay config n rs with
    | none => none
    | some (steps, e) =>
      match e.config.trusted, (r.run n e).engine? with
      | false, some e' => some (⟨n, r, e, e'⟩ :: steps, e')
      | _, _ => none

variable {config : Config} {steps : List Step} {e e' : Engine}

theorem run_of_replay {n : Nat} {rs : List Request} (h : replay config n rs = some (steps, e)) :
    Run config steps e := by
  induction rs generalizing steps e with
  | nil =>
    cases h
    exact .new
  | cons r rs ih =>
    unfold replay at h
    split at h
    · cases h
    · split at h
      case _ hprefix _ _ _ hu hr =>
        cases h
        exact (ih hprefix).request n r hu hr
      · cases h

/-- What can be computed of a replay, given the latest step and those before it, is so of a history. -/
theorem exists_run_of_replay (config : Config) (n : Nat) (rs : List Request) {β : Type} (f : Step → List Step → β)
    {b : β}
    (h : (replay config n rs).bind (fun run => run.1.head?.map fun s => f s run.1.tail) = some b) :
    ∃ s steps e, Run config (s :: steps) e ∧ f s steps = b := by
  obtain ⟨⟨steps, e⟩, hreplay, hlast⟩ := Option.bind_eq_some_iff.1 h
  obtain ⟨s, hhead, hs⟩ := Option.map_eq_some_iff.1 hlast
  obtain ⟨rest, rfl⟩ := List.head?_eq_some_iff.1 hhead
  exact ⟨s, rest, e, run_of_replay hreplay, hs⟩

theorem Run.reachable (h : Run config steps e) : e.Reachable := by
  induction h with
  | new => exact .new config
  | request n r _ _ hr ih => exact ih.request n r hr

/-- What a history was before one of its requests is a history. -/
theorem Run.at {later earlier : List Step} {s : Step} (h : Run config (later ++ s :: earlier) e) :
    Run config (s :: earlier) s.after := by
  induction later generalizing e with
  | nil =>
    cases h with
    | request n r h hu hr => exact h.request n r hu hr
  | cons _ later ih =>
    cases h with
    | request n r h hu hr => exact ih h

/-! ### Counting in a history -/

/-- The times of all requests for a re-render that have been counted. -/
def times (steps : List Step) : List Nat := steps.flatMap Step.times

/-- How many requests for a re-render have been counted in the window with a number. -/
def requestsIn (window k : Nat) (steps : List Step) : Nat := (times steps).countP fun t => t / window = k

theorem times_cons (s : Step) (steps : List Step) : times (s :: steps) = s.times ++ times steps := List.flatMap_cons

/-- Each step that counts in a window counts at least once in it. -/
theorem countP_countsIn_le (window k : Nat) (steps : List Step) :
    steps.countP (·.countsIn window k) ≤ requestsIn window k steps := by
  unfold requestsIn
  induction steps with
  | nil => exact Nat.le_refl 0
  | cons s steps ih =>
    rw [List.countP_cons, times_cons, List.countP_append]
    by_cases hs : s.countsIn window k = true
    · obtain ⟨t, ht, hwindow⟩ := List.any_eq_true.1 hs
      have hpos : 0 < s.times.countP fun t => t / window = k := List.countP_pos_iff.2 ⟨t, ht, hwindow⟩
      rw [if_pos hs]
      omega
    · rw [if_neg hs]
      omega

/-! ### The guard's count -/

/-- The guard has counted those of some requests that were made from its start on. That start is the start of a window,
unless windows are too long for the clock. -/
structure Tallies (config : Config) (times : List Nat) (now : Nat) (g : StormGuard) : Prop where
  window : g.window = config.window
  quota : g.quota = config.quota
  aligned : config.window < UInt64.size → config.window ∣ g.start
  started : g.start ≤ now
  past : ∀ t ∈ times, t ≤ now
  early : ∀ t ∈ times, t < g.start + config.window
  requested : g.requested = min (times.countP fun t => g.start ≤ t) StormGuard.ceiling

variable {now : Nat} {g : StormGuard} {ts : List Nat}

theorem tallies_new (config : Config) : Tallies config [] 0 (.new config.quota config.window 0) where
  window := rfl
  quota := rfl
  aligned _ := Nat.dvd_zero _
  started := Nat.le_refl 0
  past _ hs := absurd hs List.not_mem_nil
  early _ hs := absurd hs List.not_mem_nil
  requested := (Nat.zero_min _).symm

namespace Tallies

theorem later (h : Tallies config ts now g) {now' : Nat} (hle : now ≤ now') : Tallies config ts now' g :=
  { h with started := Nat.le_trans h.started hle, past := fun t ht => Nat.le_trans (h.past t ht) hle }

theorem perm {ts' : List Nat} (h : Tallies config ts now g) (hp : ts.Perm ts') : Tallies config ts' now g where
  window := h.window
  quota := h.quota
  aligned := h.aligned
  started := h.started
  past t ht := h.past t (hp.mem_iff.2 ht)
  early t ht := h.early t (hp.mem_iff.2 ht)
  requested := by rw [h.requested, hp.countP_eq]

/-- When a window has passed, the guard's new start is beyond it, at the start of a window if the clock can tell. -/
theorem restart (h : Tallies config ts now g) (hpassed : config.window ≤ now - g.start) (hw : 0 < config.window) :
    g.start + config.window ≤ now - (now - g.start) % config.window % UInt64.size ∧
      (config.window < UInt64.size → config.window ∣ now - (now - g.start) % config.window % UInt64.size) := by
  have hstarted := h.started
  have hmod := Nat.mod_lt (now - g.start) hw
  have hdiv := Nat.mod_add_div (now - g.start) config.window
  have hone : config.window * 1 ≤ config.window * ((now - g.start) / config.window) :=
    Nat.mul_le_mul_left _ (Nat.div_pos hpassed hw)
  have hle := Nat.mod_le ((now - g.start) % config.window) UInt64.size
  refine ⟨by omega, fun hsize => ?_⟩
  have hsum : now - (now - g.start) % config.window =
      g.start + config.window * ((now - g.start) / config.window) := by omega
  rw [Nat.mod_eq_of_lt (Nat.lt_trans hmod hsize), hsum]
  exact Nat.dvd_add (h.aligned hsize) (Nat.dvd_mul_right _ _)

theorem tick (h : Tallies config ts now g) (hw : 0 < config.window) : Tallies config ts now (g.tick now) := by
  by_cases hc : g.Current now
  · rwa [StormGuard.tick_of_current hc]
  · have hpassed : config.window ≤ now - g.start := by
      rw [StormGuard.Current, h.window, not_or] at hc
      omega
    obtain ⟨hbeyond, haligned⟩ := h.restart hpassed hw
    have htick : g.tick now =
        { g with start := now - (now - g.start) % config.window % UInt64.size, requested := 0 } := by
      rw [← h.window]
      exact if_neg hc
    rw [htick]
    refine ⟨h.window, h.quota, haligned, Nat.sub_le _ _, h.past, fun t ht => ?_, ?_⟩
    · exact Nat.lt_of_lt_of_le (h.early t ht) (Nat.le_trans hbeyond (Nat.le_add_right _ _))
    · -- all that has been counted is from before the new start
      have hnone : (ts.countP fun t => now - (now - g.start) % config.window % UInt64.size ≤ t) = 0 :=
        List.countP_eq_zero.2 fun t ht hle =>
          Nat.not_le_of_lt (Nat.lt_of_lt_of_le (h.early t ht) hbeyond) (of_decide_eq_true hle)
      exact hnone ▸ (Nat.zero_min _).symm

/-- A request at the present time is counted, before which the guard is told the time. -/
theorem record (h : Tallies config ts now g) (hw : 0 < config.window) :
    Tallies config (now :: ts) now (g.tick now).record := by
  have ht := h.tick hw
  have hstarted := ht.started
  have hcurrent : now < (g.tick now).start + config.window := by
    have hc := g.current_tick now
    rw [StormGuard.Current, ht.window] at hc
    omega
  refine ⟨ht.window, ht.quota, ht.aligned, hstarted, ?_, ?_, ?_⟩
  · exact List.forall_mem_cons.2 ⟨Nat.le_refl _, ht.past⟩
  · exact List.forall_mem_cons.2 ⟨hcurrent, ht.early⟩
  · have hrequested := ht.requested
    change min ((g.tick now).requested + 1) _ = min (List.countP (fun t => (g.tick now).start ≤ t) (now :: ts)) _
    rw [List.countP_cons, if_pos (decide_eq_true hstarted), hrequested]
    omega

/-- All requests that some code would tell of, each at its own reading of the clock. -/
theorem countAll {c : Clock} (h : Tallies config ts c.now g) (hw : 0 < config.window) (told : List Diagnostic) :
    Tallies config (countedAt c told ++ ts) (c.after (requests told)).now (g.countAll (countedAt c told)) := by
  induction told generalizing c g ts with
  | nil => exact h
  | cons d told ih =>
    have hread := h.later c.now_le_read
    rw [Diagnostic.requests_cons, Diagnostic.isRequest, countedAt]
    cases hcounted : d.isCounted with
    | true =>
      simp only [Bool.or_true, if_true, Clock.after_succ, StormGuard.countAll_cons]
      exact (ih (hread.record hw)).perm List.perm_middle
    | false =>
      cases hdirect : d.isDirect with
      | true => exact ih hread
      | false => exact ih h

/-! ### The guard's count and the windows -/

/-- What a guard has counted since the start of the present window, or later, has been counted in that window. -/
theorem since_le (h : Tallies config ts now g) (hw : 0 < config.window)
    (hstart : now / config.window * config.window ≤ g.start) :
    (ts.countP fun t => g.start ≤ t) ≤ ts.countP fun t => t / config.window = now / config.window := by
  refine List.countP_mono_left fun t ht hsince => decide_eq_true ?_
  refine Nat.le_antisymm (Nat.div_le_div_right (h.past t ht)) ((Nat.le_div_iff_mul_le hw).2 ?_)
  exact Nat.le_trans hstart (of_decide_eq_true hsince)

/-- The guard's start is no later than that of the present window. -/
theorem start_le (h : Tallies config ts now g) (hw : 0 < config.window) (hsize : config.window < UInt64.size) :
    g.start ≤ now / config.window * config.window := by
  obtain ⟨m, hm⟩ := h.aligned hsize
  have hle := h.started
  rw [hm, Nat.mul_comm] at hle ⊢
  exact Nat.mul_le_mul_right _ ((Nat.le_div_iff_mul_le hw).2 hle)

/-- If the guard has not been told the time in the present window, nothing has been counted in it. -/
theorem countP_eq_zero (h : Tallies config ts now g) (hsize : config.window < UInt64.size)
    (hstart : g.start < now / config.window * config.window) :
    (ts.countP fun t => t / config.window = now / config.window) = 0 := by
  obtain ⟨m, hm⟩ := h.aligned hsize
  -- the guard's window ends before the present one begins
  have hnext : g.start + config.window ≤ now / config.window * config.window := by
    rw [hm, Nat.mul_comm] at hstart ⊢
    have hlt : m < now / config.window := Nat.lt_of_mul_lt_mul_right hstart
    have hmul := Nat.mul_le_mul_right config.window (Nat.succ_le_of_lt hlt)
    rwa [Nat.succ_mul] at hmul
  refine List.countP_eq_zero.2 fun t ht hwindow => ?_
  have hearly := h.early t ht
  have hle := Nat.div_mul_le_self t config.window
  rw [of_decide_eq_true hwindow] at hle
  omega

/-- What has been counted in the present window, the guard has counted since its start. -/
theorem countP_le (h : Tallies config ts now g) (hw : 0 < config.window) (hsize : config.window < UInt64.size) :
    (ts.countP fun t => t / config.window = now / config.window) ≤ ts.countP fun t => g.start ≤ t := by
  refine List.countP_mono_left fun t _ hwindow => decide_eq_true ?_
  have hle := Nat.div_mul_le_self t config.window
  rw [of_decide_eq_true hwindow] at hle
  exact Nat.le_trans (h.start_le hw hsize) hle

/-- A guard whose window has not passed has been told the time in the present window. -/
theorem le_start (h : Tallies config ts now g) (hw : 0 < config.window) (hsize : config.window < UInt64.size)
    (hc : g.Current now) : now / config.window * config.window ≤ g.start := by
  obtain ⟨m, hm⟩ := h.aligned hsize
  have hstarted := h.started
  have hlt : now < (m + 1) * config.window := by
    rw [StormGuard.Current, h.window] at hc
    rw [Nat.succ_mul, Nat.mul_comm, ← hm]
    omega
  rw [hm, Nat.mul_comm _ m]
  exact Nat.mul_le_mul_right _ (Nat.le_of_lt_succ ((Nat.div_lt_iff_lt_mul hw).2 hlt))

/-- The guard objects only to more requests than the quota, all since its start. -/
theorem quota_lt (h : Tallies config ts now g) (hx : g.exceeded = true) :
    config.quota < ts.countP fun t => g.start ≤ t := by
  have hlt : g.quota < g.requested := of_decide_eq_true hx
  rw [h.quota, h.requested] at hlt
  omega

/-- The guard objects to more requests than the quota, if the counter can hold as many. -/
theorem exceeded (h : Tallies config ts now g) (hq : config.quota < StormGuard.ceiling)
    (hlt : config.quota < ts.countP fun t => g.start ≤ t) : g.exceeded = true := by
  refine decide_eq_true ?_
  rw [h.quota, h.requested]
  omega

end Tallies

/-! ### Requests and the guard -/

/-- What a request comes to for the guard. Either it runs no render, counts nothing and at most tells the guard the time
in the end; or it is a cycle, before which a poll tells the guard the time. The requests for a re-render that are made
in the cycle are counted at their times, and all of this is over when the request ends. -/
inductive Effect (n : Nat) (r : Request) (e e' : Engine) : Prop
  | idle (ht : r.times n e = []) (hrenders : e'.schedule.renders = e.schedule.renders)
    (hs : e'.schedule.storm = e.schedule.storm ∨ e'.schedule.storm = e.schedule.storm.tick e'.now)
    (hnow : e.now ≤ e'.now)
  | cycle {e₁ : Engine} {during : List Diagnostic} {g : StormGuard} (hconfig : e₁.config = e.config)
    (hrenders : e₁.schedule.renders = e.schedule.renders) (hc : e₁.Cycle during e')
    (hg : r ≠ .poll ∧ g = e.schedule.storm ∨ r = .poll ∧ g = e.schedule.storm.tick e.timed.now)
    (hs : e'.schedule.storm = g.countAll (r.times n e)) (hj : r.judgedAt n e ≤ e'.now)

theorem Timely.effect {n : Nat} {r : Request} (he : e.Timely) (hr : (r.run n e).engine? = some e') :
    Effect n r e e' := by
  have hnone : Diagnostic.counted (r.told n e) = 0 → r.times n e = [] := fun h => Diagnostic.countedAt_eq_nil h _
  cases Request.answer he.phase hr with
  | passive hpoll hs hnow _ ht =>
    have hcounted : Diagnostic.counted (r.told n e) = 0 := by
      unfold requests at ht
      omega
    exact .idle (hnone hcounted) (by rw [hs]) (.inl (by rw [hs])) hnow
  | early hpoll _ he' ht =>
    subst he'
    exact .idle (hnone (by rw [ht]; rfl)) rfl (.inr rfl) e.clock.now_le_read
  | due hpoll _ hc =>
    subst hpoll
    -- the poll reads the clock once before the render does
    obtain ⟨k, hclock⟩ := hc.clock
    have hconfig : (Action.disarmed e).config = e.config := rfl
    have hread : (Action.disarmed e).clock = e.clock.after 1 := rfl
    have hend : e'.clock = (e.clock.after (2 + requests (Request.poll.told n e))).after k := by
      rw [hclock, hread, Clock.after_after, Clock.after_after]
      congr 1
      omega
    refine .cycle hconfig rfl hc (.inr ⟨rfl, rfl⟩) hc.storm ?_
    rw [Request.judgedAt, Request.readings, now, hend]
    exact Clock.now_le_after _ k
  | turn hpoll ht =>
    have hreadings : r.readings = 1 := by
      cases r with
      | poll => exact absurd rfl hpoll
      | _ => rfl
    cases ht with
    | outside h => exact .idle (hnone h.counted) h.renders (.inl h.storm) h.now_le
    | @cycle e₁ before during h hc htold =>
      -- an `init` section counts nothing, but its requests read the clock before the render does
      refine .cycle h.config h.renders hc (.inl ⟨hpoll, rfl⟩) ?_ ?_
      · rw [hc.storm, h.storm, h.clock, Request.times, hreadings, htold, Diagnostic.countedAt_append,
          Diagnostic.countedAt_eq_nil h.counted, List.nil_append, Clock.after_after, Clock.after_one_add,
          Clock.read_after]
      · obtain ⟨k, hclock⟩ := hc.clock
        have hend : e'.clock = (e.clock.after (1 + requests (before ++ during))).after k := by
          rw [hclock, h.clock, Clock.after_after, Clock.after_after, Diagnostic.requests_append]
          congr 1
          omega
        rw [Request.judgedAt, hreadings, htold, now, hend]
        exact Clock.now_le_after _ k

/-- At the verdict of a cycle the guard's count is in line with the history. -/
theorem Tallies.judged {n : Nat} {r : Request} {g₁ : StormGuard} (h : Tallies config ts e.now e.schedule.storm)
    (hw : 0 < config.window)
    (hg : r ≠ .poll ∧ g₁ = e.schedule.storm ∨ r = .poll ∧ g₁ = e.schedule.storm.tick e.timed.now) :
    Tallies config (r.times n e ++ ts) (r.judgedAt n e) (g₁.countAll (r.times n e)) := by
  have hbegun : Tallies config ts (e.clock.after r.readings).now g₁ := by
    rcases hg with ⟨-, rfl⟩ | ⟨rfl, rfl⟩
    · exact h.later (Clock.now_le_after _ _)
    · exact ((h.later e.clock.now_le_read).tick hw).later e.timed.clock.now_le_read
  rw [Request.judgedAt, ← Clock.after_after]
  exact hbegun.countAll hw _

/-- One request keeps the guard's count in line with the history. -/
theorem Tallies.request {n : Nat} {r : Request} (h : Tallies config ts e.now e.schedule.storm) (he : e.Timely)
    (hw : 0 < config.window) (hr : (r.run n e).engine? = some e') :
    Tallies config (r.times n e ++ ts) e'.now e'.schedule.storm := by
  cases he.effect hr with
  | idle ht _ hs hnow =>
    rw [ht, List.nil_append]
    rcases hs with hs | hs
    · exact hs ▸ h.later hnow
    · exact hs ▸ (h.later hnow).tick hw
  | cycle _ _ _ hg hs hj => exact hs ▸ (h.judged hw hg).later hj

theorem Run.tallies (h : Run config steps e) (hw : 0 < config.window) :
    Tallies config (times steps) e.now e.schedule.storm := by
  induction h with
  | new => exact tallies_new config
  | request n r h _ hr ih => exact ih.request h.reachable.timely hw hr

end Engine
end Trellis
