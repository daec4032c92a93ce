import Trellis.Proofs.Engine.Confined
import Trellis.Proofs.Engine.Echo

/-!
# What requests for a re-render do to the schedule

A request reads the clock. It either sets the deadline, unless there is one, or is counted by the storm guard; and it is
noted as pending. Which of the two it does is told in a diagnostic. All other things that code does leave the clock and
the schedule alone. So when some code has run, its effect on both depends only on the requests that it would tell of,
wherever in the code they were made.
-/
namespace Trellis

namespace Diagnostic

/-- How many requests have set the deadline. -/
def direct (told : List Diagnostic) : Nat := told.countP isDirect

/-- How many requests have been counted. -/
def counted (told : List Diagnostic) : Nat := told.countP isCounted

/-- How many requests for a re-render there have been. -/
def requests (told : List Diagnostic) : Nat := direct told + counted told

@[simp] theorem direct_append (told later : List Diagnostic) : direct (told ++ later) = direct told + direct later :=
  List.countP_append

@[simp] theorem counted_append (told later : List Diagnostic) :
    counted (told ++ later) = counted told + counted later := List.countP_append

@[simp] theorem requests_append (told later : List Diagnostic) :
    requests (told ++ later) = requests told + requests later := by
  simp only [requests, direct_append, counted_append]
  omega

theorem requests_singleton {d : Diagnostic} (h : d.isRequest = false) : requests [d] = 0 := by
  simp only [isRequest, Bool.or_eq_false_iff] at h
  simp [requests, direct, counted, h.1, h.2]

/-- The times of the counted requests. Each request that is told of has read the clock. -/
def countedAt (c : Clock) : List Diagnostic → List Nat
  | [] => []
  | d :: told =>
    if d.isCounted then c.read.now :: countedAt c.read told
    else if d.isDirect then countedAt c.read told
    else countedAt c told

theorem requests_cons (d : Diagnostic) (told : List Diagnostic) :
    requests (d :: told) = requests told + if d.isRequest then 1 else 0 := by
  simp only [requests, direct, counted, List.countP_cons, isRequest]
  cases d <;> simp [isDirect, isCounted] <;> omega

theorem countedAt_append (c : Clock) (told later : List Diagnostic) :
    countedAt c (told ++ later) = countedAt c told ++ countedAt (c.after (requests told)) later := by
  induction told generalizing c with
  | nil => rfl
  | cons d told ih =>
    rw [List.cons_append, countedAt, countedAt, requests_cons, isRequest]
    cases hcounted : d.isCounted with
    | true =>
      simp [ih]
    | false =>
      cases hdirect : d.isDirect with
      | true => simp [ih]
      | false => simp [ih]

@[simp] theorem length_countedAt (c : Clock) (told : List Diagnostic) : (countedAt c told).length = counted told := by
  induction told generalizing c with
  | nil => rfl
  | cons d told ih =>
    rw [countedAt, counted, List.countP_cons]
    cases d.isCounted with
    | true => simp [ih, counted]
    | false =>
      cases d.isDirect with
      | true => simp [ih, counted]
      | false => simp [ih, counted]

theorem countedAt_eq_nil {told : List Diagnostic} (h : counted told = 0) (c : Clock) : countedAt c told = [] := by
  rw [← List.length_eq_zero_iff, length_countedAt, h]

theorem eq_now_of_still {c : Clock} (h : c.lapses = []) {told : List Diagnostic} {t : Nat}
    (ht : t ∈ countedAt c told) : t = c.now := by
  have hread : c.read = c := Clock.after_of_still h 1
  induction told with
  | nil => cases ht
  | cons d told ih =>
    rw [countedAt, hread, ite_self] at ht
    split at ht
    · rcases List.mem_cons.1 ht with rfl | ht
      · rfl
      · exact ih ht
    · exact ih ht

end Diagnostic

open Diagnostic (direct counted requests countedAt)

/-! ### The storm guard -/

namespace StormGuard

/-- The guard's window has not passed. -/
def Current (g : StormGuard) (now : Nat) : Prop := g.window = 0 ∨ now - g.start < g.window

theorem tick_of_current {g : StormGuard} {now : Nat} (h : g.Current now) : g.tick now = g := if_pos h

/-- Once the guard has been told the time, its window has not passed. -/
theorem current_tick (g : StormGuard) (now : Nat) : (g.tick now).Current now := by
  unfold tick
  dsimp only
  split
  case isTrue h => exact h
  case isFalse h =>
    rw [not_or, Nat.not_lt] at h
    have hmod : (now - g.start) % g.window % UInt64.size ≤ (now - g.start) % g.window := Nat.mod_le _ _
    have hlt : (now - g.start) % g.window < g.window := Nat.mod_lt _ (Nat.pos_of_ne_zero h.1)
    have hle : (now - g.start) % g.window ≤ now - g.start := Nat.mod_le _ _
    right
    dsimp only
    omega

@[simp] theorem quota_tick (g : StormGuard) (now : Nat) : (g.tick now).quota = g.quota := by
  unfold tick
  dsimp only
  split
  · rfl
  · rfl

/-- To be told the time never moves a guard back. -/
theorem start_le_tick (g : StormGuard) (now : Nat) : g.start ≤ (g.tick now).start := by
  unfold tick
  dsimp only
  split
  case isTrue => exact Nat.le_refl _
  case isFalse h =>
    rw [not_or, Nat.not_lt] at h
    have hmod : (now - g.start) % g.window % UInt64.size ≤ (now - g.start) % g.window := Nat.mod_le _ _
    have hle : (now - g.start) % g.window ≤ now - g.start := Nat.mod_le _ _
    dsimp only
    omega

/-- The guard after requests at some times. It is told the time at each of them. -/
def countAll (g : StormGuard) (times : List Nat) : StormGuard := times.foldl (fun g now => (g.tick now).record) g

@[simp] theorem countAll_nil (g : StormGuard) : g.countAll [] = g := rfl

@[simp] theorem countAll_cons (g : StormGuard) (now : Nat) (times : List Nat) :
    g.countAll (now :: times) = ((g.tick now).record).countAll times := rfl

theorem start_le_countAll (g : StormGuard) (times : List Nat) : g.start ≤ (g.countAll times).start := by
  induction times generalizing g with
  | nil => exact Nat.le_refl _
  | cons now times ih => exact Nat.le_trans (g.start_le_tick now) (ih (g.tick now).record)

theorem countAll_append (g : StormGuard) (times later : List Nat) :
    g.countAll (times ++ later) = (g.countAll times).countAll later := List.foldl_append

end StormGuard

/-! ### The deadline -/

namespace Schedule

/-- A deadline before and after a number of requests that were made between two times. The first of them has set it, to
the settling time from then, unless there was one. -/
inductive Armed (settle start finish : Nat) : Option Nat → Nat → Option Nat → Prop
  | none (deadline : Option Nat) : Armed settle start finish deadline 0 deadline
  | kept (deadline n : Nat) : Armed settle start finish (some deadline) n (some deadline)
  | set {time n : Nat} (hn : 0 < n) (hs : start ≤ time) (hf : time ≤ finish) :
    Armed settle start finish .none n (some (time + settle))

namespace Armed

variable {settle start middle finish m n : Nat} {before between after : Option Nat}

theorem widen {start' finish' : Nat} (h : Armed settle start finish before n after) (hs : start' ≤ start)
    (hf : finish ≤ finish') : Armed settle start' finish' before n after := by
  cases h with
  | none => exact .none before
  | kept d => exact .kept d n
  | set hn hs' hf' => exact .set hn (Nat.le_trans hs hs') (Nat.le_trans hf' hf)

/-- More requests, later. -/
theorem trans (h : Armed settle start middle before m between) (h' : Armed settle middle finish between n after)
    (hs : start ≤ middle) (hf : middle ≤ finish) : Armed settle start finish before (m + n) after := by
  cases h with
  | none =>
    rw [Nat.zero_add]
    exact h'.widen hs (Nat.le_refl _)
  | kept d =>
    cases h' with
    | none => exact .kept d m
    | kept => exact .kept d (m + n)
  | set hn hs' hf' =>
    cases h' with
    | none => exact .set hn hs' (Nat.le_trans hf' hf)
    | kept => exact .set (Nat.add_pos_left hn n) hs' (Nat.le_trans hf' hf)

/-- It matters only whether there were any. -/
theorem congr (h : Armed settle start finish before m after) (hmn : m = 0 ↔ n = 0) :
    Armed settle start finish before n after := by
  cases h with
  | none =>
    rw [hmn.1 rfl]
    exact .none before
  | kept d => exact .kept d n
  | set hm hs hf => exact .set (Nat.pos_of_ne_zero fun hn => Nat.ne_of_gt hm (hmn.2 hn)) hs hf

end Armed

/-- One request at a time. -/
theorem armed_arm (s : Schedule) (settle time : Nat) :
    Armed settle time time s.deadline 1 (s.arm (time + settle)).deadline := by
  unfold arm
  cases h : s.deadline with
  | none => exact .set Nat.one_pos (Nat.le_refl _) (Nat.le_refl _)
  | some deadline =>
    rw [h]
    exact .kept deadline 1

end Schedule

/-! ### Code -/

/-- Some code, which did not end with a storm, has made the requests that it would tell of. Outside a render pass none
of them is counted. -/
structure Asks (e : Engine) (fault : Option Fault) (told : List Diagnostic) (e' : Engine) : Prop where
  calm : ∀ f, fault = some f → f.isStorm = false
  config : e'.config = e.config
  clock : e'.clock = e.clock.after (requests told)
  report : e'.report = e.report
  phase : e'.schedule.phase = e.schedule.phase
  renders : e'.schedule.renders = e.schedule.renders
  pending : e'.schedule.pending = (e.schedule.pending || decide (0 < requests told))
  deadline : Schedule.Armed e.config.settle e.now e'.now e.schedule.deadline (direct told) e'.schedule.deadline
  storm : e'.schedule.storm = e.schedule.storm.countAll (countedAt e.clock told)
  outside : e.schedule.phase ≠ .rendering → counted told = 0

namespace Asks

variable {e e' : Engine} {fault : Option Fault} {told later : List Diagnostic}

theorem now_le (h : Asks e fault told e') : e.now ≤ e'.now := by
  unfold Engine.now
  rw [h.clock]
  exact e.clock.now_le_after _

/-- An action that has asked for nothing, and left the clockwork alone. -/
theorem still (h : e.Alike e') (hf : ∀ f, fault = some f → f.isStorm = false) (ht : requests told = 0) :
    Asks e fault told e' := by
  have hdirect : direct told = 0 := by unfold requests at ht; omega
  have hcounted : counted told = 0 := by unfold requests at ht; omega
  refine ⟨hf, h.config, ?_, h.report, by rw [h.schedule], by rw [h.schedule], ?_, ?_, ?_, fun _ => hcounted⟩
  · rw [h.clock, ht, Clock.after_zero]
  · rw [h.schedule, ht]
    simp
  · rw [h.schedule, hdirect]
    exact .none _
  · rw [h.schedule, Diagnostic.countedAt_eq_nil hcounted, StormGuard.countAll_nil]

theorem trans {e'' : Engine} (h : Asks e none told e') (h' : Asks e' fault later e'') :
    Asks e fault (told ++ later) e'' where
  calm := h'.calm
  config := h'.config.trans h.config
  clock := by rw [h'.clock, h.clock, Clock.after_after, Diagnostic.requests_append]
  report := h'.report.trans h.report
  phase := h'.phase.trans h.phase
  renders := h'.renders.trans h.renders
  pending := by
    rw [h'.pending, h.pending, Bool.or_assoc, ← Bool.decide_or, Diagnostic.requests_append]
    congr 2
    exact propext (by omega)
  deadline := by
    have hlater := h'.deadline
    rw [h.config] at hlater
    rw [Diagnostic.direct_append]
    exact h.deadline.trans hlater h.now_le h'.now_le
  storm := by rw [h'.storm, h.storm, h.clock, Diagnostic.countedAt_append, StormGuard.countAll_append]
  outside hp := by rw [Diagnostic.counted_append, h.outside hp, h'.outside (by rwa [h.phase])]

end Asks

namespace Action

theorem traceable_asks : Traceable Asks where
  refl e := .still (.refl e) nofun rfl
  trans := Asks.trans
  fail e _ h := .still (.refl e) (fun _ hf => Option.some.inj hf ▸ h) rfl
  log e _ h := .still (.refl e) nofun (Diagnostic.requests_singleton h)
  alike {a b c d fault told} hab hbc hcd := by
    have hstill : Asks a none [] b := .still hab nofun rfl
    have hasks := hstill.trans hbc
    have hnow : d.now = c.now := congrArg Clock.now hcd.clock
    refine ⟨hbc.calm, ?_, ?_, ?_, ?_, ?_, ?_, ?_, ?_, hasks.outside⟩
    · rw [hcd.config, hasks.config]
    · rw [hcd.clock, hasks.clock, List.nil_append]
    · rw [hcd.report, hasks.report]
    · rw [hcd.schedule, hasks.phase]
    · rw [hcd.schedule, hasks.renders]
    · rw [hcd.schedule, hasks.pending, List.nil_append]
    · rw [hcd.schedule, hnow]
      exact hasks.deadline
    · rw [hcd.schedule, hasks.storm, List.nil_append]

theorem traces_rerender (site : Nat) : Traces Asks (rerender site) := by
  intro e
  by_cases h : e.schedule.phase ≠ .rendering ∨ e.context.mode = .callable
  · rw [rerender_of_direct site h, rerender_of_direct (e := e.loud) site h]
    obtain ⟨deadline, harm⟩ := e.schedule.arm_eq (e.timed.now + e.config.settle)
    have hdeadline := e.schedule.armed_arm e.config.settle e.timed.now
    rw [harm] at hdeadline
    refine .done _ ⟨nofun, rfl, rfl, rfl, ?_, ?_, ?_, ?_, ?_, fun _ => rfl⟩
    · rw [harm]
    · rw [harm]
    · exact (Bool.or_true _).symm
    · rw [harm]
      exact hdeadline.widen e.clock.now_le_read (Nat.le_refl _)
    · rw [harm]
      rfl
  · rw [rerender_of_counted site h, rerender_of_counted (e := e.loud) site h]
    refine .done _ ⟨nofun, rfl, rfl, rfl, rfl, rfl, (Bool.or_true _).symm, .none _, rfl, fun hphase => ?_⟩
    exact absurd (.inl hphase) h

theorem woven_asks : Woven fun x => Traces Asks x := traceable_asks.woven traces_rerender

theorem hereditary_asks : Hereditary (Traces Asks) := woven_asks.hereditary fun _ => .tooDeep

end Action
end Trellis
