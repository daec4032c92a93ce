import Trellis.Proofs.Scheduling.Requests

/-!
# The count of a storm guard by itself

A guard is visited at times that do not go back: it is told the time, and then requests are recorded. Its windows are
those that follow each other from the time at which it was made. However late a visit is and however many windows have
gone by unseen, the guard is then in the window of that visit, and its count is the number of requests recorded at the
visits inside that window, up to the ceiling of the counter. The time since a window's start is reduced to 64 bits; this
changes nothing for windows that can be written in 64 bits.
-/
namespace Trellis.StormGuard

/-- A time at which a guard is told the time, and how many requests are recorded then. -/
structure Visit where
  time : Nat
  requests : Nat
deriving DecidableEq, Repr

/-- Records requests, one after the other. -/
def recordEach (g : StormGuard) : Nat → StormGuard
  | 0 => g
  | n + 1 => (g.recordEach n).record

def visit (g : StormGuard) (v : Visit) : StormGuard := (g.tick v.time).recordEach v.requests

/-- Visits a guard, the earliest visit first. -/
def follow (g : StormGuard) (vs : List Visit) : StormGuard := vs.foldl visit g

/-- How many requests are recorded from one time on and before another. -/
def requestsBetween (start finish : Nat) : List Visit → Nat
  | [] => 0
  | v :: vs => (if start ≤ v.time ∧ v.time < finish then v.requests else 0) + requestsBetween start finish vs

variable {g : StormGuard} {now : Nat}

theorem requestsBetween_append (start finish : Nat) (vs ws : List Visit) :
    requestsBetween start finish (vs ++ ws) = requestsBetween start finish vs + requestsBetween start finish ws := by
  induction vs with
  | nil => simp [requestsBetween]
  | cons v vs ih => rw [List.cons_append, requestsBetween, requestsBetween, ih, Nat.add_assoc]

theorem requestsBetween_eq_zero {start finish : Nat} {vs : List Visit} (h : ∀ v ∈ vs, v.time < start) :
    requestsBetween start finish vs = 0 := by
  induction vs with
  | nil => rfl
  | cons v vs ih =>
    have hv : ¬(start ≤ v.time ∧ v.time < finish) := fun hin => Nat.not_le_of_lt (h v List.mem_cons_self) hin.1
    rw [requestsBetween, if_neg hv, ih fun w hw => h w (List.mem_cons_of_mem v hw)]

theorem recordEach_eq (h : g.requested ≤ ceiling) (n : Nat) : g.recordEach n = g.recordMany n := by
  induction n with
  | zero => rw [recordEach, recordMany, Nat.add_zero, Nat.min_eq_left h]
  | succ n ih => rw [recordEach, ih, recordMany_succ]

/-- The guard moves on by as many whole windows as have passed. -/
theorem start_tick (hpos : 0 < g.window) (hsize : g.window < UInt64.size) (hle : g.start ≤ now) :
    (g.tick now).start = g.start + (now - g.start) / g.window * g.window := by
  unfold tick
  dsimp only
  split
  case isTrue h =>
    have hlt : now - g.start < g.window := h.resolve_left (Nat.ne_of_gt hpos)
    rw [Nat.div_eq_of_lt hlt, Nat.zero_mul, Nat.add_zero]
  case isFalse =>
    have hmod := Nat.mod_lt (now - g.start) hpos
    have hdiv := Nat.mod_add_div (now - g.start) g.window
    rw [Nat.mul_comm] at hdiv
    dsimp only
    rw [Nat.mod_eq_of_lt (Nat.lt_trans hmod hsize)]
    omega

theorem requested_tick (hpos : 0 < g.window) :
    (g.tick now).requested = if now - g.start < g.window then g.requested else 0 := by
  unfold tick
  simp only [Nat.ne_of_gt hpos, false_or]
  split
  · rfl
  · rfl

@[simp] theorem window_tick (g : StormGuard) (now : Nat) : (g.tick now).window = g.window := by
  unfold tick
  dsimp only
  split
  · rfl
  · rfl

/-! ### The count -/

/-- A guard that was made at a time, after some visits of which the last was at `now`. -/
structure Counts (origin now : Nat) (vs : List Visit) (g : StormGuard) : Prop where
  /-- The guard's window begins a whole number of windows after the first one. -/
  aligned : ∃ k, g.start = origin + k * g.window
  started : g.start ≤ now
  current : now < g.start + g.window
  past : ∀ v ∈ vs, v.time ≤ now
  requested : g.requested = min (requestsBetween g.start (g.start + g.window) vs) ceiling

namespace Counts

variable {origin : Nat} {vs : List Visit}

theorem tick (h : Counts origin now vs g) (hsize : g.window < UInt64.size) {time : Nat} (hle : now ≤ time) :
    Counts origin time vs (g.tick time) := by
  have hpos : 0 < g.window := by
    have hstarted := h.started
    have hcurrent := h.current
    omega
  have hstart := start_tick hpos hsize (Nat.le_trans h.started hle)
  have hmod := Nat.mod_lt (time - g.start) hpos
  have hdiv := Nat.mod_add_div (time - g.start) g.window
  rw [Nat.mul_comm] at hdiv
  have hstarted := h.started
  refine ⟨?_, ?_, ?_, fun v hv => Nat.le_trans (h.past v hv) hle, ?_⟩
  · obtain ⟨k, hk⟩ := h.aligned
    refine ⟨k + (time - g.start) / g.window, ?_⟩
    rw [window_tick, hstart, hk, Nat.add_mul, Nat.add_assoc]
  · omega
  · rw [window_tick]
    omega
  · rw [requested_tick hpos, window_tick]
    by_cases hlt : time - g.start < g.window
    · have hsame : (g.tick time).start = g.start := by rw [hstart, Nat.div_eq_of_lt hlt, Nat.zero_mul, Nat.add_zero]
      rw [if_pos hlt, hsame, h.requested]
    · -- the window has changed, and all visits so far were before the new one
      have hone : 1 * g.window ≤ (time - g.start) / g.window * g.window :=
        Nat.mul_le_mul_right _ (Nat.div_pos (Nat.not_lt.1 hlt) hpos)
      have hcurrent := h.current
      have hnone : requestsBetween (g.tick time).start ((g.tick time).start + g.window) vs = 0 := by
        refine requestsBetween_eq_zero fun v hv => ?_
        have hpast := h.past v hv
        omega
      rw [if_neg hlt, hnone, Nat.zero_min]

/-- Requests that are recorded when the guard has been told the time fall into its window. -/
theorem record (h : Counts origin now vs g) (n : Nat) : Counts origin now (vs ++ [⟨now, n⟩]) (g.recordEach n) := by
  have hceiling : g.requested ≤ ceiling := h.requested ▸ Nat.min_le_right _ _
  have hin : requestsBetween g.start (g.start + g.window) [⟨now, n⟩] = n := by
    rw [requestsBetween, if_pos ⟨h.started, h.current⟩]
    rfl
  rw [recordEach_eq hceiling]
  refine ⟨h.aligned, h.started, h.current, ?_, ?_⟩
  · intro v hv
    rcases List.mem_append.1 hv with hv | hv
    · exact h.past v hv
    · exact Nat.le_of_eq (congrArg Visit.time (List.mem_singleton.1 hv))
  · change min (g.requested + n) ceiling = min (requestsBetween g.start (g.start + g.window) _) ceiling
    rw [requestsBetween_append, hin, h.requested]
    omega

theorem visit (h : Counts origin now vs g) (hsize : g.window < UInt64.size) {v : Visit} (hle : now ≤ v.time) :
    Counts origin v.time (vs ++ [v]) (g.visit v) := (h.tick hsize hle).record v.requests

end Counts

@[simp] theorem window_recordEach (g : StormGuard) (n : Nat) : (g.recordEach n).window = g.window := by
  induction n with
  | zero => rfl
  | succ n ih => exact ih

@[simp] theorem window_visit (g : StormGuard) (v : Visit) : (g.visit v).window = g.window := by simp [visit]

theorem window_follow (g : StormGuard) (vs : List Visit) : (g.follow vs).window = g.window := by
  induction vs generalizing g with
  | nil => rfl
  | cons v vs ih => exact (ih (g.visit v)).trans (window_visit g v)

theorem Counts.follow {origin : Nat} {past : List Visit} (h : Counts origin now past g) (hsize : g.window < UInt64.size)
    {vs : List Visit} (hordered : (now :: vs.map Visit.time).Pairwise (· ≤ ·)) :
    Counts origin ((vs.map Visit.time).getLastD now) (past ++ vs) (g.follow vs) := by
  induction vs generalizing g now past with
  | nil => simpa [StormGuard.follow] using h
  | cons v vs ih =>
    obtain ⟨hnow, hrest⟩ := List.pairwise_cons.1 hordered
    have hvisit := h.visit hsize (hnow v.time List.mem_cons_self)
    have hall := ih hvisit (by rwa [window_visit]) hrest
    rw [List.append_assoc] at hall
    rwa [List.map_cons, List.getLastD_cons]

/-- Whenever a guard has been visited, at times that do not go back from the time at which it was made, it is in the
aligned window of the last visit and has counted the requests recorded in that window, up to the ceiling. -/
theorem follow_counts_exactly (quota : Nat) {window origin : Nat} {vs : List Visit} (hpos : 0 < window)
    (hsize : window < UInt64.size) (hordered : (origin :: vs.map Visit.time).Pairwise (· ≤ ·)) :
    let now := (vs.map Visit.time).getLastD origin
    let g := (new quota window origin).follow vs
    (∃ k, g.start = origin + k * window) ∧ g.start ≤ now ∧ now < g.start + window ∧
      g.requested = min (requestsBetween g.start (g.start + window) vs) ceiling := by
  have hnew : Counts origin origin [] (new quota window origin) :=
    ⟨⟨0, by rw [Nat.zero_mul]; rfl⟩, Nat.le_refl _, Nat.lt_add_of_pos_right hpos, by simp, (Nat.zero_min _).symm⟩
  have hcounts := hnew.follow hsize hordered
  have hwindow : ((new quota window origin).follow vs).window = window := window_follow _ vs
  obtain ⟨haligned, hstarted, hcurrent, -, hrequested⟩ := hcounts
  rw [hwindow] at haligned hcurrent hrequested
  exact ⟨haligned, hstarted, hcurrent, hrequested⟩

/-- Windows of length 10 from 3 on. The third visit comes three windows late, and the last one just before its window
ends. -/
theorem follow_counts_exactly_late :
    (new 1 10 3).follow [⟨12, 2⟩, ⟨13, 1⟩, ⟨48, 3⟩, ⟨48, 0⟩, ⟨52, 2⟩] = ⟨1, 10, 43, 5⟩ ∧
      (∃ k, 43 = 3 + k * 10) ∧ 43 ≤ 52 ∧ 52 < 43 + 10 ∧
      5 = min (requestsBetween 43 (43 + 10) [⟨12, 2⟩, ⟨13, 1⟩, ⟨48, 3⟩, ⟨48, 0⟩, ⟨52, 2⟩]) ceiling :=
  ⟨by decide, @follow_counts_exactly 1 10 3 [⟨12, 2⟩, ⟨13, 1⟩, ⟨48, 3⟩, ⟨48, 0⟩, ⟨52, 2⟩] (by decide) (by decide)
    (by decide)⟩

end Trellis.StormGuard
