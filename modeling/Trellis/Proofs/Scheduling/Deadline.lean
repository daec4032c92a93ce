import Trellis.Proofs.Scheduling.Turn

/-!
# Deadlines

Every request for a re-render ends up with a deadline, at the latest the settling time from now, unless the render
in which it was made is refused as a storm. A deadline stands until a poll finds that it has passed; however many
requests have shared it, that poll runs one render. A storm ends the re-rendering for good only if no code has set the
deadline by itself: the refusal takes back what is pending, but not a deadline that is set already.
-/
namespace Trellis

open Diagnostic (direct counted requests)

namespace Schedule.Armed

variable {settle start finish n : Nat} {before after : Option Nat}

/-- Where a deadline comes from. -/
theorem origin (h : Armed settle start finish before n after) {d : Nat} (hd : after = some d) :
    before = some d ∨ ∃ time, start ≤ time ∧ time ≤ finish ∧ d = time + settle := by
  cases h with
  | none => exact .inl hd
  | kept => exact .inl hd
  | @set time _ hn hs hf => exact .inr ⟨time, hs, hf, (Option.some.inj hd).symm⟩

theorem keeps {d : Nat} (h : Armed settle start finish (some d) n after) : after = some d := by
  cases h with
  | none => rfl
  | kept => rfl

theorem isSome (h : Armed settle start finish before n after) (hn : 0 < n) : ∃ d, after = some d := by
  cases h with
  | none => exact absurd hn (Nat.lt_irrefl 0)
  | kept d => exact ⟨d, rfl⟩
  | set => exact ⟨_, rfl⟩

theorem eq_none_iff (h : Armed settle start finish .none n after) : after = .none ↔ n = 0 := by
  cases h with
  | none => exact ⟨fun _ => rfl, fun _ => rfl⟩
  | set hn => exact ⟨nofun, fun hzero => absurd hzero (Nat.ne_of_gt hn)⟩

/-- The deadline is no further away than the settling time. -/
theorem le (h : Armed settle start finish before n after) (hb : ∀ d, before = some d → d ≤ finish + settle) {d : Nat}
    (hd : after = some d) : d ≤ finish + settle := by
  rcases h.origin hd with hd | ⟨time, -, hf, rfl⟩
  · exact hb d hd
  · exact Nat.add_le_add_right hf settle

end Schedule.Armed

theorem Schedule.isDue_iff {s : Schedule} {now : Nat} : s.isDue now = true ↔ ∃ d, s.deadline = some d ∧ d ≤ now := by
  unfold isDue
  cases s.deadline with
  | none => exact ⟨nofun, nofun⟩
  | some d =>
    constructor
    · exact fun h => ⟨d, rfl, of_decide_eq_true h⟩
    · rintro ⟨_, h, hle⟩
      cases h
      exact decide_eq_true hle

namespace Engine

/-- The deadline, if there is one, is near. -/
def Near (e : Engine) : Prop := ∀ d, e.schedule.deadline = some d → d ≤ e.now + e.config.settle

/-- No render pass is under way, and the deadline is near. -/
structure Timely (e : Engine) : Prop where
  phase : e.schedule.phase ≠ .rendering
  near : e.Near

variable {e e' : Engine} {told : List Diagnostic}

theorem Near.le (he : e.Near) (hnow : e.now ≤ e'.now) {d : Nat} (hd : e.schedule.deadline = some d) :
    d ≤ e'.now + e.config.settle := Nat.le_trans (he d hd) (Nat.add_le_add_right hnow _)

theorem Outside.near (h : e.Outside told e') (he : e.Near) : e'.Near := by
  intro d hd
  rw [h.config]
  exact h.deadline.le (fun d => he.le h.now_le) hd

theorem Cycle.now_le (h : e.Cycle told e') : e.timed.now ≤ e'.now := by
  obtain ⟨k, hclock⟩ := h.clock
  rw [Nat.add_assoc, Clock.after_one_add] at hclock
  unfold now
  rw [hclock]
  exact Clock.now_le_after _ _

/-- However a cycle ends, a number of its requests have set the deadline. -/
theorem Cycle.deadline (h : e.Cycle told e') :
    ∃ n, n ≤ requests told ∧
      Schedule.Armed e.config.settle e.timed.now e'.now e.schedule.deadline n e'.schedule.deadline := by
  obtain ⟨granted, hverdict, hdeadline⟩ := h.verdict
  refine ⟨granted, ?_, hdeadline⟩
  cases hverdict with
  | settled => exact Nat.le_refl _
  | failed => exact Nat.le_refl _
  | stormed => exact Nat.le_add_right _ _

theorem Cycle.phase (h : e.Cycle told e') : e'.schedule.phase ≠ .rendering := by
  obtain ⟨granted, hverdict, -⟩ := h.verdict
  cases hverdict with
  | settled phase => rw [phase]; nofun
  | failed fault calm phase => rw [phase]; nofun
  | stormed untrusted exceeded phase => rw [phase]; nofun

theorem Cycle.timely (h : e.Cycle told e') (he : e.Near) : e'.Timely := by
  refine ⟨h.phase, fun d hd => ?_⟩
  obtain ⟨n, -, hdeadline⟩ := h.deadline
  rw [h.config]
  exact hdeadline.le (fun d => he.le (Nat.le_trans e.clock.now_le_read h.now_le)) hd

theorem Turn.timely (h : e.Turn told e') (he : e.Near) : e'.Timely := by
  cases h with
  | outside h => exact ⟨h.phase, h.near he⟩
  | cycle h hc _ => exact hc.timely (h.near he)

/-- Each request leaves a timely engine timely. -/
theorem Timely.request {n : Nat} {r : Request} (he : e.Timely) (hr : (r.run n e).engine? = some e') : e'.Timely := by
  cases Request.answer he.phase hr with
  | passive hpoll hs hnow hsettle ht =>
    refine ⟨by rw [hs]; exact he.phase, fun d hd => ?_⟩
    have hle := he.near d (hs ▸ hd)
    omega
  | early hpoll hd he' ht =>
    subst he'
    have hnow : e.now ≤ e.timed.now := e.clock.now_le_read
    exact ⟨he.phase, fun d hd => he.near.le hnow hd⟩
  | due hpoll hd hc => exact hc.timely nofun
  | turn hpoll ht => exact ht.timely he.near

theorem Reachable.timely (he : e.Reachable) : e.Timely := by
  induction he with
  | new config => exact ⟨nofun, nofun⟩
  | request n r _ hr ih => exact ih.request hr

/-! ### No request is lost -/

/-- A request has run a render that was refused as a storm. -/
def Stormed (e e' : Engine) : Prop :=
  e.schedule.renders < e'.schedule.renders ∧ ∃ quota, e'.report = some (.ofFault (.storm quota))

theorem Cycle.armed (h : e.Cycle told e') (ht : 0 < requests told)
    (hs : ¬∃ quota, e'.report = some (.ofFault (.storm quota))) : ∃ d, e'.schedule.deadline = some d := by
  obtain ⟨granted, hverdict, hdeadline⟩ := h.verdict
  cases hverdict with
  | settled => exact hdeadline.isSome ht
  | failed => exact hdeadline.isSome ht
  | stormed untrusted exceeded phase report => exact absurd ⟨_, report⟩ hs

/-- A deadline that there is when a cycle begins is there when it ends. -/
theorem Cycle.keeps_deadline (h : e.Cycle told e') {d : Nat} (hd : e.schedule.deadline = some d) :
    e'.schedule.deadline = some d := by
  obtain ⟨n, -, hdeadline⟩ := h.deadline
  rw [hd] at hdeadline
  exact hdeadline.keeps

theorem Outside.keeps_deadline (h : e.Outside told e') {d : Nat} (hd : e.schedule.deadline = some d) :
    e'.schedule.deadline = some d := by
  have hdeadline := h.deadline
  rw [hd] at hdeadline
  exact hdeadline.keeps

theorem Turn.keeps_deadline (h : e.Turn told e') {d : Nat} (hd : e.schedule.deadline = some d) :
    e'.schedule.deadline = some d := by
  cases h with
  | outside h => exact h.keeps_deadline hd
  | cycle h hc _ => exact hc.keeps_deadline (h.keeps_deadline hd)

theorem Turn.armed (h : e.Turn told e') (ht : 0 < requests told) (hs : ¬e.Stormed e') :
    ∃ d, e'.schedule.deadline = some d := by
  cases h with
  | outside h =>
    have hdirect : 0 < direct told := by
      have hcounted := h.counted
      unfold requests at ht
      omega
    exact h.deadline.isSome hdirect
  | @cycle e₁ before during h hc htold =>
    have hrenders : e.schedule.renders < e'.schedule.renders := by
      rw [hc.renders, h.renders]
      exact Nat.lt_succ_self _
    rcases Nat.eq_zero_or_pos (requests during) with hnone | hpos
    · have hdirect : 0 < direct before := by
        have hcounted := h.counted
        rw [htold, Diagnostic.requests_append, hnone, requests] at ht
        omega
      -- only the `init` section has asked, and the render keeps the deadline that this has set
      obtain ⟨d, hd⟩ := h.deadline.isSome hdirect
      exact ⟨d, hc.keeps_deadline hd⟩
    · exact hc.armed hpos fun hq => hs ⟨hrenders, hq⟩

/-- A request leaves a deadline if it would tell of any request for a re-render, unless it ends in a storm. -/
theorem Timely.armed {n : Nat} {r : Request} (he : e.Timely) (hr : (r.run n e).engine? = some e')
    (ht : 0 < requests (r.told n e)) (hs : ¬e.Stormed e') : ∃ d, e'.schedule.deadline = some d := by
  cases Request.answer he.phase hr with
  | passive hpoll _ _ _ hnone => exact absurd hnone (Nat.ne_of_gt ht)
  | early hpoll hd he' hnone =>
    rw [hnone] at ht
    exact absurd ht (Nat.lt_irrefl 0)
  | due hpoll hd hc =>
    have hrenders : e.schedule.renders < e'.schedule.renders :=
      Nat.lt_of_lt_of_eq (Nat.lt_succ_self _) hc.renders.symm
    exact hc.armed ht fun hq => hs ⟨hrenders, hq⟩
  | turn hpoll hturn => exact hturn.armed ht hs

/-! ### A deadline stands until it is polled -/

/-- The host has made requests, but no poll from a time on. -/
inductive Awaits (deadline : Nat) (e : Engine) : Engine → Prop
  | refl : Awaits deadline e e
  | request {e' e'' : Engine} (n : Nat) (r : Request) (h : Awaits deadline e e')
      (hp : r = .poll → e'.timed.now < deadline) (hr : (r.run n e').engine? = some e'') : Awaits deadline e e''

/-- Each request leaves a deadline as it is, unless it is a poll and the time has come. -/
theorem Timely.keeps_deadline {n d : Nat} {r : Request} (he : e.Timely) (hr : (r.run n e).engine? = some e')
    (hd : e.schedule.deadline = some d) (hp : r = .poll → e.timed.now < d) : e'.schedule.deadline = some d := by
  cases Request.answer he.phase hr with
  | passive hpoll hs _ _ _ => rw [hs, hd]
  | early hpoll _ he' _ =>
    subst he'
    exact hd
  | due hpoll hdue hc =>
    obtain ⟨d', hd', hle⟩ := Schedule.isDue_iff.1 hdue
    have hlt := hp hpoll
    rw [hd] at hd'
    cases hd'
    omega
  | turn hpoll ht => exact ht.keeps_deadline hd

theorem Awaits.advance (d time : Nat) (e : Engine) : e.Awaits d (e.advance time) :=
  .request 0 (.advance time) .refl nofun rfl

theorem Awaits.reachable {d : Nat} (h : e.Awaits d e') (he : e.Reachable) : e'.Reachable := by
  induction h with
  | refl => exact he
  | request n r _ _ hr ih => exact ih.request n r hr

theorem Awaits.keeps_deadline {d : Nat} (h : e.Awaits d e') (he : e.Reachable) (hd : e.schedule.deadline = some d) :
    e'.schedule.deadline = some d := by
  induction h with
  | refl => exact hd
  | request n r h hp hr ih => exact (h.reachable he).timely.keeps_deadline hr ih hp

theorem Cycle.deadline_of_none (h : e.Cycle told e') (hd : e.schedule.deadline = none) :
    e'.schedule.deadline = none ∨
      (0 < requests told ∧ ∃ time, e.timed.now ≤ time ∧ time ≤ e'.now ∧
        e'.schedule.deadline = some (time + e.config.settle)) := by
  obtain ⟨n, hn, hdeadline⟩ := h.deadline
  rw [hd] at hdeadline
  cases hafter : e'.schedule.deadline with
  | none => exact .inl rfl
  | some d =>
    rcases hdeadline.origin hafter with hnone | ⟨time, hs, hf, rfl⟩
    · cases hnone
    · refine .inr ⟨Nat.lt_of_lt_of_le ?_ hn, time, hs, hf, rfl⟩
      exact Nat.pos_of_ne_zero fun hzero => nomatch hafter.symm.trans (hdeadline.eq_none_iff.2 hzero)

/-- A poll whose time has come is one render of the engine without its deadline. -/
theorem poll_fires {d : Nat} (hd : e.schedule.deadline = some d) (hle : d ≤ e.timed.now) (n : Nat) :
    (Action.poll n e = .tooDeep ∧ Action.render n (Action.disarmed e) = .tooDeep) ∨
      ∃ e' journal, Action.poll n e = .done true e' journal ∧
        Action.render n (Action.disarmed e) = .done () e' journal ∧
        (Action.disarmed e).Cycle (Request.poll.told n e) e' := by
  have hdue : e.isDue = true := Schedule.isDue_iff.2 ⟨d, hd, hle⟩
  have hpoll := Action.poll_of_due n hdue
  have hrender := Action.render_tells n (Action.disarmed e)
  cases ho : Action.render n (Action.disarmed e) with
  | done _ e' journal =>
    have hdone : Action.poll n e = .done true e' journal := by
      rw [hpoll, Action.bind_of_done ho]
      exact congrArg (Outcome.done true e') (List.append_nil journal)
    refine .inr ⟨e', journal, hdone, rfl, ?_⟩
    rcases Request.poll_cases (congrArg Outcome.engine? (Action.bind_of_done hdone)) with ⟨-, hc⟩ | ⟨hearly, -⟩
    · exact hc
    · exact absurd (hdue.symm.trans hearly) Bool.false_ne_true.symm
  | failed fault e' journal =>
    rw [ho] at hrender
    cases hrender
  | tooDeep => exact .inl ⟨by rw [hpoll, Action.bind_of_tooDeep ho], rfl⟩

/-- No request for a re-render is lost, and requests that share a deadline share a render, however the clock moves, also
while something runs. What the host asks for leaves a deadline, near enough, if it would tell of such a request, unless
it ends in a storm. The deadline stands until it is polled and the poll reads that time or a later one. That poll ends
as one render ends, and leaves a deadline only for requests of its own, the settling time after one of its readings. -/
theorem rerenders_coalesce (he : e.Reachable) :
    (∀ n (r : Request) e', (r.run n e).engine? = some e' → 0 < requests (r.told n e) → ¬e.Stormed e' →
      ∃ d, e'.schedule.deadline = some d ∧ d ≤ e'.now + e'.config.settle) ∧
    ∀ d e', e.schedule.deadline = some d → e.Awaits d e' → e'.schedule.deadline = some d ∧ (d ≤ e'.timed.now → ∀ n,
      (Action.poll n e' = .tooDeep ∧ Action.render n (Action.disarmed e') = .tooDeep) ∨
        ∃ e'' journal, Action.poll n e' = .done true e'' journal ∧
          Action.render n (Action.disarmed e') = .done () e'' journal ∧
          e''.schedule.renders = e'.schedule.renders + 1 ∧
          (e''.schedule.deadline = none ∨
            (0 < requests (Request.poll.told n e') ∧ ∃ time, e'.timed.timed.now ≤ time ∧ time ≤ e''.now ∧
              e''.schedule.deadline = some (time + e'.config.settle)))) := by
  constructor
  · intro n r e' hr ht hs
    obtain ⟨d, hd⟩ := he.timely.armed hr ht hs
    exact ⟨d, hd, (he.timely.request hr).near d hd⟩
  · intro d e' hd h
    have hd' := h.keeps_deadline he hd
    refine ⟨hd', fun hle n => ?_⟩
    rcases poll_fires hd' hle n with htoo | ⟨e'', journal, hpoll, hrender, hc⟩
    · exact .inl htoo
    · exact .inr ⟨e'', journal, hpoll, hrender, hc.renders, hc.deadline_of_none rfl⟩

/-- A program that asks for a re-render when it starts and whenever it is rendered. -/
def restless : Program where
  sections := [⟨initLabel, false, [.single (.symbol "start") .render]⟩,
    ⟨mainLabel, true, [.single (.symbol "again") .render]⟩]

/-- An engine with this program, whose clock goes on by a microsecond whenever it is read. -/
def ticking : Engine := ((Engine.new {}).loaded restless).lapse (List.replicate 20 1000)

theorem reachable_ticking : ticking.Reachable :=
  (reachable_loaded {} restless).request 0 (.lapse (List.replicate 20 1000)) rfl

/-- Mounting it makes two requests at different times, which share a deadline and the render of one poll. -/
theorem rerenders_coalesce_restless :
    requests ((Request.boot .root).told 2 ticking) = 2 ∧
      ∃ e : Engine, ((Request.boot .root).run 2 ticking).engine? = some e ∧ e.now = 5000 ∧
        (∃ d, e.schedule.deadline = some d ∧ d ≤ e.now + e.config.settle) ∧
        (e.advance 100000000).schedule.deadline = some 100001000 ∧
        ∃ e' journal, Action.poll 2 (e.advance 100000000) = .done true e' journal ∧
          e'.schedule.renders = e.schedule.renders + 1 := by
  have htold : requests ((Request.boot .root).told 2 ticking) = 2 := by decide +kernel
  have hboot : ((Request.boot .root).run 2 ticking).engine?.map (fun e =>
      (e.now, e.report, e.schedule.deadline, (Action.poll 2 (e.advance 100000000)).engine?.isSome)) =
        some (5000, none, some 100001000, true) := by decide +kernel
  obtain ⟨e, hrun, hstate⟩ := Option.map_eq_some_iff.1 hboot
  simp only [Prod.mk.injEq] at hstate
  obtain ⟨hnow, hreport, hdeadline, hpoll⟩ := hstate
  have hcalm : ¬ticking.Stormed e := fun ⟨_, _, h⟩ => nomatch hreport.symm.trans h
  have hpos : 0 < requests ((Request.boot .root).told 2 ticking) := by
    rw [htold]
    exact Nat.zero_lt_two
  have harmed := (rerenders_coalesce reachable_ticking).1 2 (.boot .root) e hrun hpos hcalm
  have hreachable := reachable_ticking.request 2 (.boot .root) hrun
  have hkept := (rerenders_coalesce hreachable).2 _ _ hdeadline (.advance _ 100000000 e)
  refine ⟨htold, e, hrun, hnow, harmed, hkept.1, ?_⟩
  have hcome : 100001000 ≤ (e.advance 100000000).timed.now := by
    have hread := (e.clock.advance 100000000).now_le_read
    have hadvance : (e.clock.advance 100000000).now = e.now + 100000000 := rfl
    change 100001000 ≤ (e.clock.advance 100000000).read.now
    omega
  rcases hkept.2 hcome 2 with ⟨htoo, -⟩ | ⟨e', journal, hdone, -, hrenders, -⟩
  · rw [htoo] at hpoll
    cases hpoll
  · exact ⟨e', journal, hdone, hrenders⟩

/-! ### What a storm leaves -/

/-- Only a storm is reported as one. -/
theorem isStorm_of_reported {fault : Fault} {quota : Nat} (h : Report.ofFault fault = .ofFault (.storm quota)) :
    fault.isStorm = true := by
  have hkind : fault.kind = (Fault.storm quota).kind := congrArg Report.kind h
  cases fault with
  | storm => rfl
  | _ => simp [Fault.kind] at hkind

theorem Cycle.of_storm (h : e.Cycle told e') (hs : ∃ quota, e'.report = some (.ofFault (.storm quota))) :
    e'.schedule.storm.exceeded = true ∧
      Schedule.Armed e.config.settle e.timed.now e'.now e.schedule.deadline (direct told) e'.schedule.deadline := by
  obtain ⟨quota, hreport⟩ := hs
  obtain ⟨granted, hverdict, hdeadline⟩ := h.verdict
  cases hverdict with
  | settled phase report guard => exact nomatch report.symm.trans hreport
  | failed fault calm phase report =>
    have hstorm := isStorm_of_reported (Option.some.inj (report.symm.trans hreport))
    exact absurd (calm.symm.trans hstorm) Bool.false_ne_true
  | stormed untrusted exceeded phase report => exact ⟨exceeded, hdeadline⟩

theorem Turn.deadline_of_storm (h : e.Turn told e') (hs : e.Stormed e') :
    Schedule.Armed e.config.settle e.now e'.now e.schedule.deadline (direct told) e'.schedule.deadline := by
  cases h with
  | outside h => exact absurd hs.1 (Nat.not_lt_of_le (Nat.le_of_eq h.renders))
  | @cycle e₁ _ _ h hc htold =>
    have hstorm := (hc.of_storm hs.2).2
    have hread := e₁.clock.now_le_read
    rw [h.config] at hstorm
    rw [htold, Diagnostic.direct_append]
    exact h.deadline.trans (hstorm.widen hread (Nat.le_refl _)) h.now_le (Nat.le_trans hread hc.now_le)

/-- After a storm that began without a deadline, there is one if some code has set it. -/
theorem Timely.deadline_of_storm {n : Nat} {r : Request} (he : e.Timely)
    (hd : e.schedule.deadline = none ∨ r = .poll) (hr : (r.run n e).engine? = some e') (hs : e.Stormed e') :
    ∃ start, Schedule.Armed e.config.settle start e'.now none (direct (r.told n e)) e'.schedule.deadline := by
  cases Request.answer he.phase hr with
  | passive hpoll hschedule _ _ _ =>
    have hrenders := hs.1
    rw [hschedule] at hrenders
    exact absurd hrenders (Nat.lt_irrefl _)
  | early hpoll _ he' _ =>
    subst he'
    exact absurd hs.1 (Nat.lt_irrefl _)
  | due hpoll _ hc => exact ⟨_, (hc.of_storm hs.2).2⟩
  | turn hpoll ht => exact ⟨e.now, hd.resolve_right hpoll ▸ ht.deadline_of_storm hs⟩

/-- The host has only polled and made requests that run no code. -/
inductive Unprompted (e : Engine) : Engine → Prop
  | refl : Unprompted e e
  | request {e' e'' : Engine} (n : Nat) (r : Request) (h : Unprompted e e') (hp : r.isPassive = true ∨ r = .poll)
      (hr : (r.run n e').engine? = some e'') : Unprompted e e''

/-- Without a deadline nothing is rendered unless the host asks for it. -/
theorem Unprompted.quiet (h : e.Unprompted e') (hd : e.schedule.deadline = none) :
    e'.schedule.deadline = none ∧ e'.schedule.renders = e.schedule.renders := by
  induction h with
  | refl => exact ⟨hd, rfl⟩
  | @request e₁ e₂ n r _ hp hr ih =>
    rcases hp with hpassive | rfl
    · rwa [(Request.passive_schedule hpassive hr).1]
    · rcases Request.poll_cases hr with ⟨hdue, -⟩ | ⟨-, rfl, -⟩
      · obtain ⟨d, hd', -⟩ := Schedule.isDue_iff.1 hdue
        exact nomatch ih.1.symm.trans hd'
      · exact ih

/-- A storm that began without a deadline ends without one exactly if none of its requests has set the deadline by
itself. Then nothing is rendered any more until the host asks for it. -/
theorem storm_quiet_iff {n : Nat} {r : Request} (he : e.Reachable)
    (hd : e.schedule.deadline = none ∨ r = .poll) (hr : (r.run n e).engine? = some e') (hs : e.Stormed e') :
    (e'.schedule.deadline = none ↔ direct (r.told n e) = 0) ∧
      (direct (r.told n e) = 0 → ∀ e'', e'.Unprompted e'' →
        e''.schedule.deadline = none ∧ e''.schedule.renders = e'.schedule.renders) := by
  obtain ⟨start, hdeadline⟩ := he.timely.deadline_of_storm hd hr hs
  exact ⟨hdeadline.eq_none_iff, fun hzero e'' h => h.quiet (hdeadline.eq_none_iff.2 hzero)⟩

/-- With a quota of zero, the first render of the restless program is a storm. It stays quiet. -/
theorem storm_quiet_iff_restless :
    ∃ e : Engine, (Request.render.run 2 ((Engine.new { quota := 0 }).loaded restless)).engine? = some e ∧
      ((Engine.new { quota := 0 }).loaded restless).Stormed e ∧ e.schedule.deadline = none ∧
      ∀ e', e.Unprompted e' → e'.schedule.deadline = none ∧ e'.schedule.renders = 1 := by
  have hrender : (Request.render.run 2 ((Engine.new { quota := 0 }).loaded restless)).engine?.map
      (fun e => (e.report, e.schedule.renders)) = some (some (.ofFault (.storm 0)), 1) := by decide +kernel
  have htold : direct (Request.render.told 2 ((Engine.new { quota := 0 }).loaded restless)) = 0 := by decide +kernel
  obtain ⟨e, hrun, hstate⟩ := Option.map_eq_some_iff.1 hrender
  simp only [Prod.mk.injEq] at hstate
  obtain ⟨hreport, hrenders⟩ := hstate
  have hs : ((Engine.new { quota := 0 }).loaded restless).Stormed e :=
    ⟨by rw [hrenders]; exact Nat.zero_lt_one, 0, hreport⟩
  have hquiet := storm_quiet_iff (reachable_loaded { quota := 0 } restless) (.inl rfl) hrun hs
  refine ⟨e, hrun, hs, hquiet.1.2 htold, fun e' h => ?_⟩
  rw [← hrenders]
  exact hquiet.2 htold e' h

/-- A program that asks for a re-render whenever it is rendered, and before that has a helper do so. -/
def insistent : Program where
  sections := [
    ⟨mainLabel, true, [.single (.symbol "first") (.call "helper" .callable), .single (.symbol "again") .render]⟩,
    ⟨"helper", false, [.single (.symbol "help") .render]⟩]

/-- Its first render is a storm that leaves a deadline. The poll at that time renders it again, and leaves another. -/
theorem storm_leaves_deadline :
    ∃ e e' : Engine, ((Engine.new { quota := 0 }).loaded insistent).Reachable ∧
      ((Engine.new { quota := 0 }).loaded insistent).schedule.deadline = none ∧
      (Request.render.run 3 ((Engine.new { quota := 0 }).loaded insistent)).engine? = some e ∧
      ((Engine.new { quota := 0 }).loaded insistent).Stormed e ∧ e.schedule.deadline = some 100000000 ∧
      e.Unprompted e' ∧ e.Stormed e' ∧ e'.schedule.deadline = some 200000000 := by
  have hrender : (Request.render.run 3 ((Engine.new { quota := 0 }).loaded insistent)).engine?.bind (fun e =>
      (Request.poll.run 3 (e.advance 100000000)).engine?.map fun e' =>
        ((e.report, e.schedule.renders, e.schedule.deadline), (e'.report, e'.schedule.renders, e'.schedule.deadline))) =
      some ((some (.ofFault (.storm 0)), 1, some 100000000), (some (.ofFault (.storm 0)), 2, some 200000000)) := by
    decide +kernel
  obtain ⟨e, hrun, hrest⟩ := Option.bind_eq_some_iff.1 hrender
  obtain ⟨e', hpoll, hstate⟩ := Option.map_eq_some_iff.1 hrest
  simp only [Prod.mk.injEq] at hstate
  obtain ⟨⟨hreport, hrenders, hdeadline⟩, hreport', hrenders', hdeadline'⟩ := hstate
  have hloop : e.Unprompted e' :=
    .request 3 .poll (.request 0 (.advance 100000000) .refl (.inl rfl) rfl) (.inr rfl) hpoll
  have hs : ((Engine.new { quota := 0 }).loaded insistent).Stormed e :=
    ⟨by rw [hrenders]; exact Nat.zero_lt_one, 0, hreport⟩
  have hs' : e.Stormed e' := ⟨by omega, 0, hreport'⟩
  exact ⟨e, e', reachable_loaded _ _, rfl, hrun, hs, hdeadline, hloop, hs', hdeadline'⟩

end Engine
end Trellis
