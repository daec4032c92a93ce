import Trellis.Proofs.Engine.Stable

/-!
# Code leaves its surroundings as it found them

Containers and conditionals open frames, containers move the focus, and calls change the context. Each of them
puts back what it found when its code ends, also when the code fails at any depth. What else code may change is
listed here by leaving it out: the operand stack, the tree, the deadline, the pending flag and the storm guard.
The registry and the listeners only grow, and the clock is only read.
-/
namespace Trellis

namespace Clock

/-- The clock when it has been read a number of times. -/
def after (c : Clock) : Nat → Clock
  | 0 => c
  | k + 1 => c.read.after k

@[simp] theorem after_zero (c : Clock) : c.after 0 = c := rfl

@[simp] theorem after_succ (c : Clock) (k : Nat) : c.after (k + 1) = c.read.after k := rfl

theorem after_one_add (c : Clock) (k : Nat) : c.after (1 + k) = c.read.after k := by rw [Nat.add_comm, after_succ]

theorem after_after (c : Clock) (j k : Nat) : (c.after j).after k = c.after (j + k) := by
  induction j generalizing c with
  | zero => rw [after_zero, Nat.zero_add]
  | succ j ih => rw [after_succ, ih, Nat.add_right_comm, after_succ]

theorem read_after (c : Clock) (k : Nat) : (c.after k).read = c.read.after k := by
  induction k generalizing c with
  | zero => rfl
  | succ k ih => exact ih c.read

theorem now_le_read (c : Clock) : c.now ≤ c.read.now := Nat.le_add_right _ _

/-- A clock never goes back. -/
theorem now_le_after (c : Clock) (k : Nat) : c.now ≤ (c.after k).now := by
  induction k generalizing c with
  | zero => exact Nat.le_refl _
  | succ k ih => exact Nat.le_trans c.now_le_read (ih c.read)

/-- Without lapses a clock stands still. -/
theorem after_of_still {c : Clock} (h : c.lapses = []) (k : Nat) : c.after k = c := by
  have hread : c.read = c := by
    cases c
    cases h
    rfl
  induction k with
  | zero => rfl
  | succ k ih => rw [after_succ, hread, ih]

end Clock

/-- The engine after some code differs from the one before only in what code may change. -/
structure Confined (e e' : Engine) : Prop where
  frames : e'.frames = e.frames
  context : e'.context = e.context
  focus : e'.focus = e.focus
  config : e'.config = e.config
  clock : ∃ k, e'.clock = e.clock.after k
  mount : e'.mount = e.mount
  resources : e'.resources = e.resources
  sections : e'.sections = e.sections
  report : e'.report = e.report
  phase : e'.schedule.phase = e.schedule.phase
  renders : e'.schedule.renders = e.schedule.renders
  sites : ∃ more, e'.sites.keys = e.sites.keys ++ more
  listeners : ∃ more, e'.listeners = e.listeners ++ more

namespace Confined

theorem refl (e : Engine) : Confined e e :=
  ⟨rfl, rfl, rfl, rfl, ⟨0, rfl⟩, rfl, rfl, rfl, rfl, rfl, rfl, ⟨[], by simp⟩, ⟨[], by simp⟩⟩

theorem trans {a b c : Engine} (hab : Confined a b) (hbc : Confined b c) : Confined a c where
  frames := hbc.frames.trans hab.frames
  context := hbc.context.trans hab.context
  focus := hbc.focus.trans hab.focus
  config := hbc.config.trans hab.config
  clock := by
    obtain ⟨j, hab⟩ := hab.clock
    obtain ⟨k, hbc⟩ := hbc.clock
    exact ⟨j + k, by rw [hbc, hab, Clock.after_after]⟩
  mount := hbc.mount.trans hab.mount
  resources := hbc.resources.trans hab.resources
  sections := hbc.sections.trans hab.sections
  report := hbc.report.trans hab.report
  phase := hbc.phase.trans hab.phase
  renders := hbc.renders.trans hab.renders
  sites := by
    obtain ⟨more, hab⟩ := hab.sites
    obtain ⟨more', hbc⟩ := hbc.sites
    exact ⟨more ++ more', by rw [hbc, hab, List.append_assoc]⟩
  listeners := by
    obtain ⟨more, hab⟩ := hab.listeners
    obtain ⟨more', hbc⟩ := hbc.listeners
    exact ⟨more ++ more', by rw [hbc, hab, List.append_assoc]⟩

end Confined

/-- Registering a key keeps the keys that are registered, with their numbers. -/
theorem Registry.resolve_keys (r : Registry) (key : Key) :
    ∃ more, (r.resolve key).2.keys = r.keys ++ more := by
  unfold resolve
  cases r.find? key with
  | none => exact ⟨[key], rfl⟩
  | some site => exact ⟨[], by simp⟩

/-- The number that a key is given leads back to the key. -/
theorem Registry.key?_resolve (r : Registry) (key : Key) : (r.resolve key).2.key? (r.resolve key).1 = some key := by
  unfold resolve
  cases hk : r.find? key with
  | none => simp [key?]
  | some site =>
    obtain ⟨hlt, hget, -⟩ := List.idxOf?_eq_some_iff.1 hk
    simp [key?, List.getElem?_eq_getElem hlt, hget]

theorem Registry.resolve_lt (r : Registry) (key : Key) : (r.resolve key).1 < (r.resolve key).2.keys.length :=
  (List.getElem?_eq_some_iff.1 (r.key?_resolve key)).1

theorem Schedule.arm_eq (s : Schedule) (time : Nat) : ∃ deadline, s.arm time = { s with deadline } := by
  unfold arm
  split
  · exact ⟨s.deadline, rfl⟩
  · exact ⟨some time, rfl⟩

namespace Action

theorem stable_confined : Stable Confined where
  refl := Confined.refl
  trans := Confined.trans
  stack _ e := { Confined.refl e with }
  tree e _ := { Confined.refl e with }
  site e key := { Confined.refl e with sites := e.sites.resolve_keys key }
  listener e l := { Confined.refl e with listeners := ⟨[l], rfl⟩ }
  time e := { Confined.refl e with clock := ⟨1, rfl⟩ }
  arm e time := by
    obtain ⟨deadline, h⟩ := e.schedule.arm_eq time
    rw [h]
    exact { Confined.refl e with }
  count e _ := { Confined.refl e with }
  pending e := { Confined.refl e with }
  -- what was put in front of the frames is still there when the code ends, so that the tail is what was found
  frame _ h := { h with frames := by rw [h.frames]; rfl }
  focus _ h := { h with focus := rfl }
  context _ h := { h with context := rfl }

/-- Running code and entering a section, however they end, leave the frames, the context and the focus as they
were, and change nothing but what code may change. -/
theorem execute_invoke_confined (n : Nat) (e : Engine) :
    (∀ code, (execute n code e).Leaves (Confined e)) ∧
      ∀ site label mode, (invoke n site label mode e).Leaves (Confined e) :=
  ⟨fun code => stable_confined.closed.execute n code e,
    fun site label mode => stable_confined.closed.invoke n site label mode e⟩

end Action
end Trellis
