import Trellis.Proofs.Engine.Stable

/-!
# Actions that fail only in certain ways

An action is safe for an invariant and a predicate on faults if, started under the invariant, it ends under the
invariant, and a fault with which it ends satisfies the predicate. The rules below follow the ways in which actions
are put together. What an action reads off the engine is known to the action that comes next, and a fault that is
attempted is handed on with what is known of it. The instructions that only move operands fail in a few ways of their
own, so that they are safe for every invariant that does not speak of the stack.
-/
namespace Trellis

/-- The engine that is left satisfies an invariant, and a fault satisfies a predicate. -/
def Outcome.Meets {α : Type} (I : Engine → Prop) (Q : Fault → Prop) : Outcome α → Prop
  | .done _ e _ => I e
  | .failed fault e _ => I e ∧ Q fault
  | .tooDeep => True

namespace Outcome

variable {α : Type} {I : Engine → Prop} {Q : Fault → Prop} {o : Outcome α}

@[simp] theorem meets_after {journal : List Diagnostic} : (o.after journal).Meets I Q ↔ o.Meets I Q := by
  cases o <;> rfl

/-- Forgets what is known of the fault. -/
theorem Meets.leaves (h : o.Meets I Q) : o.Leaves I := by
  cases o with
  | done a e journal => exact h
  | failed fault e journal => exact h.1
  | tooDeep => trivial

end Outcome

namespace Action

variable {α β : Type}

/-- An action that starts under an invariant ends under it, and its faults satisfy a predicate. -/
def Safe (I : Engine → Prop) (Q : Fault → Prop) (x : Action α) : Prop := ∀ e, I e → (x e).Meets I Q

namespace Safe

variable {I : Engine → Prop} {Q : Fault → Prop}

theorem pure (a : α) : Safe I Q (Pure.pure a : Action α) := fun _ h => h

theorem get (f : Engine → α) : Safe I Q (get f) := fun _ h => h

theorem log (d : Diagnostic) : Safe I Q (log d) := fun _ h => h

/-- To fail is safe with a fault that is allowed for. -/
theorem fail {fault : Fault} (hq : Q fault) : Safe I Q (fail fault : Action α) := fun _ h => ⟨h, hq⟩

/-- A change of the engine has to keep the invariant, and nothing else. -/
theorem modify {f : Engine → Engine} (hf : ∀ e, I e → I (f e)) : Safe I Q (modify f) := hf

theorem ite {c : Prop} [Decidable c] {x y : Action α} (hx : Safe I Q x) (hy : Safe I Q y) :
    Safe I Q (if c then x else y) := by
  split
  · exact hx
  · exact hy

/-- One action after another: the second starts under the invariant because the first has ended under it. -/
theorem bind {x : Action α} {f : α → Action β} (hx : Safe I Q x) (hf : ∀ a, Safe I Q (f a)) :
    Safe I Q (x >>= f) := by
  intro e he
  have hxe := hx e he
  cases hr : x e with
  | done a e' journal =>
    rw [hr] at hxe
    rw [bind_of_done hr, Outcome.meets_after]
    exact hf a e' hxe
  | failed fault e' journal =>
    rw [hr] at hxe
    rw [bind_of_failed hr]
    exact hxe
  | tooDeep =>
    rw [bind_of_tooDeep hr]
    trivial

/-- On one engine: to go on with the value alone does not change how an action ends. -/
theorem bind_pure {x : Action α} {g : α → β} {e : Engine} (hx : (x e).Meets I Q) :
    ((x >>= fun a => Pure.pure (g a)) e).Meets I Q := by
  cases hr : x e with
  | done a e' journal =>
    rw [hr] at hx
    rw [bind_of_done hr, Outcome.meets_after]
    exact hx
  | failed fault e' journal =>
    rw [hr] at hx
    rw [bind_of_failed hr]
    exact hx
  | tooDeep =>
    rw [bind_of_tooDeep hr]
    trivial

/-- What is read off the engine is known where it is used next. -/
theorem get_bind {g : Engine → α} {f : α → Action β} (hf : ∀ e, I e → (f (g e) e).Meets I Q) :
    Safe I Q (Action.get g >>= f) := by
  intro e he
  rw [bind_of_done (x := Action.get g) (e := e) rfl, Outcome.meets_after]
  exact hf e he

/-- Each error is allowed for, and what comes next may use that there was none. -/
theorem ofExcept_bind {x : Except Fault α} {f : α → Action β} (herror : ∀ fault, x = .error fault → Q fault)
    (hok : ∀ a, x = .ok a → Safe I Q (f a)) : Safe I Q (ofExcept x >>= f) := by
  intro e he
  cases x with
  | ok a =>
    rw [bind_of_done (x := Action.ofExcept (.ok a)) (e := e) rfl, Outcome.meets_after]
    exact hok a rfl e he
  | error fault =>
    rw [bind_of_failed (x := Action.ofExcept (.error fault)) (e := e) rfl]
    exact ⟨he, herror fault rfl⟩

/-- What deals with a fault may use that the fault was allowed for. -/
theorem attempt_bind {x : Action α} {f : Except Fault α → Action β} (hx : Safe I Q x)
    (hok : ∀ a, Safe I Q (f (.ok a))) (herror : ∀ fault, Q fault → Safe I Q (f (.error fault))) :
    Safe I Q (attempt x >>= f) := by
  intro e he
  have hxe := hx e he
  cases hr : x e with
  | done a e' journal =>
    rw [hr] at hxe
    rw [bind_of_done (x := attempt x) (e := e) (a := .ok a) (by rw [attempt, hr]), Outcome.meets_after]
    exact hok a e' hxe
  | failed fault e' journal =>
    rw [hr] at hxe
    rw [bind_of_done (x := attempt x) (e := e) (a := .error fault) (by rw [attempt, hr]), Outcome.meets_after]
    exact herror fault hxe.2 e' hxe.1
  | tooDeep =>
    rw [bind_of_tooDeep (x := attempt x) (e := e) (by rw [attempt, hr])]
    trivial

/-- The invariant holds inside, and again outside when the bracket is left, with a fault or without one. -/
theorem bracket {enter : Engine → Engine} {leave : Engine → Engine → Engine} {x : Action α} (hx : Safe I Q x)
    (hi : ∀ e, I e → I (enter e)) (ho : ∀ e e', I e' → I (leave e e')) : Safe I Q (bracket enter leave x) := by
  intro e he
  have hxe := hx (enter e) (hi e he)
  unfold Action.bracket
  cases hr : x (enter e) with
  | done a e' journal =>
    rw [hr] at hxe
    exact ho e e' hxe
  | failed fault e' journal =>
    rw [hr] at hxe
    exact ⟨ho e e' hxe.1, hxe.2⟩
  | tooDeep => trivial

/-- What is undone after a fault has to keep the invariant. -/
theorem onFault {f : Engine → Engine} {x : Action α} (hx : Safe I Q x) (hf : ∀ e, I e → I (f e)) :
    Safe I Q (onFault f x) := by
  intro e he
  have hxe := hx e he
  unfold Action.onFault
  cases hr : x e with
  | done a e' journal =>
    rw [hr] at hxe
    exact hxe
  | failed fault e' journal =>
    rw [hr] at hxe
    exact ⟨hf e' hxe.1, hxe.2⟩
  | tooDeep => trivial

/-- To ask for a re-render never fails, and touches nothing but the clock and the schedule. -/
theorem rerender (hI : ∀ e clock schedule, I e → I { e with clock, schedule }) (site : Nat) :
    Safe I Q (rerender site) := by
  intro e he
  obtain ⟨journal, hr⟩ := rerender_eq site e
  rw [hr]
  exact hI e _ _ he

/-- An operation on the stack leaves the rest of the engine alone, and its faults are about operands. -/
theorem onStack (hI : ∀ e stack, I e → I { e with stack }) (hQ : ∀ fault : Fault, fault.IsOperand → Q fault)
    {f : Operands → Operands.Result α} (hf : Operands.Primitive f) : Safe I Q (onStack f) := by
  intro e he
  unfold Action.onStack
  have hfault : ∀ fault, (f e.stack).1 = .error fault → fault.IsOperand := fun _ => hf.isOperand
  split
  · exact hI e _ he
  case h_2 fault stack hr =>
    rw [hr] at hfault
    exact ⟨hI e _ he, hQ fault (hfault fault rfl)⟩

/-- An invariant that does not speak of the operands is safe with all instructions that only move these. -/
theorem operative (hI : ∀ e stack, I e → I { e with stack }) (hQ : ∀ fault : Fault, fault.IsOperand → Q fault) :
    Operative fun x => Safe I Q x where
  pure := pure
  bind := bind
  get _ := get _
  log _ := log _
  tell g _ _ := bind (get g) fun _ => log _
  raise h := fail (hQ _ h)
  onStack := onStack hI hQ

end Safe
end Action
end Trellis
