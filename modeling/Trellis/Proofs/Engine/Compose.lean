import Trellis.Proofs.Engine.Weave

/-!
# Properties that actions have if their parts do

Every action is put together from a few basic ones by a few constructions. A property that holds of the basic ones and
is kept by the constructions holds of instructions, since they are woven from these, and of what a host does as well. It
must not mind what is read off the engine. The configuration is the one part of the engine that no instruction changes,
so that the property may speak of engines with a certain configuration.
-/
namespace Trellis.Action

open Tree (Handle)

/-- The property holds of the basic actions and is kept by the ways of putting actions together. -/
structure Compositional (P : ∀ {α : Type}, Action α → Prop) : Prop where
  pure : ∀ {α : Type} (a : α), P (Pure.pure a : Action α)
  fail : ∀ {α : Type} (fault : Fault), P (fail fault : Action α)
  get : ∀ {α : Type} (f : Engine → α), P (get f)
  log : ∀ d, P (log d)
  modify : ∀ {f : Engine → Engine}, (∀ e, (f e).config = e.config) → P (modify f)
  onStack : ∀ {α : Type} (f : Operands → Operands.Result α), P (onStack f)
  make : ∀ {α : Type} (f : Tree → α × Tree), P (make f)
  onTree : ∀ f, P (onTree f)
  ofTree : ∀ {α : Type} (f : Tree → Except Tree.Fault α), P (ofTree f)
  resolve : ∀ key, P (resolve key)
  bind : ∀ {α β : Type} {x : Action α} {f : α → Action β}, P x → (∀ a, P (f a)) → P (x >>= f)
  attempt : ∀ {α : Type} {x : Action α}, P x → P (attempt x)
  bracket : ∀ {α : Type} {enter : Engine → Engine} {leave : Engine → Engine → Engine} {x : Action α}, P x →
    (∀ e, (enter e).config = e.config) → (∀ e e', (leave e e').config = e'.config) → P (bracket enter leave x)
  onFault : ∀ {α : Type} {f : Engine → Engine} {x : Action α}, P x → (∀ e, (f e).config = e.config) →
    P (onFault f x)

namespace Compositional

variable {P : ∀ {α : Type}, Action α → Prop} {α : Type}

theorem time (hP : Compositional P) : P time := by
  have htime : Action.time = (Action.modify Engine.timed >>= fun _ => Action.get Engine.now) := rfl
  rw [htime]
  exact hP.bind (hP.modify fun _ => rfl) fun _ => hP.get _

/-- A request for a re-render reads the clock and the schedule, and sets the deadline or counts. -/
theorem rerender (hP : Compositional P) (site : Nat) : P (rerender site) := by
  have hpending : P (Action.modify fun e => { e with schedule := { e.schedule with pending := true } }) :=
    hP.modify fun _ => rfl
  refine hP.bind hP.time fun now => ?_
  refine hP.bind (hP.get _) fun e => ?_
  split
  · exact hP.bind (hP.modify fun _ => rfl) fun _ => hP.bind (hP.get _) fun _ => hP.bind (hP.log _) fun _ => hpending
  · exact hP.bind (hP.modify fun _ => rfl) fun _ => hP.bind (hP.get _) fun _ => hP.bind (hP.log _) fun _ => hpending

theorem woven (hP : Compositional P) : Woven P where
  pure := hP.pure
  bind := hP.bind
  get _ := hP.get _
  log _ := hP.log _
  tell g _ _ := hP.bind (hP.get g) fun _ => hP.log _
  raise _ := hP.fail _
  onStack _ := hP.onStack _
  fail _ _ := hP.fail _
  outlook := hP.get _
  ofTree := hP.ofTree
  miss _ := hP.fail _
  withContext _ _ hb := hP.bracket hb (fun _ => rfl) fun _ _ => rfl
  rerender := hP.rerender
  make _ := hP.make _
  place _ := hP.onTree _
  setText _ _ := hP.onTree _
  release _ := hP.modify fun _ => rfl
  undo _ _ hx := hP.onFault hx fun _ => rfl
  inFrame _ _ hb := hP.bracket hb (fun _ => rfl) fun _ _ => rfl
  withFocus _ _ hb := hP.bracket hb (fun _ => rfl) fun _ _ => rfl
  listener _ := hP.modify fun _ => rfl
  resolve := hP.resolve

/-! ### Failures -/

theorem showError (hP : Compositional P) (report : Report) : P (showError report) :=
  hP.woven.showError (fun _ => hP.onTree _) report

theorem recover (hP : Compositional P) (fault : Fault) : P (recover fault) :=
  hP.woven.recover (hP.modify fun _ => rfl) (hP.attempt (hP.showError _)) (hP.modify fun _ => rfl)

end Compositional
end Trellis.Action
