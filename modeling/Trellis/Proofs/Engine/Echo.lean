import Trellis.Proofs.Engine.Weave

/-!
# What code would tell

A trusted engine gives no diagnostics, so that its journal does not show what its code has done. Code does not look at
the flag, however: on the same engine with diagnostics on it ends in the same way, and the journal it then gives tells
what happened on either. An action traces a relation if it ends alike on both, and the relation holds between the
engine before, the fault if there is one, what the action would tell, and the engine after.

The relations are about the clockwork of an engine: its configuration, its clock, its schedule and its report. All
that code does apart from asking for re-renders leaves these alone.
-/
namespace Trellis

/-- The engine with its diagnostics on. -/
def Engine.loud (e : Engine) : Engine := e.setTrusted false

theorem Engine.stack_loud (e : Engine) : e.loud.stack = e.stack := rfl

theorem Engine.tree_loud (e : Engine) : e.loud.tree = e.tree := rfl

theorem Engine.loud_eq {e : Engine} (h : e.config.trusted = false) : e.loud = e := by
  cases e with
  | mk config =>
    cases config
    cases h
    rfl

/-- The two engines differ at most in what the clockwork does not look at. -/
structure Engine.Alike (e e' : Engine) : Prop where
  config : e'.config = e.config
  clock : e'.clock = e.clock
  schedule : e'.schedule = e.schedule
  report : e'.report = e.report

theorem Engine.Alike.refl (e : Engine) : e.Alike e := ⟨rfl, rfl, rfl, rfl⟩

/-- Two outcomes are the same but for the diagnostics. The second one is that of the loud engine. -/
inductive Outcome.Echoes {α : Type} (P : Option Fault → List Diagnostic → Engine → Prop) :
    Outcome α → Outcome α → Prop
  | done {a : α} {e : Engine} {told : List Diagnostic} (journal : List Diagnostic) (h : P none told e) :
    Echoes P (.done a e journal) (.done a e.loud told)
  | failed {fault : Fault} {e : Engine} {told : List Diagnostic} (journal : List Diagnostic)
    (h : P (some fault) told e) : Echoes P (.failed fault e journal) (.failed fault e.loud told)
  | tooDeep : Echoes P .tooDeep .tooDeep

namespace Outcome.Echoes

variable {α : Type} {P Q : Option Fault → List Diagnostic → Engine → Prop} {o o' : Outcome α}

theorem after (h : Echoes P o o') {told : List Diagnostic} (journal : List Diagnostic)
    (hPQ : ∀ fault later e, P fault later e → Q fault (told ++ later) e) :
    Echoes Q (o.after journal) (o'.after told) := by
  cases h with
  | done _ h => exact .done _ (hPQ _ _ _ h)
  | failed _ h => exact .failed _ (hPQ _ _ _ h)
  | tooDeep => exact .tooDeep

/-- The three ways to end alike. -/
theorem elim (h : Echoes P o o') :
    (∃ a e journal told, o = .done a e journal ∧ o' = .done a e.loud told ∧ P none told e) ∨
      (∃ fault e journal told, o = .failed fault e journal ∧ o' = .failed fault e.loud told ∧ P (some fault) told e) ∨
      o = .tooDeep ∧ o' = .tooDeep := by
  cases h with
  | done journal h => exact .inl ⟨_, _, _, _, rfl, rfl, h⟩
  | failed journal h => exact .inr (.inl ⟨_, _, _, _, rfl, rfl, h⟩)
  | tooDeep => exact .inr (.inr ⟨rfl, rfl⟩)

theorem bind_pure {β : Type} {x y : Action α} {e e' : Engine} (h : Echoes P (x e) (y e')) (f : α → β) :
    Echoes P ((x >>= fun a => pure (f a)) e) ((y >>= fun a => pure (f a)) e') := by
  change Echoes P (Action.bind x _ e) (Action.bind y _ e')
  unfold Action.bind
  generalize x e = o at h ⊢
  generalize y e' = o' at h ⊢
  cases h with
  | @done _ _ told journal h => exact .done _ (by rwa [List.append_nil told])
  | failed journal h => exact .failed journal h
  | tooDeep => exact .tooDeep

end Outcome.Echoes

namespace Action

open Tree (Handle)

variable {α β : Type}

/-- The action ends alike on an engine and on its loud copy, and what it does stands in a relation to what it would
tell. -/
def Traces (R : Engine → Option Fault → List Diagnostic → Engine → Prop) (x : Action α) : Prop :=
  ∀ e, (x e).Echoes (R e) (x e.loud)

/-- The relation can be followed from one action to the next, does not mind faults and diagnostics that are not about
re-renders, and looks at the clockwork only. -/
structure Traceable (R : Engine → Option Fault → List Diagnostic → Engine → Prop) : Prop where
  refl : ∀ e, R e none [] e
  trans : ∀ {a b c fault told later}, R a none told b → R b fault later c → R a fault (told ++ later) c
  fail : ∀ e {fault : Fault}, fault.isStorm = false → R e (some fault) [] e
  log : ∀ e {d : Diagnostic}, d.isRequest = false → R e none [d] e
  alike : ∀ {a b c d fault told}, a.Alike b → R b fault told c → c.Alike d → R a fault told d

variable {R : Engine → Option Fault → List Diagnostic → Engine → Prop}

namespace Traceable

/-! ### Combinators -/

theorem pure (hR : Traceable R) (a : α) : Traces R (Pure.pure a : Action α) := fun e => .done [] (hR.refl e)

theorem failing (hR : Traceable R) {fault : Fault} (h : fault.isStorm = false) :
    Traces R (Action.fail fault : Action α) := fun e => .failed [] (hR.fail e h)

/-- What is read must not depend on the flag. -/
theorem get (hR : Traceable R) {f : Engine → α} (hf : ∀ e, f e.loud = f e) : Traces R (get f) := by
  intro e
  change Outcome.Echoes (R e) (.done (f e) e []) (.done (f e.loud) e.loud [])
  rw [hf e]
  exact .done [] (hR.refl e)

theorem telling (hR : Traceable R) {d : Diagnostic} (hd : d.isRequest = false) : Traces R (Action.log d) :=
  fun e => .done _ (hR.log e hd)

theorem bind (hR : Traceable R) {x : Action α} {f : α → Action β} (hx : Traces R x)
    (hf : ∀ a, Traces R (f a)) : Traces R (x >>= f) := by
  intro e
  have hxe := hx e
  change Outcome.Echoes (R e) (Action.bind x f e) (Action.bind x f e.loud)
  unfold Action.bind
  generalize x e = o at hxe ⊢
  generalize x e.loud = o' at hxe ⊢
  cases hxe with
  | done journal h => exact (hf _ _).after journal fun _ _ _ hlater => hR.trans h hlater
  | failed journal h => exact .failed journal h
  | tooDeep => exact .tooDeep

/-- A change that the clockwork does not see. -/
theorem changing (hR : Traceable R) {f : Engine → Engine} (hf : ∀ e : Engine, e.Alike (f e))
    (hl : ∀ e, f e.loud = (f e).loud) : Traces R (modify f) := by
  intro e
  change Outcome.Echoes (R e) (.done () (f e) []) (.done () (f e.loud) [])
  rw [hl e]
  exact .done [] (hR.alike (.refl e) (hR.refl e) (hf e))

theorem bracket (hR : Traceable R) {enter : Engine → Engine} {leave : Engine → Engine → Engine} {x : Action α}
    (hx : Traces R x) (he : ∀ e : Engine, e.Alike (enter e)) (hl : ∀ e e' : Engine, e'.Alike (leave e e'))
    (hle : ∀ e, enter e.loud = (enter e).loud) (hll : ∀ e e', leave e.loud e'.loud = (leave e e').loud) :
    Traces R (bracket enter leave x) := by
  intro e
  have hxe := hx (enter e)
  unfold Action.bracket
  rw [hle e]
  generalize x (enter e) = o at hxe ⊢
  generalize x (enter e).loud = o' at hxe ⊢
  cases hxe with
  | done journal h =>
    rw [Outcome.mapEngine, Outcome.mapEngine, hll]
    exact .done journal (hR.alike (he e) h (hl e _))
  | failed journal h =>
    rw [Outcome.mapEngine, Outcome.mapEngine, hll]
    exact .failed journal (hR.alike (he e) h (hl e _))
  | tooDeep => exact .tooDeep

theorem onFault (hR : Traceable R) {f : Engine → Engine} {x : Action α} (hx : Traces R x)
    (hf : ∀ e : Engine, e.Alike (f e)) (hl : ∀ e, f e.loud = (f e).loud) : Traces R (onFault f x) := by
  intro e
  have hxe := hx e
  unfold Action.onFault
  generalize x e = o at hxe ⊢
  generalize x e.loud = o' at hxe ⊢
  cases hxe with
  | done journal h => exact .done journal h
  | failed journal h =>
    dsimp only
    rw [hl]
    exact .failed journal (hR.alike (.refl e) h (hf _))
  | tooDeep => exact .tooDeep

theorem onStack (hR : Traceable R) {f : Operands → Operands.Result α} (hf : Operands.Primitive f) :
    Traces R (onStack f) := by
  intro e
  have hfault : ∀ fault, (f e.stack).1 = .error fault → fault.IsOperand := fun _ => hf.isOperand
  unfold Action.onStack
  rw [e.stack_loud]
  generalize f e.stack = r at hfault ⊢
  obtain ⟨fault | a, stack⟩ := r
  · exact .failed [] (hR.alike (.refl e) (hR.fail e (hfault _ rfl).isStorm) ⟨rfl, rfl, rfl, rfl⟩)
  · exact .done [] (hR.alike (.refl e) (hR.refl e) ⟨rfl, rfl, rfl, rfl⟩)

theorem make (hR : Traceable R) (f : Tree → α × Tree) : Traces R (make f) :=
  fun e => .done [] (hR.alike (.refl e) (hR.refl e) ⟨rfl, rfl, rfl, rfl⟩)

theorem onTree (hR : Traceable R) (f : Tree → Except Tree.Fault Tree) : Traces R (onTree f) := by
  intro e
  unfold Action.onTree
  rw [e.tree_loud]
  cases f e.tree with
  | ok tree => exact .done [] (hR.alike (.refl e) (hR.refl e) ⟨rfl, rfl, rfl, rfl⟩)
  | error fault => exact .failed [] (hR.fail e rfl)

theorem ofTree (hR : Traceable R) (f : Tree → Except Tree.Fault α) : Traces R (ofTree f) := by
  intro e
  unfold Action.ofTree
  rw [e.tree_loud]
  cases f e.tree with
  | ok a => exact .done [] (hR.refl e)
  | error fault => exact .failed [] (hR.fail e rfl)

/-! ### Instructions -/

/-- To trace the relation is a property of all that output is made of. -/
theorem writing (hR : Traceable R) : Writing fun x => Traces R x where
  pure := hR.pure
  bind := hR.bind
  get hg := hR.get fun e => hg e e.loud.config e.stack e.frames
  log := hR.telling
  -- what is told may depend on the flag
  tell _ _ hd e := .done _ (hR.log e (hd _))
  raise h := hR.failing h.isStorm
  onStack := hR.onStack
  fail h _ := hR.failing h
  outlook := hR.get fun _ => rfl
  ofTree := hR.ofTree
  make _ := hR.make _
  place _ := hR.onTree _
  setText _ _ := hR.onTree _
  release _ := hR.changing (fun _ => ⟨rfl, rfl, rfl, rfl⟩) fun _ => rfl
  undo _ _ hx := hR.onFault hx (fun _ => ⟨rfl, rfl, rfl, rfl⟩) fun _ => rfl
  inFrame _ _ hb :=
    hR.bracket hb (fun _ => ⟨rfl, rfl, rfl, rfl⟩) (fun _ _ => ⟨rfl, rfl, rfl, rfl⟩) (fun _ => rfl) fun _ _ => rfl
  withFocus _ _ hb :=
    hR.bracket hb (fun _ => ⟨rfl, rfl, rfl, rfl⟩) (fun _ _ => ⟨rfl, rfl, rfl, rfl⟩) (fun _ => rfl) fun _ _ => rfl

/-- Code traces the relation if a request for a re-render does. -/
theorem woven (hR : Traceable R) (hask : ∀ site, Traces R (rerender site)) : Woven fun x => Traces R x :=
  { hR.writing with
    miss := fun h => hR.failing (Fault.isStorm_of_isLookup h)
    withContext := fun _ _ hb =>
      hR.bracket hb (fun _ => ⟨rfl, rfl, rfl, rfl⟩) (fun _ _ => ⟨rfl, rfl, rfl, rfl⟩) (fun _ => rfl) fun _ _ => rfl
    rerender := hask
    listener := fun _ => hR.changing (fun _ => ⟨rfl, rfl, rfl, rfl⟩) fun _ => rfl
    resolve := fun _ e => .done [] (hR.alike (.refl e) (hR.refl e) ⟨rfl, rfl, rfl, rfl⟩) }

end Traceable
end Action
end Trellis
