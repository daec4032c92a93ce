import Trellis.Proofs.Engine.Weave
import Trellis.Proofs.Tree.WellFormed

/-!
# What running code can do to an engine

Most of the properties of code are about relations: an action keeps a relation if the relation holds between the engine
before and the engine after it, however the action ends. `Stable R` lists the changes that instructions make, one by
one: they work on the operand stack, edit the tree, register a site, bind a listener, ask for a re-render, and run code
inside a frame, a focus or a context of its own. To keep a relation that allows each of them is a woven property, so
that any code keeps it. `Closed R` asks instead that every instruction that makes output keeps the relation as a whole,
for relations that hold only once an instruction has put all its pieces together. `Quiet R` is what both have in common.
-/
namespace Trellis

/-- The engine that is left satisfies a predicate, whether there was a fault or not. -/
def Outcome.Leaves {α : Type} (P : Engine → Prop) : Outcome α → Prop
  | .done _ e _ => P e
  | .failed _ e _ => P e
  | .tooDeep => True

namespace Outcome

variable {α : Type} {P Q : Engine → Prop} {o : Outcome α}

@[simp] theorem leaves_after {journal : List Diagnostic} : (o.after journal).Leaves P ↔ o.Leaves P := by
  cases o <;> rfl

theorem leaves_mapEngine {f : Engine → Engine} :
    (o.mapEngine f).Leaves P ↔ o.Leaves fun e => P (f e) := by cases o <;> rfl

theorem Leaves.mono (ho : o.Leaves P) (h : ∀ e, P e → Q e) : o.Leaves Q := by
  cases o with
  | done a e journal => exact h e ho
  | failed fault e journal => exact h e ho
  | tooDeep => trivial

end Outcome

namespace Action

open Tree (Handle Edit)

variable {α β : Type}

/-- What is left is left by the second action, or by the first if it fails. -/
theorem leaves_bind {x : Action α} {f : α → Action β} {e : Engine} {P : Engine → Prop}
    (hd : ∀ a e' journal, x e = .done a e' journal → (f a e').Leaves P)
    (hf : ∀ fault e' journal, x e = .failed fault e' journal → P e') : ((x >>= f) e).Leaves P := by
  cases hr : x e with
  | done a e' journal =>
    rw [bind_of_done hr, Outcome.leaves_after]
    exact hd a e' journal hr
  | failed fault e' journal =>
    rw [bind_of_failed hr]
    exact hf fault e' journal hr
  | tooDeep =>
    rw [bind_of_tooDeep hr]
    trivial

theorem leaves_bind_pure {x : Action α} {g : α → β} {e : Engine} {P : Engine → Prop} (hx : (x e).Leaves P) :
    ((x >>= fun a => pure (g a)) e).Leaves P := by
  apply leaves_bind
  · intro a e' journal hr
    rw [hr] at hx
    exact hx
  · intro fault e' journal hr
    rw [hr] at hx
    exact hx

/-- After an attempt the second action runs in any case. -/
theorem leaves_attempt {x : Action α} {f : Except Fault α → Action β} {e : Engine} {P : Engine → Prop}
    (hd : ∀ a e' journal, x e = .done a e' journal → (f (.ok a) e').Leaves P)
    (hf : ∀ fault e' journal, x e = .failed fault e' journal → (f (.error fault) e').Leaves P) :
    ((attempt x >>= f) e).Leaves P := by
  apply leaves_bind
  · intro ended e' journal hr
    unfold attempt at hr
    cases hx : x e with
    | done a e₁ j =>
      rw [hx] at hr
      cases hr
      exact hd a _ _ hx
    | failed fault e₁ j =>
      rw [hx] at hr
      cases hr
      exact hf fault _ _ hx
    | tooDeep =>
      rw [hx] at hr
      cases hr
  · intro fault e' journal hr
    unfold attempt at hr
    cases hx : x e with
    | done | failed | tooDeep =>
      rw [hx] at hr
      cases hr

/-! ### Relations that actions keep -/

/-- The engine that an action leaves stands in a relation to the engine it began on. -/
def Keeps (R : Engine → Engine → Prop) (x : Action α) : Prop := ∀ e, (x e).Leaves (R e)

section

variable {R : Engine → Engine → Prop}

theorem Keeps.ite {c : Prop} [Decidable c] {x y : Action α} (hx : Keeps R x) (hy : Keeps R y) :
    Keeps R (if c then x else y) := by
  split
  · exact hx
  · exact hy

/-- It is enough to compare what is found before entering with what is left after leaving. -/
theorem Keeps.bracket {enter : Engine → Engine} {leave : Engine → Engine → Engine} {x : Action α}
    (hx : Keeps R x) (h : ∀ e e', R (enter e) e' → R e (leave e e')) : Keeps R (bracket enter leave x) := by
  intro e
  rw [Action.bracket, Outcome.leaves_mapEngine]
  exact (hx (enter e)).mono (h e)

end

/-- The relation can be followed from one action to the next. -/
structure Chain (R : Engine → Engine → Prop) : Prop where
  refl : ∀ e, R e e
  trans : ∀ {a b c}, R a b → R b c → R a c

namespace Chain

variable {R : Engine → Engine → Prop}

theorem pure (hR : Chain R) (a : α) : Keeps R (Pure.pure a : Action α) := hR.refl

theorem fail (hR : Chain R) (fault : Fault) : Keeps R (fail fault : Action α) := hR.refl

theorem get (hR : Chain R) (f : Engine → α) : Keeps R (get f) := hR.refl

theorem log (hR : Chain R) (d : Diagnostic) : Keeps R (log d) := hR.refl

theorem bind (hR : Chain R) {x : Action α} {f : α → Action β} (hx : Keeps R x)
    (hf : ∀ a, Keeps R (f a)) : Keeps R (x >>= f) := by
  intro e
  have hxe := hx e
  apply leaves_bind
  · intro a e' journal hr
    rw [hr] at hxe
    exact (hf a e').mono fun _ h => hR.trans hxe h
  · intro fault e' journal hr
    rw [hr] at hxe
    exact hxe

/-- What is read off the tree changes nothing, also if it cannot be read. -/
theorem ofTree (hR : Chain R) (f : Tree → Except Tree.Fault α) : Keeps R (ofTree f) := by
  intro e
  unfold Action.ofTree
  split
  · exact hR.refl e
  · exact hR.refl e

/-- The change that follows a fault is one more step. -/
theorem onFault (hR : Chain R) {f : Engine → Engine} {x : Action α} (hx : Keeps R x)
    (hf : ∀ e, R e (f e)) : Keeps R (onFault f x) := by
  intro e
  have hxe := hx e
  unfold Action.onFault
  cases hr : x e with
  | done a e' journal =>
    rw [hr] at hxe
    exact hxe
  | failed fault e' journal =>
    rw [hr] at hxe
    exact hR.trans hxe (hf e')
  | tooDeep => trivial

end Chain

/-! ### Instructions without output -/

/-- The relation allows the changes that instructions make apart from output and the registration of sites. -/
structure Quiet (R : Engine → Engine → Prop) : Prop extends Chain R where
  stack : ∀ {α : Type} {f : Operands → Operands.Result α}, Operands.Primitive f →
    ∀ e, R e { e with stack := (f e.stack).2 }
  time : ∀ e, R e e.timed
  arm : ∀ e time, R e { e with schedule := e.schedule.arm time }
  count : ∀ e time, R e { e with schedule := { e.schedule with storm := (e.schedule.storm.tick time).record } }
  pending : ∀ e, R e { e with schedule := { e.schedule with pending := true } }
  focus : ∀ {e e'} focus, R { e with focus } e' → R e { e' with focus := e.focus }
  context : ∀ {e e'} context, R { e with context } e' → R e { e' with context := e.context }

namespace Quiet

variable {R : Engine → Engine → Prop}

/-- The stack that an operation leaves is left with a fault as well as without. -/
theorem onStack (hR : Quiet R) {f : Operands → Operands.Result α} (hf : Operands.Primitive f) :
    Keeps R (onStack f) := by
  intro e
  have hstack := hR.stack hf e
  unfold Action.onStack
  split
  case h_1 hr =>
    rw [hr] at hstack
    exact hstack
  case h_2 hr =>
    rw [hr] at hstack
    exact hstack

theorem rerender (hR : Quiet R) (site : Nat) : Keeps R (rerender site) := by
  intro e
  obtain ⟨journal, hr⟩ := rerender_eq site e
  rw [hr, Outcome.Leaves, Engine.asked]
  split
  · exact hR.trans (hR.time e) (hR.trans (hR.arm e.timed _) (hR.pending _))
  · exact hR.trans (hR.time e) (hR.trans (hR.count e.timed _) (hR.pending _))

theorem withFocus (hR : Quiet R) (node : Handle) {body : Action Unit} (hb : Keeps R body) :
    Keeps R (withFocus node body) := .bracket hb fun _ _ h => hR.focus (some node) h

/-- To keep the relation is a property of all instructions that make no output. -/
theorem inward (hR : Quiet R) : Inward fun x => Keeps R x where
  pure := hR.pure
  bind := hR.bind
  get _ := hR.get _
  log _ := hR.log _
  tell g _ _ := hR.bind (hR.get g) fun _ => hR.log _
  raise _ := hR.fail _
  onStack := hR.onStack
  fail _ _ := hR.fail _
  outlook := hR.get _
  ofTree := hR.ofTree
  miss _ := hR.fail _
  withContext context _ hb := .bracket hb fun _ _ h => hR.context context h
  rerender := hR.rerender

end Quiet

/-! ### Relations that code keeps -/

/-- Moreover each instruction that makes output keeps the relation, if the code inside it does. -/
structure Closed (R : Engine → Engine → Prop) : Prop extends Quiet R where
  site : ∀ e key, R e { e with sites := (e.sites.resolve key).2 }
  container : ∀ site enclosure {body}, Keeps R body → Keeps R (container site enclosure body)
  conditional : ∀ site {body}, Keeps R body → Keeps R (conditional site body)
  leaf : ∀ site tag, Keeps R (leaf site tag)
  value : ∀ site raw content, Keeps R (value site raw content)
  listen : ∀ site event handler, Keeps R (listen site event handler)

/-- The relation allows every single change that any instruction makes to an engine. -/
structure Stable (R : Engine → Engine → Prop) : Prop extends Quiet R where
  site : ∀ e key, R e { e with sites := (e.sites.resolve key).2 }
  tree : ∀ e (x : Edit), R e { e with tree := e.tree.edit x }
  listener : ∀ e l, R e { e with listeners := e.listeners ++ [l] }
  frame : ∀ {e e'} frame, R { e with frames := frame :: e.frames } e' →
    R e { e' with frames := e'.frames.tail }

namespace Closed

variable {R : Engine → Engine → Prop}

/-- Single instructions, if the code that a call enters keeps the relation. -/
theorem perform (hR : Closed R) {run : List Instruction → Action Unit} (hrun : ∀ code, Keeps R (run code))
    (site : Nat) (operation : Operation) : Keeps R (perform run site operation) :=
  hR.inward.perform (hR.leaf site) (hR.value site) (hR.listen site) fun label mode _ =>
    hR.inward.call hrun site label mode

theorem hereditary (hR : Closed R) : Hereditary (Keeps R) where
  pure := hR.pure ()
  tooDeep _ := trivial
  seq hx hy := hR.bind hx fun _ => hy
  resolve key _ hf := hR.bind (fun e => hR.site e key) hf
  container := hR.container
  conditional := hR.conditional
  perform := hR.perform

theorem step (hR : Closed R) {run : List Instruction → Action Unit} (hrun : ∀ code, Keeps R (run code))
    (i : Instruction) : Keeps R (step run i) := hR.hereditary.step hrun i

theorem execute (hR : Closed R) (n : Nat) (code : List Instruction) : Keeps R (execute n code) :=
  hR.hereditary.execute n code

theorem invoke (hR : Closed R) (n site : Nat) (label : String) (mode : Mode) :
    Keeps R (invoke n site label mode) := hR.hereditary.invoke n site label mode

end Closed

namespace Stable

variable {R : Engine → Engine → Prop}

/-- What is made is made by one of the tree's edits. -/
theorem make (hR : Stable R) {f : Tree → α × Tree} (hf : ∀ t, ∃ x : Edit, t.edit x = (f t).2) :
    Keeps R (make f) := by
  intro e
  obtain ⟨x, hx⟩ := hf e.tree
  have h := hR.tree e x
  rw [hx] at h
  exact h

/-- What is done to the tree is one of its edits, and nothing if it fails. -/
theorem onTree (hR : Stable R) {f : Tree → Except Tree.Fault Tree}
    (hf : ∀ t : Tree, ∃ x : Edit, t.edit x = t.after (f t)) : Keeps R (onTree f) := by
  intro e
  obtain ⟨x, hx⟩ := hf e.tree
  have h := hR.tree e x
  rw [hx] at h
  unfold Action.onTree
  cases hr : f e.tree with
  | ok tree =>
    rw [hr] at h
    exact h
  | error fault => exact hR.refl e

/-- Nodes are released one after the other. -/
theorem release (hR : Stable R) (nodes : List Handle) :
    Keeps R (modify fun e => { e with tree := nodes.foldl Tree.release e.tree }) := by
  intro e
  change R e { e with tree := nodes.foldl Tree.release e.tree }
  induction nodes generalizing e with
  | nil => exact hR.refl e
  | cons node nodes ih => exact hR.trans (hR.tree e (.release node)) (ih { e with tree := e.tree.release node })

/-- To keep the relation is a property of all that instructions are made of. -/
theorem woven (hR : Stable R) : Woven fun x => Keeps R x :=
  { hR.inward with
    make := by
      intro _ f hf
      cases hf with
      | createElement tag => exact hR.make fun _ => ⟨.createElement tag, rfl⟩
      | parse source => exact hR.make fun _ => ⟨.parse source, rfl⟩
    place := by
      intro f hf
      cases hf with
      | append parent child => exact hR.onTree fun _ => ⟨.append parent child, rfl⟩
      | setAttribute node name value => exact hR.onTree fun _ => ⟨.setAttribute node name value, rfl⟩
      | addEvent node event => exact hR.onTree fun _ => ⟨.addEvent node event, rfl⟩
    setText := fun node text => hR.onTree fun _ => ⟨.setText node text, rfl⟩
    release := hR.release
    undo := fun node _ hx => hR.onFault hx fun e => hR.tree e (.release node)
    inFrame := fun frame _ hb => .bracket hb fun _ _ h => hR.frame frame h
    withFocus := fun node _ hb => hR.withFocus node hb
    listener := fun l e => hR.listener e l
    resolve := fun key e => hR.site e key }

theorem closed (hR : Stable R) : Closed R :=
  { hR with
    container := fun site enclosure _ hb => hR.woven.container site enclosure hb
    conditional := fun site _ hb => hR.woven.conditional site hb
    leaf := hR.woven.leaf
    value := hR.woven.value
    listen := fun _ _ _ => hR.woven.listen fun _ => hR.woven.listener _ }

end Stable
end Action
end Trellis
