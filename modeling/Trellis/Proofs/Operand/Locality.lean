import Trellis.Proofs.Engine.Weave

/-!
# Code that does not reach below its own operands

Operations on the stack work at its top. Code that ends without a fault has found every operand it asked for, so it
does the same where other operands lie below: it takes none of them, and apart from them it leaves the same engine.
What earlier renders and handlers have left on the stack therefore has no influence on it. Only a diagnostic that
tells how many operands there are can differ.
-/
namespace Trellis

/-! ### Operations on the stack -/

/-- An operation that succeeds does the same above other operands. -/
def Operands.Local {α : Type} (f : Operands → Operands.Result α) : Prop :=
  ∀ {s s' : Operands} {a : α}, f s = (.ok a, s') → ∀ base, f (s ++ base) = (.ok a, s' ++ base)

namespace Operands

theorem peek_append {s : Operands} {offset : Nat} {v : Value} (h : s.peek offset = .ok v) (base : Operands) :
    peek offset (s ++ base) = .ok v := by
  unfold peek at h ⊢
  cases hv : s[offset]? with
  | none => simp [hv] at h
  | some w =>
    have hlt := (List.getElem?_eq_some_iff.1 hv).1
    rw [hv] at h
    rw [List.getElem?_append_left hlt, hv]
    exact h

theorem local_push (v : Value) : Local (push v) := by
  intro s s' a h base
  unfold push at h ⊢
  cases hv : v.fault? with
  | none =>
    rw [hv] at h
    cases h
    rfl
  | some fault => simp [hv] at h

theorem local_pop : Local pop := by
  intro s s' a h base
  cases s with
  | nil => simp [pop] at h
  | cons v s =>
    cases h
    rfl

theorem local_copy : Local copy := by
  intro s s' a h base
  cases s with
  | nil => simp [copy] at h
  | cons v s =>
    cases h
    rfl

/-- Both offsets lie above what is below. -/
theorem local_swap (i j : Nat) : Local (swap i j) := by
  intro s s' a h base
  unfold swap at h ⊢
  cases hi : s[i]? with
  | none => simp [hi] at h
  | some v =>
    cases hj : s[j]? with
    | none => simp [hi, hj] at h
    | some w =>
      have hilt := (List.getElem?_eq_some_iff.1 hi).1
      have hjlt := (List.getElem?_eq_some_iff.1 hj).1
      simp only [hi, hj] at h
      cases h
      rw [List.getElem?_append_left hilt, List.getElem?_append_left hjlt, hi, hj]
      simp [List.set_append_left, hilt, hjlt]

theorem local_calculate (operator : Operator) : Local (calculate operator) := by
  intro s s' a h base
  match s, h with
  | [], h => simp [calculate] at h
  | [_], h => simp [calculate] at h
  | right :: left :: s, h =>
    cases left with
    | text => simp [calculate] at h
    | number x =>
      cases right with
      | text => simp [calculate] at h
      | number y =>
        simp only [calculate, List.cons_append] at h ⊢
        cases hv : (Value.number (operator.apply x y)).fault? with
        | none =>
          rw [hv] at h
          cases h
          rfl
        | some fault => simp [hv] at h

theorem local_compare : Local compare := by
  intro s s' a h base
  match s, h with
  | [], h => simp [compare] at h
  | [_], h => simp [compare] at h
  | v :: w :: s, h =>
    cases h
    rfl

theorem local_peek (offset : Nat) : Local fun s => (s.peek offset, s) := by
  intro s s' a h base
  obtain ⟨hv, rfl⟩ := Prod.mk.inj h
  exact Prod.ext (peek_append hv base) rfl

theorem Primitive.isLocal {α : Type} {f : Operands → Operands.Result α} (hf : Primitive f) : Local f := by
  cases hf with
  | push v => exact local_push v
  | pop => exact local_pop
  | copy => exact local_copy
  | peek offset => exact local_peek offset
  | swap a b => exact local_swap a b
  | calculate operator => exact local_calculate operator
  | compare => exact local_compare

end Operands

/-! ### Actions -/

/-- An engine with other operands below its own. -/
def Engine.over (e : Engine) (base : Operands) : Engine := { e with stack := e.stack ++ base }

/-- Where one outcome has a value, the other has it too and differs only in the operands below, and in what it tells. -/
def Outcome.Lifts {α : Type} (base : Operands) : Outcome α → Outcome α → Prop
  | .done a e _, o => ∃ journal, o = .done a (e.over base) journal
  | _, _ => True

namespace Action

open Tree (Handle)

variable {α β : Type}

/-- An action that ends with a value does the same above other operands, and leaves them where they are. -/
def Local (x : Action α) : Prop := ∀ e base, (x e).Lifts base (x (e.over base))

namespace Local

theorem pure (a : α) : Local (Pure.pure a : Action α) := fun _ _ => ⟨[], rfl⟩

theorem fail (fault : Fault) : Local (fail fault : Action α) := fun _ _ => trivial

theorem log (d : Diagnostic) : Local (log d) := fun _ _ => ⟨_, rfl⟩

/-- What is read off the engine is not about the operands. -/
theorem get {g : Engine → α} (hg : ∀ e base, g (e.over base) = g e) : Local (get g) :=
  fun e base => ⟨[], by rw [Action.get, hg]⟩

theorem modify {f : Engine → Engine} (hf : ∀ e base, f (e.over base) = (f e).over base) : Local (modify f) :=
  fun e base => ⟨[], by rw [Action.modify, hf]⟩

theorem bind {x : Action α} {f : α → Action β} (hx : Local x) (hf : ∀ a, Local (f a)) : Local (x >>= f) := by
  intro e base
  have hxe := hx e base
  cases hr : x e with
  | done a e₁ j =>
    rw [hr] at hxe
    obtain ⟨j', hx'⟩ := hxe
    have hfe := hf a e₁ base
    rw [bind_of_done hr, bind_of_done hx']
    cases hr' : f a e₁ with
    | done b e₂ k =>
      rw [hr'] at hfe
      obtain ⟨k', hf'⟩ := hfe
      exact ⟨j' ++ k', by rw [hf']; rfl⟩
    | failed | tooDeep => trivial
  | failed fault e₁ j =>
    rw [bind_of_failed hr]
    trivial
  | tooDeep =>
    rw [bind_of_tooDeep hr]
    trivial

theorem make (f : Tree → α × Tree) : Local (make f) := fun _ _ => ⟨[], rfl⟩

theorem onTree (f : Tree → Except Tree.Fault Tree) : Local (onTree f) := by
  intro e base
  have htree : (e.over base).tree = e.tree := rfl
  unfold Action.onTree
  rw [htree]
  cases f e.tree with
  | ok tree => exact ⟨[], rfl⟩
  | error fault => trivial

theorem ofTree (f : Tree → Except Tree.Fault α) : Local (ofTree f) := by
  intro e base
  have htree : (e.over base).tree = e.tree := rfl
  unfold Action.ofTree
  rw [htree]
  cases f e.tree with
  | ok a => exact ⟨[], rfl⟩
  | error fault => trivial

theorem resolve (key : Key) : Local (resolve key) := fun _ _ => ⟨[], rfl⟩

theorem onStack {f : Operands → Operands.Result α} (hf : Operands.Local f) : Local (onStack f) := by
  intro e base
  have hstack : (e.over base).stack = e.stack ++ base := rfl
  unfold Action.onStack
  rw [hstack]
  cases hr : f e.stack with
  | mk result stack =>
    cases result with
    | ok a => exact ⟨[], by rw [hf hr base]; rfl⟩
    | error fault => trivial

theorem bracket {enter : Engine → Engine} {leave : Engine → Engine → Engine} {x : Action α} (hx : Local x)
    (henter : ∀ e base, enter (e.over base) = (enter e).over base)
    (hleave : ∀ e e' base, leave (e.over base) (e'.over base) = (leave e e').over base) :
    Local (bracket enter leave x) := by
  intro e base
  have hxe := hx (enter e) base
  unfold Action.bracket
  rw [henter]
  cases hr : x (enter e) with
  | done a e' j =>
    rw [hr] at hxe
    obtain ⟨j', hx'⟩ := hxe
    exact ⟨j', by rw [hx', Outcome.mapEngine, hleave]⟩
  | failed | tooDeep => trivial

theorem onFault {f : Engine → Engine} {x : Action α} (hx : Local x) : Local (onFault f x) := by
  intro e base
  have hxe := hx e base
  unfold Action.onFault
  cases hr : x e with
  | done a e' j =>
    rw [hr] at hxe
    obtain ⟨j', hx'⟩ := hxe
    exact ⟨j', by rw [hx']⟩
  | failed | tooDeep => trivial

theorem rerender (site : Nat) : Local (rerender site) := by
  intro e base
  obtain ⟨journal, hr⟩ := rerender_eq site e
  obtain ⟨journal', hr'⟩ := rerender_eq site (e.over base)
  rw [hr, hr']
  exact ⟨journal', rfl⟩

/-- Code looks below its own operands only to tell how many there are. -/
theorem woven : Woven @Local where
  pure := .pure
  bind := .bind
  get hg := .get fun e base => hg e e.config (e.stack ++ base) e.frames
  log _ := .log _
  tell _ _ _ _ _ := ⟨_, rfl⟩
  raise _ := .fail _
  onStack hf := .onStack hf.isLocal
  fail _ _ := .fail _
  outlook := .get fun _ _ => rfl
  ofTree := .ofTree
  miss _ := .fail _
  withContext _ _ hb := hb.bracket (fun _ _ => rfl) fun _ _ _ => rfl
  rerender := .rerender
  make _ := .make _
  place _ := .onTree _
  setText _ _ := .onTree _
  release _ := .modify fun _ _ => rfl
  undo _ _ hx := hx.onFault
  inFrame _ _ hb := hb.bracket (fun _ _ => rfl) fun _ _ _ => rfl
  withFocus _ _ hb := hb.bracket (fun _ _ => rfl) fun _ _ _ => rfl
  listener _ := .modify fun _ _ => rfl
  resolve := .resolve

theorem hereditary : Hereditary (Local (α := Unit)) := woven.hereditary fun _ _ => trivial

end Local

/-- Code that ends without a fault does the same on a stack that has other operands below: it leaves these where they
are, and all else that it leaves is the same. -/
theorem execute_above_others {n : Nat} {code : List Instruction} {e e' : Engine} {journal : List Diagnostic}
    (h : execute n code e = .done () e' journal) (base : Operands) :
    ∃ journal', execute n code { e with stack := e.stack ++ base } =
      .done () { e' with stack := e'.stack ++ base } journal' := by
  have hlocal := Local.hereditary.execute n code e base
  rw [h] at hlocal
  exact hlocal

/-- The operands that are left when there is no fault. -/
def operands? : Outcome α → Option Operands
  | .done _ e _ => some e.stack
  | _ => none

/-- Code that makes an item if the topmost operand equals itself. -/
def doubling : List Instruction :=
  [.single (.symbol "again") .copy, .single (.symbol "same") .compare,
    .conditional (.symbol "if") [.single (.symbol "item") (.element "li")]]

/-- It uses up its one operand, and another one below is still there in the end. -/
theorem execute_above_others_doubling :
    ∃ e' journal, execute 2 doubling { Engine.new {} with stack := [.text "own"] } = .done () e' journal ∧
      e'.stack = [] ∧
      ∃ journal', execute 2 doubling { Engine.new {} with stack := [.text "own", .text "left over"] } =
        .done () { e' with stack := [.text "left over"] } journal' := by
  have hrun : operands? (execute 2 doubling { Engine.new {} with stack := [.text "own"] }) = some [] := by
    decide +kernel
  cases hr : execute 2 doubling { Engine.new {} with stack := [.text "own"] } with
  | done a e' journal =>
    rw [hr] at hrun
    have hstack : e'.stack = [] := Option.some.inj hrun
    obtain ⟨journal', habove⟩ := execute_above_others hr [.text "left over"]
    rw [hstack] at habove
    exact ⟨e', journal, rfl, hstack, journal', habove⟩
  | failed | tooDeep =>
    rw [hr] at hrun
    cases hrun

end Action
end Trellis
