import Trellis.Proofs.Tree.Rows

/-!
# Nodes in slots

Here a tree is kept as an arena. Each slot has the generation of its current handle and may hold a node, and a node
stores the handle of its parent and those of its children. So a link is stored at both of its ends, and every operation
writes the two ends one after the other. The slots that hold no node are kept on a stack.

Two operations are loops. Whether a node stands above another is found out by following the stored parents (`Ascent`),
and a node is freed together with what it holds by means of a stack of handles still to be visited (`Freeing`). Both are
given turn by turn, so that one can say when they end.

An operation that fails keeps what it has written until then: nothing is undone.
-/
namespace Trellis.Tree

attribute [ext] Handle

def Data.isText : Data → Bool
  | .element .. => false
  | .text _ => true

def Data.attribute? (name : String) : Data → Option String
  | .element _ attributes => attributes.get? name
  | .text _ => none

def Data.setAttributes (f : Attributes → Attributes) : Data → Data
  | .element tag attributes => .element tag (f attributes)
  | .text content => .text content

def Data.setContent (content : String) : Data → Data
  | .element tag attributes => .element tag attributes
  | .text _ => .text content

/-- A node as it is stored. -/
structure Cell where
  data : Data
  parent : Option Handle
  children : List Handle
  events : List String
deriving DecidableEq, Repr

namespace Cell

/-- A new node, which stands by itself. -/
def new (data : Data) : Cell := ⟨data, none, [], []⟩

def setData (f : Data → Data) (c : Cell) : Cell := { c with data := f c.data }

def setParent (parent : Option Handle) (c : Cell) : Cell := { c with parent }

def setChildren (f : List Handle → List Handle) (c : Cell) : Cell := { c with children := f c.children }

def addEvent (event : String) (c : Cell) : Cell :=
  { c with events := if event ∈ c.events then c.events else c.events ++ [event] }

end Cell

structure Slot where
  generation : UInt32
  cell : Option Cell
deriving DecidableEq, Repr

/-- The slots, and the places of those without a node, the one freed last first. -/
structure Arena where
  slots : List Slot
  free : List Nat
deriving DecidableEq, Repr

namespace Arena

/-! ### Reading and writing -/

/-- The node of a handle, if the slot still has the handle's generation. -/
def cell? (a : Arena) (h : Handle) : Option Cell :=
  (a.slots[h.slot]?.filter (·.generation = h.generation)).bind Slot.cell

def contains (a : Arena) (h : Handle) : Bool := (a.cell? h).isSome

def size (a : Arena) : Nat := a.slots.countP (·.cell.isSome)

/-- The current handle of a slot. -/
def handle (a : Arena) (i : Nat) : Handle := ⟨i, (a.slots[i]?.map Slot.generation).getD 0⟩

def parent? (a : Arena) (h : Handle) : Option Handle := (a.cell? h).bind Cell.parent

/-- Changes the node of a handle, if there is one. -/
def modify (a : Arena) (h : Handle) (f : Cell → Cell) : Arena :=
  { a with
    slots := a.slots.modify h.slot fun s =>
      if s.generation = h.generation then { s with cell := s.cell.map f } else s }

/-- A new node, in the slot freed last or in one that is made for it. -/
def alloc (a : Arena) (data : Data) : Handle × Arena :=
  match a.free with
  | i :: free => (a.handle i, ⟨a.slots.modify i fun s => { s with cell := some (.new data) }, free⟩)
  | [] => (⟨a.slots.length, 0⟩, { a with slots := a.slots ++ [⟨0, some (.new data)⟩] })

/-- Takes the node out of a slot, which gets its next generation. -/
def retire (a : Arena) (i : Nat) : Arena :=
  ⟨a.slots.modify i fun s => ⟨s.generation + 1, none⟩, i :: a.free⟩

/-! ### Following the parents -/

/-- A walk up that has come to a node, or behind the top, and its answer in the end. -/
inductive Ascent where
  | pending (current : Option Handle)
  | ended (found : Bool)
deriving DecidableEq, Repr

namespace Ascent

def turn (a : Arena) (candidate : Handle) : Ascent → Ascent
  | .ended found => .ended found
  | .pending none => .ended false
  | .pending (some h) => if h = candidate then .ended true else .pending (a.parent? h)

def run (a : Arena) (candidate : Handle) : Nat → Ascent → Ascent
  | 0, s => s
  | k + 1, s => run a candidate k (s.turn a candidate)

def found : Ascent → Bool
  | .ended found => found
  | .pending _ => false

end Ascent

/-- How many turns a walk up may take: one for each slot, one to see that the top is passed, and one more. -/
def ascentLimit (a : Arena) : Nat := a.slots.length + 2

/-- The candidate is the node or stands above it. -/
def isAncestor (a : Arena) (candidate h : Handle) : Bool :=
  (Ascent.run a candidate a.ascentLimit (.pending (some h))).found

/-! ### Freeing -/

/-- Nodes are being freed: the handles still to be visited, the next one first. -/
structure Freeing where
  arena : Arena
  pending : List Handle
deriving DecidableEq, Repr

namespace Freeing

/-- Visits one handle. A slot that is not there, has another generation or holds no node is left alone. -/
def turn (s : Freeing) : Freeing :=
  match s.pending with
  | [] => s
  | h :: rest =>
    match s.arena.slots[h.slot]? with
    | none => ⟨s.arena, rest⟩
    | some slot =>
      if slot.generation ≠ h.generation then ⟨s.arena, rest⟩
      else
        match slot.cell with
        | none => ⟨s.arena, rest⟩
        | some c => ⟨s.arena.retire h.slot, c.children.reverse ++ rest⟩

def run : Nat → Freeing → Freeing
  | 0, s => s
  | k + 1, s => run k s.turn

end Freeing

/-- How many turns freeing may take: one for each slot, and one more. -/
def freeingLimit (a : Arena) : Nat := a.slots.length + 1

/-- Frees a node and all that it holds. -/
def freeSubtree (a : Arena) (h : Handle) : Arena := (Freeing.run a.freeingLimit ⟨a, [h]⟩).arena

/-! ### Operations -/

/-- An operation gives a value or fails, and goes on with the arena as it has left it. -/
abbrev Op := EStateM Fault Arena

/-- The node of a handle, which has to be live. -/
def node (h : Handle) : Op Cell := do
  match (← get).cell? h with
  | some c => return c
  | none => throw (.unknownNode h.label)

/-- Changes the node of a handle, which has to be live. -/
def change (h : Handle) (f : Cell → Cell) : Op Unit := do
  let _ ← node h
  modifyThe Arena (·.modify h f)

/-- Takes a node from its parent. -/
def detach (child : Handle) : Op Unit := do
  match (← node child).parent with
  | none => return
  | some parent =>
    modifyThe Arena (·.modify parent (.setChildren (·.filter (· ≠ child))))
    change child (.setParent none)

/-- Takes a node from its parent and writes both ends of its new link, that of the parent first. -/
def move (parent child : Handle) : Op Unit := do
  detach child
  change parent (.setChildren (· ++ [child]))
  change child (.setParent (some parent))

def append (parent child : Handle) : Op Unit := do
  if (← node parent).data.isText then throw (.textNode .children)
  let _ ← node child
  if (← get).isAncestor child parent then throw (.invalidAppend parent.label child.label)
  move parent child

def clear (h : Handle) : Op Unit := do
  let c ← node h
  change h (.setChildren fun _ => [])
  modifyThe Arena (c.children.foldl freeSubtree)

/-- The root's handle cannot be released, and a handle that is not live is not. -/
def release (a : Arena) (h : Handle) : Arena :=
  if h = .root then a
  else
    match (detach h).run a with
    | .ok _ detached => detached.freeSubtree h
    | .error _ kept => kept

def setAttributes (h : Handle) (f : Attributes → Attributes) : Op Unit := do
  if (← node h).data.isText then throw (.textNode .attributes)
  change h (.setData (.setAttributes f))

def setText (h : Handle) (content : String) : Op Unit := do
  if (← node h).data.isText then change h (.setData (.setContent content))
  else
    clear h
    let child ← modifyGet (·.alloc (.text content))
    append h child

def addEvent (h : Handle) (event : String) : Op Unit := change h (.addEvent event)

def setChecked (h : Handle) (on : Bool) : Op Unit :=
  if on then setAttributes h (.set "checked" "") else setAttributes h (.erase "checked")

def setInput (h : Handle) (value : String) : Op Unit := do
  if ((← get).cell? h).bind (·.data.attribute? "type") = some "checkbox" then
    setChecked h (["true", "on", "1"].contains value)
  else setAttributes h (.set "value" value)

/-- Writes both ends of a link, that of the child first. -/
def link (a : Arena) (parent child : Handle) : Arena :=
  (a.modify child (.setParent (some parent))).modify parent (.setChildren (· ++ [child]))

mutual

/-- New nodes for a piece of markup. Each child is linked as soon as it is there with all that it holds. -/
def build (a : Arena) : Markup → Handle × Arena
  | .text content => a.alloc (.text content)
  | .element tag attributes children =>
    let made := a.alloc (.element tag (.ofList attributes))
    (made.1, buildUnder made.1 made.2 children)

def buildUnder (h : Handle) (a : Arena) : List Markup → Arena
  | [] => a
  | m :: ms =>
    let built := build a m
    buildUnder h (built.2.link h built.1) ms

end

def buildAll (a : Arena) : List Markup → List Handle × Arena
  | [] => ([], a)
  | m :: ms =>
    let built := a.build m
    let rest := built.2.buildAll ms
    (built.1 :: rest.1, rest.2)

def parse (a : Arena) (source : String) : List Handle × Arena := a.buildAll (Markup.parse source)

/-- An arena that holds only the root of a tree. -/
def new : Arena := ((⟨[], []⟩ : Arena).alloc (.element "div" [("id", "root")])).2

/-- The arena after an operation, whether it has failed or not. -/
def after (a : Arena) (x : Op Unit) : Arena :=
  match x.run a with
  | .ok _ a' => a'
  | .error _ a' => a'

def edit (a : Arena) : Edit → Arena
  | .createElement tag => (a.alloc (.element tag.toLower [])).2
  | .createText content => (a.alloc (.text content)).2
  | .parse source => (a.parse source).2
  | .append parent child => a.after (append parent child)
  | .setAttribute node name value => a.after (setAttributes node (.set name value))
  | .removeAttribute node name => a.after (setAttributes node (.erase name))
  | .setText node content => a.after (setText node content)
  | .clear node => a.after (clear node)
  | .release node => a.release node
  | .addEvent node event => a.after (addEvent node event)
  | .setInput node value => a.after (setInput node value)
  | .setChecked node on => a.after (setChecked node on)

def edits (a : Arena) (es : List Edit) : Arena := es.foldl edit a

/-! ### What is read after a write -/

section

variable {a : Arena} {h x : Handle} {i : Nat} {c : Cell}

theorem cell?_eq (a : Arena) (h : Handle) :
    a.cell? h = a.slots[h.slot]?.bind fun s => if s.generation = h.generation then s.cell else none := by
  rw [cell?]
  cases a.slots[h.slot]? with
  | none => rfl
  | some s =>
    rw [Option.filter, Option.bind_some]
    by_cases hg : s.generation = h.generation <;> simp [hg]

theorem cell?_eq_some_iff : a.cell? h = some c ↔ a.slots[h.slot]? = some ⟨h.generation, some c⟩ := by
  rw [cell?_eq, Option.bind_eq_some_iff]
  constructor
  · rintro ⟨⟨generation, cell⟩, hs, hc⟩
    split at hc
    · next hg => rw [hs, ← hg, ← hc]
    · cases hc
  · intro hs
    exact ⟨_, hs, if_pos rfl⟩

@[simp] theorem cell?_modify (a : Arena) (h x : Handle) (f : Cell → Cell) :
    (a.modify h f).cell? x = if x = h then (a.cell? x).map f else a.cell? x := by
  rw [cell?_eq, modify, List.getElem?_modify, cell?_eq]
  cases hs : a.slots[x.slot]? with
  | none => simp
  | some s =>
    simp only [Option.map_eq_map, Option.map_some, Option.bind_some]
    by_cases hx : x = h
    · subst hx
      by_cases hg : s.generation = x.generation <;> simp [hg]
    · rw [if_neg hx]
      by_cases hslot : h.slot = x.slot
      · have hne : x.generation ≠ h.generation := fun hg => hx (Handle.ext hslot.symm hg)
        by_cases hg : s.generation = h.generation <;> simp [hslot, hg, hne.symm]
      · simp [hslot]

/-- A slot's current handle depends on its generation only. -/
theorem handle_congr {a' : Arena} (hs : a'.slots[i]?.map Slot.generation = a.slots[i]?.map Slot.generation) :
    a'.handle i = a.handle i := by rw [handle, handle, hs]

@[simp] theorem handle_modify (a : Arena) (h : Handle) (f : Cell → Cell) (i : Nat) :
    (a.modify h f).handle i = a.handle i := by
  apply handle_congr
  rw [modify, List.getElem?_modify, Option.map_eq_map, Option.map_map]
  congr 1
  funext s
  dsimp only [Function.comp_apply]
  split
  · split <;> rfl
  · rfl

theorem cell?_handle {s : Slot} (hs : a.slots[i]? = some s) : a.cell? (a.handle i) = s.cell := by
  rw [cell?_eq]
  simp [handle, hs]

theorem cell?_alloc (hfree : ∀ i ∈ a.free, i < a.slots.length) (data : Data) (x : Handle) :
    (a.alloc data).2.cell? x = if x = (a.alloc data).1 then some (.new data) else a.cell? x := by
  rw [alloc]
  cases hf : a.free with
  | nil =>
    rw [cell?_eq, cell?_eq, List.getElem?_append]
    by_cases hslot : x.slot < a.slots.length
    · have hne : x ≠ ⟨a.slots.length, 0⟩ := fun he => Nat.lt_irrefl _ (he ▸ hslot)
      rw [if_pos hslot, if_neg hne]
    · rw [if_neg hslot, List.getElem?_eq_none (Nat.le_of_not_lt hslot), Option.bind_none]
      by_cases hx : x = ⟨a.slots.length, 0⟩
      · simp [hx]
      · rw [if_neg hx, Option.bind_eq_none_iff]
        intro s hs
        obtain ⟨hlt, rfl⟩ := List.getElem?_eq_some_iff.1 hs
        rw [List.getElem_singleton, if_neg]
        intro hg
        rw [List.length_singleton] at hlt
        exact hx (Handle.ext (show x.slot = a.slots.length by omega) hg.symm)
  | cons i free =>
    obtain ⟨s, hs⟩ : ∃ s, a.slots[i]? = some s :=
      ⟨_, List.getElem?_eq_getElem (hfree i (hf ▸ List.mem_cons_self))⟩
    rw [cell?_eq, cell?_eq, List.getElem?_modify]
    by_cases hslot : i = x.slot
    · subst hslot
      have hx : x = a.handle x.slot ↔ s.generation = x.generation := by
        rw [Handle.ext_iff]
        simp [handle, hs, eq_comm]
      simp only [hx, hs]
      by_cases hg : s.generation = x.generation <;> simp [hg]
    · have hx : x ≠ a.handle i := fun he => hslot (congrArg Handle.slot he).symm
      simp [hslot, hx]

theorem cell?_retire (a : Arena) (i : Nat) (x : Handle) :
    (a.retire i).cell? x = if x.slot = i then none else a.cell? x := by
  rw [cell?_eq, cell?_eq, retire, List.getElem?_modify]
  by_cases hslot : i = x.slot
  · simp [hslot]
  · simp [hslot, Ne.symm hslot]

/-! ### The handles to be given out -/

/-- The pool that the free slots and the number of slots stand for. -/
def pool (a : Arena) : Pool := ⟨a.free.map a.handle, a.slots.length⟩

@[simp] theorem pool_modify (a : Arena) (h : Handle) (f : Cell → Cell) : (a.modify h f).pool = a.pool := by
  rw [pool, pool, funext (handle_modify a h f)]
  simp [modify]

theorem alloc_fst (a : Arena) (data : Data) : (a.alloc data).1 = a.pool.take.1 := by
  rw [alloc, Pool.take, pool]
  cases a.free <;> rfl

theorem pool_alloc (a : Arena) (data : Data) : (a.alloc data).2.pool = a.pool.take.2 := by
  rw [alloc, Pool.take, pool, pool]
  cases a.free with
  | nil => simp
  | cons i free =>
    simp only [List.map_cons, List.length_modify, Pool.mk.injEq, and_true]
    refine List.map_congr_left fun j _ => handle_congr ?_
    rw [List.getElem?_modify, Option.map_eq_map, Option.map_map]
    congr 1
    funext s
    dsimp only [Function.comp_apply]
    split <;> rfl

/-- A slot that is freed waits under the next handle, and those that waited before do so under theirs. -/
theorem pool_retire (hc : a.cell? h = some c) (hfree : h.slot ∉ a.free) :
    (a.retire h.slot).pool = a.pool.give [h] := by
  rw [pool, pool, Pool.give, retire]
  simp only [List.map_cons, List.length_modify, List.foldl_cons, List.foldl_nil, Pool.mk.injEq, and_true,
    List.cons.injEq]
  constructor
  · rw [handle, List.getElem?_modify, cell?_eq_some_iff.1 hc]
    simp [Handle.next]
  · refine List.map_congr_left fun j hj => handle_congr ?_
    have hne : h.slot ≠ j := fun he => hfree (he ▸ hj)
    simp [hne]

/-! ### Freeing several slots -/

/-- Frees the slots of some handles, in order. -/
def retireAll (a : Arena) (hs : List Handle) : Arena := hs.foldl (fun a h => a.retire h.slot) a

@[simp] theorem retireAll_nil (a : Arena) : a.retireAll [] = a := rfl
@[simp] theorem retireAll_cons (a : Arena) (h : Handle) (hs : List Handle) :
    a.retireAll (h :: hs) = (a.retire h.slot).retireAll hs := rfl

theorem retireAll_append (a : Arena) (hs hs' : List Handle) :
    a.retireAll (hs ++ hs') = (a.retireAll hs).retireAll hs' := List.foldl_append

@[simp] theorem length_slots_retireAll (a : Arena) (hs : List Handle) :
    (a.retireAll hs).slots.length = a.slots.length := by
  induction hs generalizing a with
  | nil => rfl
  | cons h hs ih => rw [retireAll_cons, ih, retire, List.length_modify]

theorem cell?_retireAll (a : Arena) (hs : List Handle) (x : Handle) :
    (a.retireAll hs).cell? x = if x.slot ∈ hs.map Handle.slot then none else a.cell? x := by
  induction hs generalizing a with
  | nil => simp
  | cons h hs ih =>
    rw [retireAll_cons, ih, cell?_retire]
    by_cases hx : x.slot = h.slot <;> simp [hx]

theorem pool_retireAll {hs : List Handle} (hlive : ∀ h ∈ hs, ∃ c, a.cell? h = some c)
    (hslots : (hs.map Handle.slot).Nodup) (hfree : ∀ h ∈ hs, h.slot ∉ a.free) :
    (a.retireAll hs).pool = a.pool.give hs := by
  induction hs generalizing a with
  | nil => rfl
  | cons h hs ih =>
    rw [List.map_cons, List.nodup_cons] at hslots
    have hne : ∀ x ∈ hs, x.slot ≠ h.slot := fun x hx he => hslots.1 (he ▸ List.mem_map_of_mem hx)
    obtain ⟨c, hc⟩ := hlive h List.mem_cons_self
    rw [retireAll_cons, ih ?_ hslots.2 ?_, pool_retire hc (hfree h List.mem_cons_self)]
    · rfl
    · intro x hx
      rw [cell?_retire, if_neg (hne x hx)]
      exact hlive x (List.mem_cons_of_mem _ hx)
    · intro x hx hin
      rcases List.mem_cons.1 hin with he | hin
      · exact hne x hx he
      · exact hfree x (List.mem_cons_of_mem _ hx) hin

end

/-! ### Runs -/

namespace Ascent

variable {a : Arena} {candidate : Handle}

@[simp] theorem run_zero (s : Ascent) : run a candidate 0 s = s := rfl
@[simp] theorem run_succ (k : Nat) (s : Ascent) :
    run a candidate (k + 1) s = run a candidate k (s.turn a candidate) := rfl

@[simp] theorem run_ended (k : Nat) (found : Bool) : run a candidate k (.ended found) = .ended found := by
  induction k with
  | zero => rfl
  | succ k ih => exact ih

end Ascent

namespace Freeing

@[simp] theorem run_zero (s : Freeing) : run 0 s = s := rfl
@[simp] theorem run_succ (k : Nat) (s : Freeing) : run (k + 1) s = run k s.turn := rfl

theorem run_add (m k : Nat) (s : Freeing) : run (m + k) s = run k (run m s) := by
  induction m generalizing s with
  | zero => simp
  | succ m ih => rw [Nat.succ_add, run_succ, run_succ, ih]

@[simp] theorem run_done (k : Nat) (a : Arena) : run k ⟨a, []⟩ = ⟨a, []⟩ := by
  induction k with
  | zero => rfl
  | succ k ih => exact ih

theorem turn_of_cell? {a : Arena} {h : Handle} {c : Cell} (hc : a.cell? h = some c) (rest : List Handle) :
    turn ⟨a, h :: rest⟩ = ⟨a.retire h.slot, c.children.reverse ++ rest⟩ := by
  simp [turn, cell?_eq_some_iff.1 hc]

end Freeing

section

variable {α β : Type} {a a' : Arena} {h : Handle} {c : Cell}

theorem run_bind_ok {x : Op α} {v : α} (hx : x.run a = .ok v a') (f : α → Op β) :
    (x >>= f).run a = (f v).run a' := by
  change EStateM.bind x f a = f v a'
  rw [EStateM.bind, show x a = .ok v a' from hx]

theorem run_bind_error {x : Op α} {fault : Fault} (hx : x.run a = .error fault a') (f : α → Op β) :
    (x >>= f).run a = .error fault a' := by
  change EStateM.bind x f a = _
  rw [EStateM.bind, show x a = .error fault a' from hx]

theorem run_get_bind (f : Arena → Op β) : (get >>= f).run a = (f a).run a := rfl

theorem node_run_of_some (hc : a.cell? h = some c) : (node h).run a = .ok c a := by
  rw [node, run_get_bind, hc]
  rfl

theorem node_run_of_none (hc : a.cell? h = none) : (node h).run a = .error (.unknownNode h.label) a := by
  rw [node, run_get_bind, hc]
  rfl

theorem change_run (hc : a.cell? h = some c) (f : Cell → Cell) : (change h f).run a = .ok () (a.modify h f) := by
  rw [change, run_bind_ok (node_run_of_some hc)]
  rfl

theorem append_run {parent child : Handle} {p : Cell} (hp : a.cell? parent = some p) (htext : p.data.isText = false)
    (hc : a.cell? child = some c) :
    (append parent child).run a =
      if a.isAncestor child parent then .error (.invalidAppend parent.label child.label) a
      else (move parent child).run a := by
  rw [append, run_bind_ok (node_run_of_some hp), if_neg (by simp [htext])]
  refine (run_bind_ok (node_run_of_some hc) _).trans ?_
  rw [run_get_bind]
  split <;> rfl

theorem append_run_of_dead {parent child : Handle} {p : Cell} (hp : a.cell? parent = some p)
    (htext : p.data.isText = false) (hc : a.cell? child = none) :
    (append parent child).run a = .error (.unknownNode child.label) a := by
  rw [append, run_bind_ok (node_run_of_some hp), if_neg (by simp [htext])]
  exact run_bind_error (node_run_of_none hc) _

end
end Arena
end Trellis.Tree
