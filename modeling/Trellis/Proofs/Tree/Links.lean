import Trellis.Proofs.Tree.Operations

/-!
# Links and free slots

After every sequence of operations the links of an arena agree at both of their ends and lead to no circle, and the free
slots are exactly those without a node. From this follows what the two operations do that rest on it: appending moves
one node with all that it holds or changes nothing at all, and freeing takes away what stands under a node and nothing
else.
-/
namespace Trellis.Tree.Arena

def isText (a : Arena) (h : Handle) : Bool := ((a.cell? h).map (·.data.isText)).getD false

/-- The node that is reached by following stored parents a number of times. -/
def ancestor? (a : Arena) : Nat → Handle → Option Handle
  | 0, h => some h
  | k + 1, h => (a.parent? h).bind (a.ancestor? k)

/-- Following stored parents, a number of times or not at all, leads from `x` to `h`. -/
def Under (a : Arena) (h x : Handle) : Prop := ∃ k, a.ancestor? k x = some h

/-- The arena is a forest, with every link stored at both of its ends, and all empty slots wait to be used again. -/
structure WellFormed (a : Arena) : Prop where
  child_live : ∀ h c, a.cell? h = some c → ∀ x ∈ c.children, a.contains x = true
  child_once : ∀ h c, a.cell? h = some c → ∀ x ∈ c.children, c.children.count x = 1
  child_parent : ∀ h c, a.cell? h = some c → ∀ x ∈ c.children, a.parent? x = some h
  parent_child : ∀ h c p, a.cell? h = some c → c.parent = some p → ∃ d, a.cell? p = some d ∧ h ∈ d.children
  climb : ∀ h, a.contains h = true → ∃ k top c, a.ancestor? k h = some top ∧ a.cell? top = some c ∧ c.parent = none
  text_leaf : ∀ h c, a.cell? h = some c → c.data.isText = true → c.children = []
  free_once : a.free.Nodup
  free_iff : ∀ i, i ∈ a.free ↔ ∃ s, a.slots[i]? = some s ∧ s.cell = none

namespace Stores

variable {a a' : Arena} {t t' : Tree} {h x : Handle} {n : Node}

theorem ancestor? (hs : a.Stores t) (k : Nat) (h : Handle) : a.ancestor? k h = t.ancestor? k h := by
  induction k generalizing h with
  | zero => rfl
  | succ k ih => rw [Arena.ancestor?, Tree.ancestor?, hs.parent?, funext ih]

theorem under_iff (hs : a.Stores t) : a.Under h x ↔ t.Under h x := by
  simp only [Arena.Under, Tree.Under, hs.ancestor?]

theorem isText (hs : a.Stores t) (h : Handle) : a.isText h = t.isText h := by
  rw [Arena.isText, hs.cell, Tree.isText]
  cases hn : t.find? h with
  | none => rw [cell?_eq_none_iff.2 (contains_eq_false_iff.2 hn)]; rfl
  | some n => rw [cell?_of_find? hn, Option.map_some, data_isText]; rfl

theorem wellFormed (hs : a.Stores t) : a.WellFormed := by
  have hw := hs.sound.wellFormed
  -- a stored node is one of the tree, with the tree's children
  have hnode : ∀ {h : Handle} {c : Cell}, a.cell? h = some c → t.contains h = true ∧ t.children h = .ok c.children := by
    intro h c hc
    obtain ⟨n, hn, rfl⟩ := exists_find?_of_cell? ((hs.cell h).symm.trans hc)
    exact ⟨contains_of_find? hn, children_eq_ok_iff.2 ⟨n, hn, rfl⟩⟩
  have hlive : ∀ {h : Handle}, t.contains h = true → ∃ c, a.cell? h = some c := by
    intro h hh
    obtain ⟨n, hn⟩ := Option.isSome_iff_exists.1 hh
    exact ⟨_, hs.cell_of_find? hn⟩
  refine ⟨?_, ?_, ?_, ?_, ?_, ?_, ?_, ?_⟩
  · intro h c hc x hx
    rw [hs.contains]
    exact hw.child_live h _ (hnode hc).2 x hx
  · intro h c hc
    exact hw.child_once h _ (hnode hc).2
  · intro h c hc x hx
    rw [hs.parent?]
    exact hw.child_parent h _ (hnode hc).2 x hx
  · intro h c p hc hp
    have hparent : t.parent? h = some p := by rw [← hs.parent?, Arena.parent?, hc, Option.bind_some, hp]
    obtain ⟨hplive, cs, hcs, hin⟩ := hw.parent_child h p (hnode hc).1 hparent
    obtain ⟨d, hd⟩ := hlive hplive
    rw [(hnode hd).2, Except.ok.injEq] at hcs
    exact ⟨d, hd, hcs ▸ hin⟩
  · intro h hh
    obtain ⟨k, top, hk, htop, hnone⟩ := hw.climb h (hs.contains h ▸ hh)
    obtain ⟨c, hc⟩ := hlive htop
    refine ⟨k, top, c, (hs.ancestor? k h).trans hk, hc, ?_⟩
    rw [← hs.parent?, Arena.parent?, hc, Option.bind_some] at hnone
    exact hnone
  · intro h c hc htext
    have hleaf := hw.text_leaf h (by rw [← hs.isText, Arena.isText, hc]; exact htext)
    rw [(hnode hc).2, Except.ok.injEq] at hleaf
    exact hleaf
  · rw [hs.free]
    exact hw.free_once
  · intro i
    rw [hs.free, hw.free_iff, ← hs.length_slots]
    constructor
    · rintro ⟨hi, hunused⟩
      refine ⟨_, List.getElem?_eq_getElem hi, ?_⟩
      cases hc : (a.slots[i]).cell with
      | none => rfl
      | some c =>
        have hcell := (cell?_handle (List.getElem?_eq_getElem hi)).trans hc
        exact absurd rfl (hunused _ (hnode hcell).1)
    · rintro ⟨s, hslot, hempty⟩
      refine ⟨(List.getElem?_eq_some_iff.1 hslot).1, fun h hh he => ?_⟩
      obtain ⟨c, hc⟩ := hlive hh
      rw [cell?_eq_some_iff, he, hslot, Option.some.injEq] at hc
      rw [hc] at hempty
      cases hempty

end Stores

/-- After every sequence of operations, from a new arena on, the arena is a well-formed forest. It stores the tree that
the same operations make. -/
theorem wellFormed_edits (es : List Edit) :
    (new.edits es).WellFormed ∧ (new.edits es).Stores (Tree.new.edits es) ∧ (Tree.new.edits es).WellFormed :=
  ⟨(stores_edits es).wellFormed, stores_edits es, (stores_edits es).sound.wellFormed⟩

/-! ### Moving -/

/-- Why a node may not be appended to another, and what is reported then. -/
inductive Refuses (a : Arena) (parent child : Handle) : Fault → Prop where
  | unknownParent (hp : a.contains parent = false) : Refuses a parent child (.unknownNode parent.label)
  | textParent (hp : a.isText parent = true) : Refuses a parent child (.textNode .children)
  | unknownChild (hp : a.contains parent = true) (htext : a.isText parent = false) (hc : a.contains child = false) :
    Refuses a parent child (.unknownNode child.label)
  | cycle (hp : a.contains parent = true) (htext : a.isText parent = false) (hc : a.contains child = true)
    (hin : a.Under child parent) : Refuses a parent child (.invalidAppend parent.label child.label)

/-- Appending moves a node or leaves everything as it was. -/
structure MovesExactly (a : Arena) (parent child : Handle) : Prop where
  /-- The walk that looks for a circle ends, however many turns it is given beyond the limit. -/
  walk_ends : ∃ found, (found = true ↔ a.Under child parent) ∧
    ∀ more, Ascent.run a child (a.ascentLimit + more) (.pending (some parent)) = .ended found
  refuses_iff : ∀ fault, (∃ a', (append parent child).run a = .error fault a') ↔ a.Refuses parent child fault
  unchanged : ∀ fault a', (append parent child).run a = .error fault a' → a' = a
  moves : (∀ fault, ¬a.Refuses parent child fault) → ∃ a', (append parent child).run a = .ok () a' ∧
    a'.pool = a.pool ∧ (∀ x, a'.cell? x = (a.cell? x).map (Cell.moved parent child x)) ∧
    ∀ x, a.Under child x → x ≠ child → a'.cell? x = a.cell? x

namespace Stores

variable {a a' : Arena} {t t' : Tree} {h x parent child : Handle} {n : Node}

theorem refuses_iff (hs : a.Stores t) {fault : Fault} :
    t.append parent child = .error fault ↔ a.Refuses parent child fault := by
  have hunder : ∀ {c : Node}, t.find? child = some c → ((c.find? parent).isSome = true ↔ a.Under child parent) := by
    intro c hc
    rw [hs.under_iff, hs.sound.under_iff hc, mem_handles_iff]
  rw [append_eq_error_iff]
  constructor
  · rintro (⟨hp, rfl⟩ | ⟨p, hp, ⟨htext, rfl⟩ | ⟨htext, ⟨hc, rfl⟩ | ⟨c, hc, hin, rfl⟩⟩⟩)
    · exact .unknownParent ((hs.contains parent).trans hp)
    · exact .textParent ((hs.isText parent).trans (isText_of_find? hp ▸ htext))
    · exact .unknownChild ((hs.contains parent).trans (contains_of_find? hp))
        ((hs.isText parent).trans (isText_of_find? hp ▸ htext)) ((hs.contains child).trans hc)
    · exact .cycle ((hs.contains parent).trans (contains_of_find? hp))
        ((hs.isText parent).trans (isText_of_find? hp ▸ htext)) ((hs.contains child).trans (contains_of_find? hc))
        ((hunder hc).1 hin)
  · intro hr
    cases hr with
    | unknownParent hp => exact .inl ⟨(hs.contains parent).symm.trans hp, rfl⟩
    | textParent htext =>
      rw [hs.isText] at htext
      cases hp : t.find? parent with
      | none => simp [Tree.isText, hp] at htext
      | some p => exact .inr ⟨p, rfl, .inl ⟨isText_of_find? hp ▸ htext, rfl⟩⟩
    | unknownChild hp htext hc =>
      rw [hs.contains] at hp hc
      rw [hs.isText] at htext
      obtain ⟨p, hp⟩ := Option.isSome_iff_exists.1 hp
      exact .inr ⟨p, hp, .inr ⟨isText_of_find? hp ▸ htext, .inl ⟨hc, rfl⟩⟩⟩
    | cycle hp htext hc hin =>
      rw [hs.contains] at hp hc
      rw [hs.isText] at htext
      obtain ⟨p, hp⟩ := Option.isSome_iff_exists.1 hp
      obtain ⟨c, hc⟩ := Option.isSome_iff_exists.1 hc
      exact .inr ⟨p, hp, .inr ⟨isText_of_find? hp ▸ htext, .inr ⟨c, hc, (hunder hc).2 hin, rfl⟩⟩⟩

/-- The cells of what a moved node holds stay as they were. -/
theorem cell?_inside (hs : a.Stores t) (hs' : a'.Stores t') (ha : t.append parent child = .ok t')
    (hx : a.Under child x) (hne : x ≠ child) : a'.cell? x = a.cell? x := by
  obtain ⟨-, -, -, c, hc, -⟩ := append_eq_ok_iff.1 ha
  have hin := (hs.sound.under_iff hc).1 (hs.under_iff.1 hx)
  have hfind := hs.sound.find?_inside hs'.sound hc ((hs.sound.find?_append ha).trans hc) hin
  rw [hs.cell, hs'.cell, Tree.cell?, Tree.cell?, row?, row?, hfind, hs.sound.parent?_moved ha, if_neg hne]

theorem movesExactly (hs : a.Stores t) (parent child : Handle) : a.MovesExactly parent child := by
  have hfollows := hs.append parent child
  refine ⟨?_, ?_, ?_, ?_⟩
  · obtain ⟨found, hfound, hends⟩ := hs.ascent_ends child parent
    exact ⟨found, hfound.trans hs.under_iff.symm, hends⟩
  · intro fault
    rw [← hs.refuses_iff]
    constructor
    · rintro ⟨a', hrun⟩
      exact hfollows.eq_error hrun
    · exact fun ha => ⟨a, hfollows.of_error ha⟩
  · intro fault a' hrun
    have hkept := hfollows.of_error (hfollows.eq_error hrun)
    cases hkept.symm.trans hrun
    rfl
  · intro hno
    cases ha : t.append parent child with
    | error fault => exact absurd (hs.refuses_iff.1 ha) (hno fault)
    | ok t' =>
      obtain ⟨a', hrun, hs'⟩ := hfollows.of_ok ha
      refine ⟨a', hrun, ?_, fun x => ?_, fun x hx hne => hs.cell?_inside hs' ha hx hne⟩
      · rw [hs'.pool, hs.pool, (hs.sound.perm_append ha).2]
      · rw [hs'.cell, hs.sound.cell?_append ha, hs.cell]

end Stores

/-- Appending fails exactly for one of four reasons, in this order, and the arena is left as it was then. Otherwise the
node is moved as it is to the end of its new parent's children, out of those of its former parent, and nothing else
changes. It fails or succeeds as it does on the tree. -/
theorem append_moves_exactly (es : List Edit) (parent child : Handle) :
    (new.edits es).MovesExactly parent child ∧
      (new.edits es).Follows (append parent child) ((Tree.new.edits es).append parent child) :=
  ⟨(stores_edits es).movesExactly parent child, (stores_edits es).append parent child⟩

/-! ### Freeing -/

/-- The slots that hold no node, counted in the list of slots, are as many as wait to be used again. -/
theorem WellFormed.size_add_free {a : Arena} (hw : a.WellFormed) : a.size + a.free.length = a.slots.length := by
  have hslots : a.slots.map some = (List.range a.slots.length).map (a.slots[·]?) := by
    refine List.ext_getElem (by simp) fun i hi _ => ?_
    rw [List.length_map] at hi
    simp [hi]
  have hempty : a.slots.countP (fun s => !s.cell.isSome) =
      (List.range a.slots.length).countP fun i => a.slots[i]?.any fun s => !s.cell.isSome := by
    have hcount := congrArg (List.countP fun s : Option Slot => s.any fun s => !s.cell.isSome) hslots
    rw [List.countP_map, List.countP_map] at hcount
    exact hcount
  have hperm : a.free.Perm ((List.range a.slots.length).filter fun i => a.slots[i]?.any fun s => !s.cell.isSome) := by
    refine (List.perm_ext_iff_of_nodup hw.free_once (List.nodup_range.filter _)).2 fun i => ?_
    rw [hw.free_iff, List.mem_filter, List.mem_range]
    constructor
    · rintro ⟨s, hs, hnone⟩
      exact ⟨(List.getElem?_eq_some_iff.1 hs).1, by simp [hs, hnone]⟩
    · rintro ⟨hi, hnone⟩
      rw [List.getElem?_eq_getElem hi] at hnone ⊢
      exact ⟨_, rfl, by simpa using hnone⟩
  have hnot : (fun s : Slot => decide ¬s.cell.isSome = true) = fun s => !s.cell.isSome := by
    funext s
    cases s.cell.isSome <;> rfl
  rw [size, hperm.length_eq, ← List.countP_eq_length_filter, ← hempty,
    List.length_eq_countP_add_countP (·.cell.isSome), hnot]

/-- The nodes of some handles are freed, each once. -/
structure Frees (a a' : Arena) (freed : List Handle) : Prop where
  once : freed.Nodup
  live : ∀ x ∈ freed, a.contains x = true
  dead : ∀ x ∈ freed, a'.contains x = false
  size : a.size = a'.size + freed.length
  free : a'.free = (freed.map Handle.slot).reverse ++ a.free
  /-- Their slots wait to be used again, and did not before. -/
  slots : ∀ x ∈ freed, x.slot ∉ a.free ∧ a'.free.count x.slot = 1

/-- Freeing a node is over after one turn for each node that is freed, which is within the limit. -/
structure Freeing.Over (a : Arena) (h : Handle) (freed : List Handle) : Prop where
  turns : run freed.length ⟨a, [h]⟩ = ⟨a.freeSubtree h, []⟩
  limit : freed.length ≤ a.freeingLimit

/-- A node is cleared: what stands below it is freed, child by child. -/
structure Clears (a a' : Arena) (h : Handle) (freed : List Handle) : Prop where
  run : (clear h).run a = .ok () a'
  frees : a.Frees a' freed
  below : ∀ x, x ∈ freed ↔ a.Under h x ∧ x ≠ h
  others : ∀ x, x ∉ freed → a'.cell? x = (a.cell? x).map fun c => if x = h then c.setChildren fun _ => [] else c
  loops : ∀ c before child after, a.cell? h = some c → c.children = before ++ child :: after →
    ∃ part, (∀ x, x ∈ part ↔ a.Under child x) ∧
      Freeing.Over (before.foldl freeSubtree (a.modify h (.setChildren fun _ => []))) child part

/-- A node is released: it is taken from its parent and freed with all that stands below it. -/
structure Releases (a : Arena) (h : Handle) (freed : List Handle) : Prop where
  frees : a.Frees (a.release h) freed
  under : ∀ x, x ∈ freed ↔ a.Under h x
  others : ∀ x, x ∉ freed → (a.release h).cell? x = (a.cell? x).map (.setChildren (·.filter (· ≠ h)))
  loop : ∃ detached, (detach h).run a = .ok () detached ∧ Freeing.Over detached h freed

namespace Stores

variable {a a' : Arena} {t t' : Tree} {h x : Handle} {n : Node}

theorem size_eq (hs : a.Stores t) : a.size = t.size := by
  have harena := hs.wellFormed.size_add_free
  have htree := hs.sound.size_add_free
  have hlength := hs.length_slots
  have hfree : a.free.length = t.pool.free.length := by rw [hs.free, List.length_map]
  omega

theorem frees (hs : a.Stores t) (hs' : a'.Stores t') {freed : List Handle} (hf : t.Frees t' freed) :
    a.Frees a' freed where
  once := hf.once
  live x hx := (hs.contains x).trans (hf.live x hx)
  dead x hx := (hs'.contains x).trans (hf.dead x hx)
  size := by rw [hs.size_eq, hs'.size_eq, hf.size]
  free := by
    rw [hs'.free, hs.free, hf.pool, Pool.free_give, List.map_append, List.map_reverse, List.map_map]
    rfl
  slots x hx := by
    rw [hs.free, hs'.free]
    exact hf.slots x hx

end Stores

theorem Freeing.over_of_find? {a : Arena} {t : Tree} {h : Handle} {n : Node} (ht : t.Sound) (hn : t.find? h = some n)
    (hh : a.Holds t n.handles) (hsize : t.size ≤ a.slots.length) : Over a h n.freeOrder := by
  have hlength : n.freeOrder.length = n.handles.length := (Node.freeOrder_perm n).length_eq
  have hle : n.handles.length ≤ t.size := (Node.handles_sublist_of_findAmong? hn).length_le
  refine ⟨?_, by rw [freeingLimit]; omega⟩
  rw [hlength, Freeing.run_of_find? ht hn hh, freeSubtree_eq ht hn hh hsize]

namespace Stores

variable {a a' : Arena} {t t' : Tree} {h x : Handle} {n : Node}

theorem clears (hs : a.Stores t) (hn : t.find? h = some n) :
    ∃ a', a.Clears a' h (n.children.flatMap Node.freeOrder) := by
  have ht := hs.sound
  have hc := clear_eq_ok_iff.2 ⟨n, hn, rfl⟩
  obtain ⟨a', hrun, hs'⟩ := (hs.clear h).of_ok hc
  have hfreed : ∀ x, x ∈ n.children.flatMap Node.freeOrder ↔ x ∈ Node.handlesAll n.children := fun x =>
    (Node.flatMap_freeOrder_perm n.children).mem_iff
  refine ⟨a', hrun, hs.frees hs' (ht.frees_clear hc hn), fun x => ?_, fun x hx => ?_, ?_⟩
  · rw [hfreed, ht.mem_below_iff hn, hs.under_iff]
  · rw [hs'.cell, ht.cell?_clear hc hn fun hin => hx ((hfreed x).2 hin), hs.cell]
  · intro c before child after hcell hsplit
    rw [hs.cell_of_find? hn, Option.some.injEq] at hcell
    rw [← hcell] at hsplit
    obtain ⟨pre, post, hnodes, rfl, hpost⟩ := List.map_eq_append_iff.1 hsplit
    obtain ⟨m, post, rfl, rfl, rfl⟩ := List.map_eq_cons_iff.1 hpost
    have hstands := hnodes ▸ (ht.stands hn).children
    have hpre := hstands.of_append_left
    have hm := hstands.of_append_right.head
    have hheld := hs.holds_emptied hn
    rw [hnodes, Node.handlesAll_append, Node.handlesAll_cons] at hheld
    have hsize : t.size ≤ (a.modify h (.setChildren fun _ => [])).slots.length :=
      hs.size_le_of_pool ((pool_modify ..).trans hs.pool)
    -- the children before this one are gone, and it is still there with all that it holds
    have hrest :
        ((a.modify h (.setChildren fun _ => [])).retireAll (pre.flatMap Node.freeOrder)).Holds t m.handles := by
      refine (hheld.mono fun x hx => by simp [hx]).retireAll fun x hx y hy he => ?_
      have hy := (Node.flatMap_freeOrder_perm pre).mem_iff.1 hy
      have hxy : x = y := ht.slot_injective (hstands.of_append_right.contains (by simp [hx])) (hpre.contains hy) he
      have hd := hstands.nodup
      rw [Node.handlesAll_append, Node.handlesAll_cons, List.nodup_append] at hd
      exact hd.2.2 y hy x (List.mem_append_left _ hx) hxy.symm
    refine ⟨m.freeOrder, fun x => ?_, ?_⟩
    · rw [(Node.freeOrder_perm m).mem_iff, hs.under_iff, ht.under_iff hm]
    · rw [foldl_freeSubtree_eq ht hpre (hheld.mono fun x hx => by simp [hx]) hsize]
      exact Freeing.over_of_find? ht hm hrest (by rwa [length_slots_retireAll])

theorem releases (hs : a.Stores t) (hroot : h ≠ .root) (hn : t.find? h = some n) : a.Releases h n.freeOrder := by
  have ht := hs.sound
  have hfreed : ∀ x, x ∈ n.freeOrder ↔ x ∈ n.handles := fun x => (Node.freeOrder_perm n).mem_iff
  refine ⟨hs.frees (hs.release h) (ht.frees_release hroot hn), fun x => ?_, fun x hx => ?_, ?_⟩
  · rw [hfreed, hs.under_iff, ht.under_iff hn]
  · have hxh : x ≠ h := by
      rintro rfl
      exact hx ((hfreed x).2 (by rw [Node.handles_eq, Node.handle_of_findAmong? hn]; exact List.mem_cons_self))
    rw [(hs.release h).cell, ht.cell?_release hroot hn fun hin => hx ((hfreed x).2 hin), hs.cell]
    refine Option.map_congr fun c _ => ?_
    rw [Cell.detached, if_neg hxh]
    rfl
  · obtain ⟨detached, hrun, hpool, hcell⟩ := hs.detach hn
    exact ⟨detached, hrun,
      Freeing.over_of_find? ht hn (hs.holds_detached hn hcell) (hs.size_le_of_pool hpool)⟩

end Stores

/-- Clearing a live node frees what stands below it, and releasing one other than the root frees it with what stands
below it. Each of these nodes is freed once and no other one, and the loops that free them visit each node once. The
cleared node is left without children, and a released node is taken from its parent's children. Besides that, no cell
changes. -/
theorem freeing_exact (es : List Edit) (h : Handle) (hh : (new.edits es).contains h = true) :
    (∃ a' freed, (new.edits es).Clears a' h freed) ∧
    (h ≠ .root → ∃ freed, (new.edits es).Releases h freed) ∧
    (new.edits es).Follows (clear h) ((Tree.new.edits es).clear h) ∧
    ((new.edits es).release h).Stores ((Tree.new.edits es).release h) := by
  have hs := stores_edits es
  rw [hs.contains] at hh
  obtain ⟨n, hn⟩ := Option.isSome_iff_exists.1 hh
  obtain ⟨a', hclears⟩ := hs.clears hn
  exact ⟨⟨a', _, hclears⟩, fun hroot => ⟨_, hs.releases hroot hn⟩, hs.clear h, hs.release h⟩

/-- An item with its text goes when the list around it is cleared. -/
theorem freeing_exact_item :
    (new.edits [.parse "<ul><li>x</li></ul>", .append .root ⟨1, 0⟩]).contains ⟨1, 0⟩ = true ∧
      ∃ a' freed, (new.edits [.parse "<ul><li>x</li></ul>", .append .root ⟨1, 0⟩]).Clears a' ⟨1, 0⟩ freed ∧
        ⟨2, 0⟩ ∈ freed ∧ ⟨3, 0⟩ ∈ freed ∧ ⟨1, 0⟩ ∉ freed := by
  have hlive : (new.edits [.parse "<ul><li>x</li></ul>", .append .root ⟨1, 0⟩]).contains ⟨1, 0⟩ = true := by
    decide +kernel
  obtain ⟨a', freed, hclears⟩ := (freeing_exact _ ⟨1, 0⟩ hlive).1
  refine ⟨hlive, a', freed, hclears, (hclears.below _).2 ⟨⟨1, ?_⟩, by decide⟩,
    (hclears.below _).2 ⟨⟨2, ?_⟩, by decide⟩, ?_⟩
  · decide +kernel
  · decide +kernel
  · exact fun hin => ((hclears.below _).1 hin).2 rfl

end Trellis.Tree.Arena
