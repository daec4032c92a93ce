import Trellis.Proofs.Tree.Generations
import Trellis.Proofs.Tree.Rows

/-!
# Moving and freeing nodes

Appending moves one node with all that it holds, and refuses to do so for one of four reasons. Clearing and releasing
free what stands under a node. For each of the three operations it is said what becomes of every row and of every
parent, so that nothing happens to a tree beyond what the operation is for.
-/
namespace Trellis.Tree

variable {t t' : Tree} {h parent child x : Handle}

/-- Who holds a node is told by the rows: its parent stays when some nodes go that do not hold it, and the rows of all
others change, but not as to whether they have it among the children. -/
theorem Sound.parent?_of_rows (ht : t.Sound) (ht' : t'.Sound) {gone : Handle → Prop} {g : Handle → Row → Row}
    (hgone : ∀ y, gone y → t'.row? y = none) (hrow : ∀ y, ¬gone y → t'.row? y = (t.row? y).map (g y))
    (hkeep : ∀ y r, ¬gone y → t.row? y = some r → (x ∈ (g y r).children ↔ x ∈ r.children))
    (hout : ∀ y, t.parent? x = some y → ¬gone y) : t'.parent? x = t.parent? x := by
  ext y
  constructor
  · intro hy
    obtain ⟨r', hr', hx⟩ := ht'.parent?_iff_row?.1 hy
    have hstay : ¬gone y := by
      intro hg
      rw [hgone y hg] at hr'
      cases hr'
    obtain ⟨r, hr, rfl⟩ := Option.map_eq_some_iff.1 ((hrow y hstay).symm.trans hr')
    exact ht.parent?_iff_row?.2 ⟨r, hr, (hkeep y r hstay hr).1 hx⟩
  · intro hy
    obtain ⟨r, hr, hx⟩ := ht.parent?_iff_row?.1 hy
    have hstay := hout y hy
    exact ht'.parent?_iff_row?.2 ⟨g y r, by rw [hrow y hstay, hr, Option.map_some], (hkeep y r hstay hr).2 hx⟩

/-! ### Refusals -/

theorem contains_eq_false_iff : t.contains h = false ↔ t.find? h = none := by
  rw [contains, Option.isSome_eq_false_iff, Option.isNone_iff_eq_none]

theorem node_eq_error_iff {fault : Fault} :
    t.node h = .error fault ↔ t.contains h = false ∧ fault = .unknownNode h.label := by
  rw [contains_eq_false_iff, node]
  cases t.find? h <;> simp [eq_comm]

/-- A step fails by itself or in what follows it. -/
theorem bind_eq_error_iff {ε α β : Type} {x : Except ε α} {f : α → Except ε β} {e : ε} :
    (x >>= f) = .error e ↔ x = .error e ∨ ∃ a, x = .ok a ∧ f a = .error e := by
  cases x <;> simp [bind, Except.bind]

theorem guard_eq_error_iff {ε α β : Type} {c : Bool} {e e' : ε} {f : α → Except ε β} {x : Except ε β} :
    (if c = true then throw e >>= f else x) = .error e' ↔ c = true ∧ e' = e ∨ c = false ∧ x = .error e' := by
  cases c with
  | true => simp [bind, Except.bind, throw, throwThe, MonadExceptOf.throw, eq_comm]
  | false => simp

theorem append_eq_error_iff {fault : Fault} :
    t.append parent child = .error fault ↔
      t.contains parent = false ∧ fault = .unknownNode parent.label ∨
      ∃ p, t.find? parent = some p ∧ (p.isText = true ∧ fault = .textNode .children ∨ p.isText = false ∧
        (t.contains child = false ∧ fault = .unknownNode child.label ∨
        ∃ c, t.find? child = some c ∧ (c.find? parent).isSome = true ∧
          fault = .invalidAppend parent.label child.label)) := by
  simp only [append, bind_eq_error_iff, node_eq_ok_iff, node_eq_error_iff, guard_eq_error_iff, pure, Except.pure,
    reduceCtorEq, and_false, or_false]

theorem isText_of_find? {n : Node} (hn : t.find? h = some n) : t.isText h = n.isText := by
  rw [isText, hn, Option.map_some, Option.getD_some]

/-! ### Moving -/

/-- The row of `x` after `child` has been moved to the end of the children of `parent`. -/
def Row.moved (parent child x : Handle) (r : Row) : Row :=
  { r with children := r.children.filter (· ≠ child) ++ if x = parent then [child] else [] }

namespace Sound

/-- A node taken out is nowhere in what is left of another. -/
theorem not_mem_children_removed (ht : t.Sound) {p c : Node} (hp : t.find? parent = some p)
    (hc : t.find? child = some c) (hpc : (c.find? parent).isSome = false) (hx : x ∈ c.handles) :
    x ∉ Node.handlesAll (p.remove child).children := by
  intro hin
  have hsub := Node.handles_sublist_of_findAmong? (ht.find?_removed hp hc hpc)
  rw [Node.handles_eq] at hsub
  have hout := Node.findAmong?_removeAmong_of_mem ht.nodup hc hx
  exact Node.findAmong?_eq_none_iff.1 hout (hsub.subset (List.mem_cons_of_mem _ hin))

/-- The node that has been appended stands in the tree as it did before. -/
theorem find?_append (ht : t.Sound) (ha : t.append parent child = .ok t') : t'.find? child = t.find? child := by
  have hd := (ht.append ha).nodup
  obtain ⟨p, hp, htext, c, hc, hpc, rfl⟩ := append_eq_ok_iff.1 ha
  have hhandle := Node.handle_of_findAmong? hc
  have hp' := Node.findAmong?_updateAmong_self (h := parent) (Node.handle_setChildren (· ++ [c]))
    (Node.removeAmong child t.nodes)
  rw [ht.find?_removed hp hc hpc, Option.map_some] at hp'
  have hchildren : ((p.remove child).setChildren (· ++ [c])).children = (p.remove child).children ++ [c] :=
    Node.children_setChildren_of_isText_false (by simpa using htext)
  have hin : child ∈ Node.handlesAll ((p.remove child).setChildren (· ++ [c])).children := by
    rw [hchildren, Node.handlesAll_append]
    refine List.mem_append_right _ (Node.mem_handlesAll_iff_top.2 (.inl ?_))
    exact List.mem_singleton.2 hhandle.symm
  have hout : Node.findAmong? child (p.remove child).children = none := by
    refine Node.findAmong?_eq_none_iff.2 (ht.not_mem_children_removed hp hc hpc ?_)
    rw [Node.handles_eq, hhandle]
    exact List.mem_cons_self
  rw [hc]
  refine (Node.findAmong?_below hd hp' hin).trans ?_
  rw [hchildren, Node.findAmong?_append, hout, Option.none_or, Node.findAmong?_cons, Node.find?_eq, if_pos hhandle]
  rfl

/-- A node is found in the same shape wherever the node around it stands. -/
theorem find?_inside (ht : t.Sound) (ht' : t'.Sound) {c : Node} (hc : t.find? child = some c)
    (hc' : t'.find? child = some c) (hx : x ∈ c.handles) : t'.find? x = t.find? x := by
  rw [Node.handles_eq, Node.handle_of_findAmong? hc, List.mem_cons] at hx
  rcases hx with rfl | hx
  · rw [hc, hc']
  · exact (Node.findAmong?_below ht'.nodup hc' hx).trans (Node.findAmong?_below ht.nodup hc hx).symm

/-- No node holds a node that it stands in. -/
theorem not_mem_children_of_under (ht : t.Sound) {c n : Node} (hc : t.find? child = some c) (hx : x ∈ c.handles)
    (hn : t.find? x = some n) : child ∉ n.children.map Node.handle := by
  intro hin
  have hd := (Node.handles_sublist_of_findAmong? hc).nodup ht.nodup
  rw [Node.handles_eq, Node.handle_of_findAmong? hc, List.nodup_cons] at hd
  exact hd.1 (ht.mem_below_of_mem_children hc hx hn hin)

theorem row?_append (ht : t.Sound) (ha : t.append parent child = .ok t') (x : Handle) :
    t'.row? x = (t.row? x).map (Row.moved parent child x) := by
  have hfind := ht.find?_append ha
  have ht' := ht.append ha
  obtain ⟨p, hp, htext, c, hc, hpc, rfl⟩ := append_eq_ok_iff.1 ha
  have hpc' : parent ∉ c.handles := by
    rw [mem_handles_iff, hpc]
    exact Bool.false_ne_true
  by_cases hx : x ∈ c.handles
  · -- inside of the moved node nothing changes
    rw [row?, row?, ht.find?_inside ht' hc (hfind.trans hc) hx, Option.map_map]
    refine Option.map_congr fun n hn => ?_
    have hne : x ≠ parent := fun he => hpc' (he ▸ hx)
    have hkeep : (n.children.map Node.handle).filter (· ≠ child) = n.children.map Node.handle := by
      refine List.filter_eq_self.2 fun y hy => decide_eq_true fun he => ?_
      exact ht.not_mem_children_of_under hc hx hn (he ▸ hy)
    rw [Function.comp_apply, Row.moved, if_neg hne, List.append_nil]
    exact congrArg (fun children => (⟨_, children, _⟩ : Row)) hkeep.symm
  · have hp' := ht.find?_removed hp hc hpc
    have hchildren : ((p.remove child).setChildren (· ++ [c])).children = (p.remove child).children ++ [c] :=
      Node.children_setChildren_of_isText_false (by simpa using htext)
    by_cases hxp : x = parent
    · subst hxp
      have hleft : (p.remove child).children.map Node.handle = (p.children.map Node.handle).filter (· ≠ child) :=
        congrArg Row.children (Node.row_remove child p)
      change (Node.findAmong? x (Node.updateAmong x _ _)).map Node.row = _
      rw [Node.findAmong?_updateAmong_self (Node.handle_setChildren _), hp', row?, hp, Option.map_some, Option.map_some,
        Option.map_some, Option.map_some, Node.row_setChildren hchildren, Node.row_remove, List.map_append, hleft,
        List.map_singleton, Node.handle_of_findAmong? hc, Row.moved, if_pos rfl]
      rfl
    · have hd : (Node.handlesAll (Node.removeAmong child t.nodes)).Nodup :=
        (List.nodup_append.1 ((Node.handlesAll_removeAmong_perm ht.nodup hc).symm.nodup ht.nodup)).2.1
      refine (Node.row_updateAmong (Node.handle_setChildren _) hd hp' hxp ?_).trans ?_
      · have hxc : Node.findAmong? x [c] = none := Node.findAmong?_eq_none_iff.2 (by simpa using hx)
        rw [hchildren, Node.findAmong?_append, hxc, Option.or_none]
      · have hmoved : Row.moved parent child x = Row.without child := by
          funext r
          rw [Row.moved, if_neg hxp, List.append_nil]
          rfl
        rw [Node.row_removeAmong ht.nodup hc hx, hmoved]
        rfl

/-- The node that has been appended is held by its new parent, and every other one as before. -/
theorem parent?_moved (ht : t.Sound) (ha : t.append parent child = .ok t') (x : Handle) :
    t'.parent? x = if x = child then some parent else t.parent? x := by
  have hrow := ht.row?_append ha
  split
  · next he =>
    subst he
    obtain ⟨p, hp, -⟩ := append_eq_ok_iff.1 ha
    refine (ht.append ha).parent?_iff_row?.2 ⟨p.row.moved parent x parent, ?_, ?_⟩
    · rw [hrow, row?, hp, Option.map_some, Option.map_some]
    · rw [Row.moved, if_pos rfl]
      exact List.mem_append_right _ List.mem_cons_self
  · next hne =>
    refine ht.parent?_of_rows (ht.append ha) (fun _ => False.elim) (fun y _ => hrow y) ?_ fun _ _ => id
    intro y r _ _
    have hnew : x ∉ if y = parent then [child] else [] := by split <;> simp [hne]
    simp only [Row.moved, List.mem_append, List.mem_filter, ne_eq, hne, hnew, not_false_eq_true, decide_true, and_true,
      or_false]

end Sound

/-! ### Freeing -/

/-- The nodes of some handles are freed, each once. -/
structure Frees (t t' : Tree) (freed : List Handle) : Prop where
  once : freed.Nodup
  live : ∀ x ∈ freed, t.contains x = true
  dead : ∀ x ∈ freed, t'.contains x = false
  size : t.size = t'.size + freed.length
  pool : t'.pool = t.pool.give freed
  /-- Their slots wait to be given out again, and did not before. -/
  slots : ∀ x ∈ freed, x.slot ∉ t.pool.free.map Handle.slot ∧ (t'.pool.free.map Handle.slot).count x.slot = 1

/-- What has been given back is what the tree has lost. -/
theorem Sound.frees (ht : t.Sound) (ht' : t'.Sound) {freed : List Handle} (hpool : t'.pool = t.pool.give freed)
    (hp : (freed ++ Node.handlesAll t'.nodes).Perm (Node.handlesAll t.nodes)) : t.Frees t' freed := by
  have hd := List.nodup_append.1 (hp.symm.nodup ht.nodup)
  have hlive : ∀ x ∈ freed, t.contains x = true := fun x hx =>
    contains_iff.2 (hp.subset (List.mem_append_left _ hx))
  refine ⟨hd.1, hlive, ?_, ?_, hpool, ?_⟩
  · intro x hx
    refine Bool.eq_false_iff.2 fun hin => ?_
    exact hd.2.2 x hx x (contains_iff.1 hin) rfl
  · rw [size, size, ← hp.length_eq, List.length_append, Nat.add_comm]
  · intro x hx
    constructor
    · intro hin
      exact (ht.wellFormed.free_iff x.slot).1 hin |>.2 x (hlive x hx) rfl
    · have hin : x.slot ∈ t'.pool.free.map Handle.slot := by
        rw [hpool, Pool.free_give, List.map_append]
        refine List.mem_append_left _ (List.mem_map.2 ⟨x.next, ?_, rfl⟩)
        exact List.mem_reverse.2 (List.mem_map_of_mem hx)
      exact Nat.le_antisymm (List.nodup_iff_count.1 ht'.wellFormed.free_once x.slot) (List.count_pos_iff.2 hin)

namespace Sound

theorem frees_clear (ht : t.Sound) (hc : t.clear h = .ok t') {n : Node} (hn : t.find? h = some n) :
    t.Frees t' (n.children.flatMap Node.freeOrder) := by
  obtain ⟨m, hm, hpool, hp⟩ := ht.perm_clear hc
  obtain rfl : m = n := Option.some.inj (hm.symm.trans hn)
  exact ht.frees (ht.clear hc) hpool (((Node.flatMap_freeOrder_perm m.children).append_right _).trans hp)

theorem release_eq (hroot : h ≠ .root) {n : Node} (hn : t.find? h = some n) :
    t.release h = ⟨Node.removeAmong h t.nodes, t.pool.give n.freeOrder⟩ := by
  rw [Tree.release, if_neg hroot, hn]

theorem frees_release (ht : t.Sound) (hroot : h ≠ .root) {n : Node} (hn : t.find? h = some n) :
    t.Frees (t.release h) n.freeOrder := by
  refine ht.frees (ht.release h) ?_ ?_
  · rw [release_eq hroot hn]
  · rw [release_eq hroot hn]
    exact ((Node.freeOrder_perm n).append_right _).trans (Node.handlesAll_removeAmong_perm ht.nodup hn)

/-- Below a node stand the nodes under it other than the node itself. -/
theorem mem_below_iff (ht : t.Sound) {n : Node} (hn : t.find? h = some n) :
    x ∈ Node.handlesAll n.children ↔ t.Under h x ∧ x ≠ h := by
  have hd := (Node.handles_sublist_of_findAmong? hn).nodup ht.nodup
  rw [Node.handles_eq, Node.handle_of_findAmong? hn, List.nodup_cons] at hd
  rw [ht.under_iff hn, Node.handles_eq, Node.handle_of_findAmong? hn, List.mem_cons]
  constructor
  · exact fun hx => ⟨.inr hx, fun he => hd.1 (he ▸ hx)⟩
  · exact fun hx => hx.1.resolve_left hx.2

theorem row?_clear (ht : t.Sound) (hc : t.clear h = .ok t') {n : Node} (hn : t.find? h = some n)
    (hx : x ∉ Node.handlesAll n.children) :
    t'.row? x = (t.row? x).map fun r => if x = h then { r with children := [] } else r := by
  obtain ⟨m, hm, rfl⟩ := clear_eq_ok_iff.1 hc
  obtain rfl : m = n := Option.some.inj (hm.symm.trans hn)
  have hempty : (m.setChildren fun _ => []).children = [] := Node.children_setChildren rfl m
  by_cases hxh : x = h
  · subst hxh
    change (Node.findAmong? x (Node.updateAmong x _ _)).map Node.row = _
    rw [Node.findAmong?_updateAmong_self (Node.handle_setChildren _), row?, hn,
      show Node.findAmong? x t.nodes = some m from hn, Option.map_some, Option.map_some, Option.map_some,
      Option.map_some, Node.row_setChildren hempty, if_pos rfl]
    rfl
  · simp only [if_neg hxh, Option.map_id']
    refine Node.row_updateAmong (Node.handle_setChildren _) ht.nodup hn hxh ?_
    rw [hempty, Node.findAmong?_eq_none_iff.2 hx]
    rfl

theorem row?_release (ht : t.Sound) (hroot : h ≠ .root) {n : Node} (hn : t.find? h = some n) (hx : x ∉ n.handles) :
    (t.release h).row? x = (t.row? x).map (Row.without h) := by
  rw [release_eq hroot hn]
  exact Node.row_removeAmong ht.nodup hn hx

theorem parent?_clear (ht : t.Sound) (hc : t.clear h = .ok t') {n : Node} (hn : t.find? h = some n)
    (hx : x ∉ Node.handlesAll n.children) : t'.parent? x = t.parent? x := by
  refine ht.parent?_of_rows (ht.clear hc) ?_ (fun y hy => ht.row?_clear hc hn hy) ?_ ?_
  · intro y hy
    exact row?_eq_none_iff.2 ((ht.frees_clear hc hn).dead y ((Node.flatMap_freeOrder_perm n.children).mem_iff.2 hy))
  · intro y r _ hr
    split
    · next he =>
      subst he
      rw [row?, hn, Option.map_some, Option.some.injEq] at hr
      subst hr
      have hnot : x ∉ n.children.map Node.handle := fun hin => hx (Node.mem_handlesAll_iff_top.2 (.inl hin))
      exact ⟨fun hin => absurd hin List.not_mem_nil, fun hin => absurd hin hnot⟩
    · rfl
  · intro y hy hin
    obtain ⟨m, hm, hxm⟩ := ht.parent?_iff_find?.1 hy
    refine hx (ht.mem_below_of_mem_children hn ?_ hm hxm)
    rw [Node.handles_eq]
    exact List.mem_cons_of_mem _ hin

theorem parent?_release (ht : t.Sound) (hroot : h ≠ .root) {n : Node} (hn : t.find? h = some n) (hx : x ∉ n.handles) :
    (t.release h).parent? x = t.parent? x := by
  rw [Node.handles_eq, Node.handle_of_findAmong? hn, List.mem_cons, not_or] at hx
  refine ht.parent?_of_rows (ht.release h) ?_ (fun y hy => ht.row?_release hroot hn hy) ?_ ?_
  · intro y hy
    exact row?_eq_none_iff.2 ((ht.frees_release hroot hn).dead y ((Node.freeOrder_perm n).mem_iff.2 hy))
  · intro y r _ _
    simp [Row.without, hx.1]
  · intro y hy hin
    obtain ⟨m, hm, hxm⟩ := ht.parent?_iff_find?.1 hy
    exact hx.2 (ht.mem_below_of_mem_children hn hin hm hxm)

end Sound

end Trellis.Tree
