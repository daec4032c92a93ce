import Trellis.Proofs.Tree.Recorded
import Trellis.Proofs.Tree.Within

/-!
# A tree as a table

A tree can be seen as a table with one row for each live handle: what the node is, which nodes it holds and which events
are recorded on it. Taking a node out and changing a node are what operations are made of. Each of them has one law on
rows here, which says what becomes of the row of any other node. Who holds a node need not be followed through a change:
the rows tell it.
-/
namespace Trellis.Tree

/-- What a node is by itself. -/
inductive Data where
  | element (tag : String) (attributes : Attributes)
  | text (content : String)
deriving DecidableEq, Repr

structure Row where
  data : Data
  children : List Handle
  events : List String
deriving DecidableEq, Repr

/-- A row without one of the children. -/
def Row.without (h : Handle) (r : Row) : Row := { r with children := r.children.filter (· ≠ h) }

namespace Node

def data : Node → Data
  | .element _ tag attributes _ _ => .element tag attributes
  | .text _ content _ => .text content

def row (n : Node) : Row := ⟨n.data, n.children.map handle, n.events⟩

@[simp] theorem data_setChildren (f : List Node → List Node) (n : Node) : (n.setChildren f).data = n.data := by
  cases n <;> rfl

@[simp] theorem data_addEvent (event : String) (n : Node) : (n.addEvent event).data = n.data := by cases n <;> rfl

theorem row_setChildren {f : List Node → List Node} {n : Node} (hf : (n.setChildren f).children = f n.children) :
    (n.setChildren f).row = { n.row with children := (f n.children).map handle } := by
  rw [row, data_setChildren, events_setChildren, hf]
  rfl

theorem map_handle_removeAmong (h : Handle) (ns : List Node) :
    (removeAmong h ns).map handle = (ns.map handle).filter (· ≠ h) := by
  induction ns with
  | nil => simp
  | cons n ns ih =>
    rw [removeAmong_cons, List.map_cons]
    by_cases hn : n.handle = h
    · simp [hn, ih]
    · simp [hn, ih]

theorem row_remove (h : Handle) (n : Node) : (n.remove h).row = (n.row).without h := by
  rw [remove_eq, row_setChildren (children_setChildren (removeAmong_nil h) n), map_handle_removeAmong]
  rfl

/-- The rows of what has not been taken out lose the node among their children. -/
theorem row_removeAmong {h x : Handle} {ns : List Node} {n : Node} (hd : (handlesAll ns).Nodup)
    (hn : findAmong? h ns = some n) (hx : x ∉ n.handles) :
    (findAmong? x (removeAmong h ns)).map row = ((findAmong? x ns).map row).map (Row.without h) := by
  have hfind := findAmong?_removeAmong (x := x) hd fun m hm => Option.some.inj (hn.symm.trans hm) ▸ hx
  rw [hfind, Option.map_map, Option.map_map]
  exact congrArg (Option.map · _) (funext (row_remove h))

/-- What is taken out is not found any more. -/
theorem findAmong?_removeAmong_of_mem {h x : Handle} {ns : List Node} {n : Node} (hd : (handlesAll ns).Nodup)
    (hn : findAmong? h ns = some n) (hx : x ∈ n.handles) : findAmong? x (removeAmong h ns) = none := by
  have hd' := (handlesAll_removeAmong_perm hd hn).symm.nodup hd
  exact findAmong?_eq_none_iff.2 fun hx' => (List.nodup_append.1 hd').2.2 x hx x hx' rfl

/-- The rows of other nodes stay when a node is changed, provided that the rows below the changed node do. -/
theorem row_updateAmong {h x : Handle} {f : Node → Node} {ns : List Node} {n : Node}
    (hf : ∀ n, (f n).handle = n.handle) (hd : (handlesAll ns).Nodup) (hn : findAmong? h ns = some n) (hne : x ≠ h)
    (hbelow : (findAmong? x (f n).children).map row = (findAmong? x n.children).map row) :
    (findAmong? x (updateAmong h f ns)).map row = (findAmong? x ns).map row := by
  induction ns using forestInduction with
  | nil => simp at hn
  | cons m ns ihc ihs =>
    obtain ⟨hmc, hms, hdc, hds, hcs⟩ := nodup_handlesAll_cons.1 hd
    have hcons : ∀ {m' ns'}, (m'.find? x).map row = (m.find? x).map row →
        (findAmong? x ns').map row = (findAmong? x ns).map row →
        (findAmong? x (m' :: ns')).map row = (findAmong? x (m :: ns)).map row := by
      intro m' ns' hhead htail
      rw [findAmong?_cons, findAmong?_cons, Option.map_or, Option.map_or, hhead, htail]
    rw [findAmong?_cons, find?_eq] at hn
    rw [updateAmong_cons, update_eq]
    by_cases hm : m.handle = h
    · rw [if_pos hm, Option.some_or, Option.some.injEq] at hn
      subst hn
      have hxm : m.handle ≠ x := fun he => hne (he.symm.trans hm)
      rw [if_pos hm, updateAmong_of_not_mem f (hm ▸ hms)]
      refine hcons ?_ rfl
      rw [find?_eq, find?_eq, hf, if_neg hxm, if_neg hxm, hbelow]
    · rw [if_neg hm] at hn ⊢
      have hhead : (findAmong? x (updateAmong h f m.children)).map row = (findAmong? x m.children).map row →
          ((m.setChildren (updateAmong h f)).find? x).map row = (m.find? x).map row := by
        intro hchildren
        rw [find?_eq, find?_eq, handle_setChildren, children_setChildren (updateAmong_nil h f)]
        split
        · rw [Option.map_some, Option.map_some, row_setChildren (children_setChildren (updateAmong_nil h f) m),
            map_handle_updateAmong hf]
          rfl
        · exact hchildren
      -- the changed node stands below `m` or behind it, and the other part stays as it is
      rcases Option.or_eq_some_iff.1 hn with hc | ⟨hc, hs⟩
      · rw [updateAmong_of_not_mem f (hcs h (mem_of_findAmong? hc))]
        exact hcons (hhead (ihc hdc hc)) rfl
      · have hsame := updateAmong_of_not_mem f (findAmong?_eq_none_iff.1 hc)
        exact hcons (hhead (by rw [hsame])) (ihs hds hs)

end Node

/-! ### Rows -/

/-- The row of a live node. -/
def row? (t : Tree) (h : Handle) : Option Row := (t.find? h).map Node.row

section

variable {t t' : Tree} {h x p : Handle}

theorem row?_eq_none_iff : t.row? h = none ↔ t.contains h = false := by
  rw [row?, Option.map_eq_none_iff, contains, Option.isSome_eq_false_iff, Option.isNone_iff_eq_none]

/-- A node is held by the one that has it among its children. -/
theorem Sound.parent?_iff_find? (ht : t.Sound) :
    t.parent? x = some p ↔ ∃ n, t.find? p = some n ∧ x ∈ n.children.map Node.handle :=
  Node.parentAmong?_eq_some_iff ht.nodup

theorem Sound.parent?_iff_row? (ht : t.Sound) : t.parent? x = some p ↔ ∃ r, t.row? p = some r ∧ x ∈ r.children := by
  rw [ht.parent?_iff_find?]
  constructor
  · rintro ⟨n, hn, hx⟩
    exact ⟨n.row, by rw [row?, hn, Option.map_some], hx⟩
  · rintro ⟨r, hr, hx⟩
    obtain ⟨n, hn, rfl⟩ := Option.map_eq_some_iff.1 hr
    exact ⟨n, hn, hx⟩

/-! ### Standing under a node -/

/-- Going from a node to its parent, a number of times or not at all, leads from `x` to `h`. -/
def Under (t : Tree) (h x : Handle) : Prop := ∃ k, t.ancestor? k x = some h

/-- All that stands below a node has its parent in the node. -/
theorem Sound.exists_parent?_of_below (ht : t.Sound) {n : Node} (hn : t.find? h = some n)
    (hx : x ∈ Node.handlesAll n.children) : ∃ p, t.parent? x = some p ∧ p ∈ n.handles := by
  have hsub := Node.handles_sublist_of_findAmong? hn
  rw [Node.handles_eq] at hsub
  have hd := List.nodup_cons.1 (hsub.nodup ht.nodup)
  rw [Node.handles_eq]
  rcases Node.mem_handlesAll_iff_top.1 hx with htop | hin
  · exact ⟨h, ht.parent?_iff_find?.2 ⟨n, hn, htop⟩, Node.handle_of_findAmong? hn ▸ List.mem_cons_self⟩
  · cases hp : Node.parentAmong? x n.children with
    | none => exact absurd hin (Node.parentAmong?_eq_none_iff.1 hp)
    | some p =>
      obtain ⟨m, hm, hxm⟩ := (Node.parentAmong?_eq_some_iff hd.2).1 hp
      have hpn := Node.mem_of_findAmong? hm
      have hfind : t.find? p = some m := (Node.findAmong?_below ht.nodup hn hpn).trans hm
      exact ⟨p, ht.parent?_iff_find?.2 ⟨m, hfind, hxm⟩, List.mem_cons_of_mem _ hpn⟩

/-- The children of what stands in a node stand below it. -/
theorem Sound.mem_below_of_mem_children (ht : t.Sound) {n m : Node} (hn : t.find? h = some n) (hp : p ∈ n.handles)
    (hm : t.find? p = some m) (hx : x ∈ m.children.map Node.handle) : x ∈ Node.handlesAll n.children := by
  have hxm : x ∈ Node.handlesAll m.children := Node.mem_handlesAll_iff_top.2 (.inl hx)
  rw [Node.handles_eq, Node.handle_of_findAmong? hn, List.mem_cons] at hp
  rcases hp with rfl | hp
  · obtain rfl : m = n := Option.some.inj (hm.symm.trans hn)
    exact hxm
  · have hin := Node.handles_sublist_of_findAmong? ((Node.findAmong?_below ht.nodup hn hp).symm.trans hm)
    rw [Node.handles_eq] at hin
    exact hin.subset (List.mem_cons_of_mem _ hxm)

/-- What stands under a node is the node and all that it holds. -/
theorem Sound.under_iff (ht : t.Sound) {n : Node} (hn : t.find? h = some n) : t.Under h x ↔ x ∈ n.handles := by
  constructor
  · rintro ⟨k, hk⟩
    induction k generalizing x with
    | zero =>
      obtain rfl : x = h := Option.some.inj hk
      rw [Node.handles_eq, Node.handle_of_findAmong? hn]
      exact List.mem_cons_self
    | succ k ih =>
      obtain ⟨p, hp, hk⟩ := Option.bind_eq_some_iff.1 hk
      obtain ⟨m, hm, hx⟩ := ht.parent?_iff_find?.1 hp
      rw [Node.handles_eq]
      exact List.mem_cons_of_mem _ (ht.mem_below_of_mem_children hn (ih hk) hm hx)
  · intro hx
    have hsplit : ∀ {x : Handle}, x ∈ n.handles → x = h ∨ ∃ p, t.parent? x = some p ∧ p ∈ n.handles := by
      intro x hx
      rw [Node.handles_eq, Node.handle_of_findAmong? hn, List.mem_cons] at hx
      exact hx.imp_right (ht.exists_parent?_of_below hn)
    have hclimbs := ht.climbs_lineage x
    generalize t.lineage x = path at hclimbs
    induction hclimbs with
    | top hp =>
      rcases hsplit hx with rfl | ⟨p, hp', -⟩
      · exact ⟨0, rfl⟩
      · cases hp.symm.trans hp'
    | up hp _ ih =>
      rcases hsplit hx with rfl | ⟨p, hp', hpn⟩
      · exact ⟨0, rfl⟩
      · cases hp.symm.trans hp'
        obtain ⟨k, hk⟩ := ih hpn
        exact ⟨k + 1, by rw [ancestor?, hp, Option.bind_some, hk]⟩

end
end Trellis.Tree
