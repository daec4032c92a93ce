import Mathlib.Data.List.Nodup
import Trellis.Proofs.Tree.Arena
import Trellis.Proofs.Tree.Rearrange
import Trellis.Proofs.Tree.Search

/-!
# Arenas that store a tree

An arena stores a tree when it holds one cell for each node of the tree, with the links that the tree has at both of
their ends, and when its free slots are those of the tree's pool. The two loops can then be followed along the tree.
That stored parents never lead round in a circle is why the walk up ends, and that no slot is used by two nodes is why
freeing visits each node once.
-/
namespace Trellis.Tree

/-! ### The cells of a tree -/

/-- A row with the node that holds it. -/
def Row.cell (parent : Option Handle) (r : Row) : Cell := ⟨r.data, parent, r.children, r.events⟩

/-- What is to be stored for a live node. -/
def cell? (t : Tree) (h : Handle) : Option Cell := (t.row? h).map (Row.cell (t.parent? h))

/-- The cell of `x` after `child` has been taken from its parent. -/
def Cell.detached (child x : Handle) (c : Cell) : Cell :=
  { c with
    parent := if x = child then none else c.parent
    children := c.children.filter (· ≠ child) }

theorem Cell.detached_eq_self {child x : Handle} {c : Cell} (hp : x = child → c.parent = none)
    (hc : child ∉ c.children) : c.detached child x = c := by
  have hparent : (if x = child then none else c.parent) = c.parent := by
    split
    · next hx => exact (hp hx).symm
    · rfl
  have hchildren : c.children.filter (· ≠ child) = c.children :=
    List.filter_eq_self.2 fun y hy => decide_eq_true fun he => hc (he ▸ hy)
  rw [detached, hparent, hchildren]

/-- The cell of `x` after `child` has been moved to the end of the children of `parent`. -/
def Cell.moved (parent child x : Handle) (c : Cell) : Cell :=
  { c with
    parent := if x = child then some parent else c.parent
    children := c.children.filter (· ≠ child) ++ if x = parent then [child] else [] }

section

variable {t t' : Tree} {h x parent child : Handle} {n : Node}

theorem cell?_of_find? (hn : t.find? h = some n) : t.cell? h = some (n.row.cell (t.parent? h)) := by
  rw [cell?, row?, hn]
  rfl

theorem cell?_eq_none_iff : t.cell? h = none ↔ t.contains h = false := by
  rw [cell?, Option.map_eq_none_iff, row?_eq_none_iff]

theorem exists_find?_of_cell? {c : Cell} (hc : t.cell? h = some c) :
    ∃ n, t.find? h = some n ∧ n.row.cell (t.parent? h) = c := by
  obtain ⟨r, hr, rfl⟩ := Option.map_eq_some_iff.1 hc
  obtain ⟨n, hn, rfl⟩ := Option.map_eq_some_iff.1 hr
  exact ⟨n, hn, rfl⟩

/-- A handle that is not live has no parent. -/
theorem Sound.parent?_eq_none (ht : t.Sound) (hh : t.contains h = false) : t.parent? h = none := by
  cases hp : t.parent? h with
  | none => rfl
  | some p =>
    obtain ⟨m, hm, hin⟩ := ht.parent?_iff_find?.1 hp
    have hlive := contains_iff.2 ((Sound.children_sublist hm).subset hin)
    rw [hh] at hlive
    cases hlive

theorem Sound.bind_cell? (ht : t.Sound) (h : Handle) : (t.cell? h).bind Cell.parent = t.parent? h := by
  cases hc : t.cell? h with
  | none => rw [ht.parent?_eq_none (cell?_eq_none_iff.1 hc), Option.bind_none]
  | some c =>
    obtain ⟨n, -, rfl⟩ := exists_find?_of_cell? hc
    rfl

/-- A node that is new, and holds nothing, comes with its cell. -/
theorem Sound.cell?_create (ht : t.Sound) (hn : n.children = []) (hfresh : t.contains n.handle = false) (pool : Pool)
    (x : Handle) :
    (⟨n :: t.nodes, pool⟩ : Tree).cell? x = if x = n.handle then some (n.row.cell none) else t.cell? x := by
  have hfind : (⟨n :: t.nodes, pool⟩ : Tree).find? x = if x = n.handle then some n else t.find? x := by
    rw [find?, Node.findAmong?_cons, Node.find?_eq, hn, Node.findAmong?_nil]
    by_cases hx : x = n.handle
    · simp [hx]
    · simp [hx, Ne.symm hx, find?]
  have hparent : (⟨n :: t.nodes, pool⟩ : Tree).parent? x = t.parent? x := by
    rw [parent?, Node.parentAmong?_cons, Node.parent?_eq, hn]
    simp [parent?]
  rw [cell?, row?, hfind, hparent]
  split
  · next hx =>
    rw [hx, ht.parent?_eq_none hfresh]
    rfl
  · rfl

/-- A change of a node by itself changes its own cell. -/
theorem Sound.cell?_update (ht : t.Sound) {f : Node → Node} {g : Cell → Cell} (hhandle : ∀ n, (f n).handle = n.handle)
    (hchildren : ∀ n, (f n).children = n.children) (hg : ∀ n parent, (f n).row.cell parent = g (n.row.cell parent))
    (h x : Handle) : (t.update h f).cell? x = if x = h then (t.cell? x).map g else t.cell? x := by
  have ht' : (t.update h f).Sound := ht.update fun n => Node.handles_congr (hhandle n) (hchildren n)
  have hself : (t.update h f).find? h = (t.find? h).map f := Node.findAmong?_updateAmong_self hhandle t.nodes
  have hother : ∀ y, y ≠ h → (t.update h f).row? y = t.row? y := by
    intro y hy
    cases hn : t.find? h with
    | none =>
      rw [row?, row?, find?, Tree.update, Node.updateAmong_of_not_mem f (Node.findAmong?_eq_none_iff.1 hn), find?]
    | some n => exact Node.row_updateAmong hhandle ht.nodup hn hy (by rw [hchildren])
  have hrow : ∀ y, (t.update h f).row? y =
      (t.row? y).map fun r => if y = h then (((t.find? y).map f).map Node.row).getD r else r := by
    intro y
    by_cases hy : y = h
    · subst hy
      rw [row?, hself, row?]
      cases t.find? y <;> simp
    · rw [hother y hy]
      simp [hy]
  have hparent : (t.update h f).parent? x = t.parent? x := by
    refine ht.parent?_of_rows ht' (fun _ => False.elim) (fun y _ => hrow y) ?_ fun _ _ => id
    intro y r _ hr
    split
    · obtain ⟨n, hn, rfl⟩ := Option.map_eq_some_iff.1 hr
      simp [hn, Node.row, hchildren]
    · rfl
  rw [cell?, hparent]
  split
  · next hx =>
    subst hx
    rw [row?, hself, cell?, row?]
    cases t.find? x with
    | none => rfl
    | some n => exact congrArg some (hg n _)
  · next hx => rw [hother x hx, cell?]

/-- No node is appended to itself. -/
theorem ne_of_append (ha : t.append parent child = .ok t') : parent ≠ child := by
  obtain ⟨p, hp, -, c, hc, hpc, -⟩ := append_eq_ok_iff.1 ha
  rintro rfl
  obtain rfl : p = c := Option.some.inj (hp.symm.trans hc)
  rw [Node.find?_eq, if_pos (Node.handle_of_findAmong? hp)] at hpc
  cases hpc

theorem Sound.cell?_append (ht : t.Sound) (ha : t.append parent child = .ok t') (x : Handle) :
    t'.cell? x = (t.cell? x).map (Cell.moved parent child x) := by
  rw [cell?, ht.row?_append ha, ht.parent?_moved ha, cell?, Option.map_map, Option.map_map]
  refine Option.map_congr fun r _ => ?_
  simp only [Function.comp_apply, Row.cell, Row.moved, Cell.moved]

theorem Sound.cell?_clear (ht : t.Sound) (hc : t.clear h = .ok t') (hn : t.find? h = some n)
    (hx : x ∉ Node.handlesAll n.children) :
    t'.cell? x = (t.cell? x).map fun c => if x = h then c.setChildren fun _ => [] else c := by
  rw [cell?, ht.row?_clear hc hn hx, ht.parent?_clear hc hn hx, cell?, Option.map_map, Option.map_map]
  refine Option.map_congr fun r _ => ?_
  simp only [Function.comp_apply]
  split <;> rfl

theorem Sound.cell?_release (ht : t.Sound) (hroot : h ≠ .root) (hn : t.find? h = some n) (hx : x ∉ n.handles) :
    (t.release h).cell? x = (t.cell? x).map (Cell.detached h x) := by
  have hxh : x ≠ h := by
    rintro rfl
    exact hx (by rw [Node.handles_eq, Node.handle_of_findAmong? hn]; exact List.mem_cons_self)
  rw [cell?, ht.row?_release hroot hn hx, ht.parent?_release hroot hn hx, cell?, Option.map_map, Option.map_map]
  refine Option.map_congr fun r _ => ?_
  simp [Cell.detached, Row.cell, Row.without, hxh]

/-! ### Nodes at the top -/

theorem Node.handlesAll_perm {ns ns' : List Node} (hp : ns.Perm ns') : (handlesAll ns).Perm (handlesAll ns') := by
  induction hp with
  | nil => exact .refl _
  | cons n _ ih =>
    rw [handlesAll_cons, handlesAll_cons]
    exact ih.append_left _
  | swap m n ns =>
    simp only [handlesAll_cons, ← List.append_assoc]
    exact List.perm_append_comm.append_right _
  | trans _ _ ih ih' => exact ih.trans ih'

theorem Node.findAmong?_perm {ns ns' : List Node} (hp : ns.Perm ns') (hd : (handlesAll ns).Nodup) :
    findAmong? x ns = findAmong? x ns' := by
  induction hp with
  | nil => rfl
  | cons n _ ih =>
    rw [findAmong?_cons, findAmong?_cons, ih (nodup_handlesAll_cons.1 hd).2.2.2.1]
  | swap m n ns =>
    rw [handlesAll_cons, handlesAll_cons, List.nodup_append] at hd
    have hdisjoint : x ∈ n.handles → x ∉ m.handles := fun hn hm =>
      hd.2.2 x hn x (List.mem_append_left _ hm) rfl
    rw [mem_handles_iff, mem_handles_iff] at hdisjoint
    rw [findAmong?_cons, findAmong?_cons, findAmong?_cons, findAmong?_cons]
    cases hn : n.find? x <;> cases hm : m.find? x <;> simp_all
  | trans hp _ ih ih' => exact (ih hd).trans (ih' ((handlesAll_perm hp).nodup hd))

/-! ### How many slots there are -/

/-- Each slot is that of one node or waits once. -/
theorem Sound.slots_perm (ht : t.Sound) :
    ((Node.handlesAll t.nodes ++ t.pool.free).map Handle.slot).Perm (List.range t.pool.slots) := by
  rw [List.perm_iff_count]
  intro i
  have hcount : ∀ l : List Handle, (l.map Handle.slot).count i = l.countP (·.slot = i) := by
    intro l
    rw [List.count, List.countP_map]
    rfl
  rw [hcount, List.countP_append, ht i, List.nodup_range.count]
  simp

theorem Sound.size_add_free (ht : t.Sound) : t.size + t.pool.free.length = t.pool.slots := by
  have hlength := ht.slots_perm.length_eq
  rwa [List.length_map, List.length_append, List.length_range] at hlength

theorem Stands.contains {ns : List Node} (hs : t.Stands ns) (hx : x ∈ Node.handlesAll ns) : t.contains x = true := by
  obtain ⟨m, hm⟩ := Node.exists_findAmong?_of_mem hx
  exact contains_of_find? (hs.found x m hm)

theorem Stands.of_append_left {ms ns : List Node} (hs : t.Stands (ms ++ ns)) : t.Stands ms := by
  have hd := hs.nodup
  rw [Node.handlesAll_append] at hd
  refine ⟨(List.nodup_append.1 hd).1, fun h n hn => hs.found h n ?_⟩
  rw [Node.findAmong?_append, hn, Option.some_or]

theorem Stands.of_append_right {ms ns : List Node} (hs : t.Stands (ms ++ ns)) : t.Stands ns := by
  have hd := hs.nodup
  rw [Node.handlesAll_append] at hd
  refine ⟨(List.nodup_append.1 hd).2.1, fun h n hn => hs.found h n ?_⟩
  have hout : Node.findAmong? h ms = none := Node.findAmong?_eq_none_iff.2 fun hin =>
    (List.nodup_append.1 hd).2.2 h hin h (Node.mem_of_findAmong? hn) rfl
  rw [Node.findAmong?_append, hout, Option.none_or, hn]

/-! ### Ways up -/

theorem length_lineage_le (ns : List Node) {path : List Handle} (hp : Node.lineageAmong? h ns = some path) :
    path.length ≤ (Node.handlesAll ns).length := by
  induction ns using Node.forestInduction generalizing path with
  | nil => simp at hp
  | cons n ns ihc ihs =>
    rw [Node.handlesAll_cons, Node.handles_eq, List.length_append, List.length_cons]
    rw [Node.lineageAmong?_cons, Node.lineage?_eq, Option.or_eq_some_iff] at hp
    rcases hp with hp | ⟨-, hp⟩
    · split at hp
      · cases hp
        simp only [List.length_cons, List.length_nil]
        omega
      · obtain ⟨inner, hinner, rfl⟩ := Option.map_eq_some_iff.1 hp
        have := ihc hinner
        simp only [List.length_append, List.length_cons, List.length_nil]
        omega
    · have := ihs hp
      omega

/-- On the way up from a node stand the nodes that it stands under. -/
theorem Climbs.mem_iff {path : List Handle} (hp : t.Climbs h path) :
    x ∈ path ↔ t.Under x h := by
  induction hp with
  | @top h hp =>
    constructor
    · intro hx
      exact ⟨0, by rw [List.mem_singleton.1 hx]; rfl⟩
    · rintro ⟨k, hk⟩
      cases k with
      | zero => exact List.mem_singleton.2 (Option.some.inj hk).symm
      | succ k =>
        rw [Tree.ancestor?, hp] at hk
        cases hk
  | @up h p path hp _ ih =>
    rw [List.mem_cons, ih]
    constructor
    · rintro (rfl | ⟨k, hk⟩)
      · exact ⟨0, rfl⟩
      · exact ⟨k + 1, by rw [Tree.ancestor?, hp, Option.bind_some, hk]⟩
    · rintro ⟨k, hk⟩
      cases k with
      | zero => exact .inl (Option.some.inj hk).symm
      | succ k =>
        rw [Tree.ancestor?, hp, Option.bind_some] at hk
        exact .inr ⟨k, hk⟩

end

namespace Arena

/-! ### Storing -/

/-- The arena holds the nodes of the tree, with their links, and its free slots are those of the tree. -/
structure Stores (a : Arena) (t : Tree) : Prop where
  sound : t.Sound
  cell : ∀ h, a.cell? h = t.cell? h
  pool : a.pool = t.pool

namespace Stores

variable {a a' : Arena} {t t' : Tree} {h x parent child : Handle} {n : Node}

theorem contains (hs : a.Stores t) (h : Handle) : a.contains h = t.contains h := by
  rw [Arena.contains, hs.cell, Tree.cell?, row?, Option.isSome_map, Option.isSome_map]
  rfl

theorem parent? (hs : a.Stores t) (h : Handle) : a.parent? h = t.parent? h := by
  rw [Arena.parent?, hs.cell, hs.sound.bind_cell?]

theorem cell_of_find? (hs : a.Stores t) (hn : t.find? h = some n) : a.cell? h = some (n.row.cell (t.parent? h)) := by
  rw [hs.cell, cell?_of_find? hn]

theorem length_slots (hs : a.Stores t) : a.slots.length = t.pool.slots := congrArg Pool.slots hs.pool

theorem free (hs : a.Stores t) : a.free = t.pool.free.map Handle.slot := by
  rw [← hs.pool, Arena.pool, List.map_map]
  exact (List.map_id _).symm

/-- A tree has no more nodes than an arena with its pool has slots. -/
theorem size_le_of_pool (hs : a.Stores t) (hpool : a'.pool = t.pool) : t.size ≤ a'.slots.length := by
  have := hs.sound.size_add_free
  have : a'.slots.length = t.pool.slots := congrArg Pool.slots hpool
  omega

theorem size_le (hs : a.Stores t) : t.size ≤ a.slots.length := hs.size_le_of_pool hs.pool

theorem free_lt (hs : a.Stores t) : ∀ i ∈ a.free, i < a.slots.length := by
  intro i hi
  rw [hs.free] at hi
  rw [hs.length_slots]
  exact ((hs.sound.wellFormed.free_iff i).1 hi).1

end Stores

/-! ### Walking up -/

/-- The walk up from a node is over when it has passed the top, one turn later. -/
theorem Ascent.run_climbs {a : Arena} {t : Tree} (hparent : ∀ x, a.parent? x = t.parent? x) {h : Handle}
    {path : List Handle} (hp : t.Climbs h path) (candidate : Handle) (more : Nat) :
    run a candidate (path.length + 1 + more) (.pending (some h)) = .ended (decide (candidate ∈ path)) := by
  induction hp with
  | @top h hp =>
    rw [List.length_singleton, show 1 + 1 + more = more + 1 + 1 by omega, run_succ, turn]
    by_cases hh : h = candidate
    · rw [if_pos hh, run_ended]
      simp [hh]
    · rw [if_neg hh, hparent, hp, run_succ, turn, run_ended]
      simp [Ne.symm hh]
  | @up h p path hp _ ih =>
    rw [List.length_cons, show path.length + 1 + 1 + more = path.length + 1 + more + 1 by omega, run_succ, turn]
    by_cases hh : h = candidate
    · simp [hh]
    · rw [if_neg hh, hparent, hp, ih]
      simp [Ne.symm hh]

namespace Stores

variable {a a' : Arena} {t t' : Tree} {h x parent child : Handle} {n : Node}

/-- The walk up ends within its limit, with the answer whether the candidate was on the way. -/
theorem ascent_ends (hs : a.Stores t) (candidate h : Handle) :
    ∃ found, (found = true ↔ t.Under candidate h) ∧
      ∀ more, Ascent.run a candidate (a.ascentLimit + more) (.pending (some h)) = .ended found := by
  have hclimbs := hs.sound.climbs_lineage h
  refine ⟨decide (candidate ∈ t.lineage h), by rw [decide_eq_true_eq, hclimbs.mem_iff], fun more => ?_⟩
  have hlength : (t.lineage h).length ≤ a.slots.length + 1 := by
    rw [lineage]
    cases hl : Node.lineageAmong? h t.nodes with
    | none => simp
    | some path =>
      have := length_lineage_le t.nodes hl
      have := hs.size_le
      rw [Tree.size] at this
      simp only [Option.getD_some]
      omega
  obtain ⟨rest, hrest⟩ : ∃ rest, a.ascentLimit + more = (t.lineage h).length + 1 + rest :=
    ⟨a.ascentLimit + more - ((t.lineage h).length + 1), by rw [ascentLimit]; omega⟩
  rw [hrest, Ascent.run_climbs hs.parent? hclimbs]

theorem isAncestor_iff (hs : a.Stores t) : a.isAncestor child h = true ↔ t.Under child h := by
  obtain ⟨found, hfound, hends⟩ := hs.ascent_ends child h
  have hrun := hends 0
  rw [Nat.add_zero] at hrun
  rw [isAncestor, hrun, Ascent.found, hfound]

end Stores

/-! ### Visiting what a node holds -/

/-- The nodes of some handles are stored with the children that they have in a tree. -/
def Holds (a : Arena) (t : Tree) (hs : List Handle) : Prop :=
  ∀ x ∈ hs, ∃ c, a.cell? x = some c ∧ c.children = t.childrenOf x

namespace Holds

variable {a : Arena} {t : Tree} {hs hs' : List Handle}

theorem mono (hh : a.Holds t hs) (hsub : ∀ x ∈ hs', x ∈ hs) : a.Holds t hs' := fun x hx => hh x (hsub x hx)

/-- Freeing other slots leaves what is held as it is. -/
theorem retireAll (hh : a.Holds t hs) {freed : List Handle} (hslots : ∀ x ∈ hs, ∀ y ∈ freed, x.slot ≠ y.slot) :
    (a.retireAll freed).Holds t hs := by
  intro x hx
  rw [cell?_retireAll, if_neg]
  · exact hh x hx
  · intro hin
    obtain ⟨y, hy, he⟩ := List.mem_map.1 hin
    exact hslots x hx y hy he.symm

end Holds

section

variable {a : Arena} {t : Tree} {h : Handle} {n : Node} {ns : List Node}

/-- Nodes on top of the stack are freed from the last to the first, each with all that it holds, before the stack is
gone on with. Each of them takes one turn. -/
theorem Freeing.run_stands (ht : t.Sound) (hs : t.Stands ns) (hh : a.Holds t (Node.handlesAll ns))
    (rest : List Handle) :
    run (Node.handlesAll ns).length ⟨a, (ns.map Node.handle).reverse ++ rest⟩ =
      ⟨a.retireAll (Node.freeOrderBack ns), rest⟩ := by
  induction ns using Node.forestInduction generalizing a rest with
  | nil => simp [Node.freeOrderBack]
  | cons n ns ihc ihs =>
    obtain ⟨hnc, hns, -, -, hcs⟩ := Node.nodup_handlesAll_cons.1 hs.nodup
    have hslots : ∀ x ∈ n.handles, ∀ y ∈ Node.handlesAll ns, x.slot ≠ y.slot := by
      intro x hx y hy he
      have hxy : x = y := ht.slot_injective (hs.contains (by simp [hx])) (hs.contains (by simp [hy])) he
      rw [Node.handles_eq, List.mem_cons] at hx
      rcases hx with rfl | hx
      · exact hns (hxy ▸ hy)
      · exact hcs x hx (hxy ▸ hy)
    have hturns : (Node.handlesAll (n :: ns)).length =
        (Node.handlesAll ns).length + (1 + (Node.handlesAll n.children).length) := by
      rw [Node.handlesAll_cons, Node.handles_eq, List.length_append, List.length_cons]
      omega
    have hstack : ((n :: ns).map Node.handle).reverse ++ rest = (ns.map Node.handle).reverse ++ n.handle :: rest := by
      simp
    have hback : Node.freeOrderBack (n :: ns) =
        Node.freeOrderBack ns ++ n.handle :: Node.freeOrderBack n.children := by
      rw [Node.freeOrderBack, Node.freeOrder_eq]
    -- the nodes behind `n` are freed first, and `n` with what it holds is still there then
    have hheld : (a.retireAll (Node.freeOrderBack ns)).Holds t n.handles :=
      (hh.mono fun x hx => by simp [hx]).retireAll fun x hx y hy =>
        hslots x hx y ((Node.freeOrderBack_perm ns).mem_iff.1 hy)
    obtain ⟨c, hc, hchildren⟩ := hheld n.handle (by rw [Node.handles_eq]; exact List.mem_cons_self)
    have hkids : t.childrenOf n.handle = n.children.map Node.handle := by rw [childrenOf, hs.head]; rfl
    have hheld' :
        ((a.retireAll (Node.freeOrderBack ns)).retireAll [n.handle]).Holds t (Node.handlesAll n.children) := by
      refine (hheld.mono fun x hx => ?_).retireAll ?_
      · rw [Node.handles_eq]
        exact List.mem_cons_of_mem _ hx
      · intro x hx y hy he
        rw [List.mem_singleton.1 hy] at he
        have hxy : x = n.handle := ht.slot_injective (hs.children.contains hx) (contains_of_find? hs.head) he
        exact hnc (hxy ▸ hx)
    rw [hturns, run_add, hstack, ihs hs.tail (hh.mono fun x hx => by simp [hx]), run_add, run_succ, run_zero,
      turn_of_cell? hc, hchildren, hkids, hback, retireAll_append, retireAll_cons]
    exact ihc hs.children hheld' rest

/-- Freeing one node takes as many turns as nodes are freed. -/
theorem Freeing.run_of_find? (ht : t.Sound) (hn : t.find? h = some n) (hh : a.Holds t n.handles) :
    run n.handles.length ⟨a, [h]⟩ = ⟨a.retireAll n.freeOrder, []⟩ := by
  have hall : Node.handlesAll [n] = n.handles := by simp
  have hback : Node.freeOrderBack [n] = n.freeOrder := by simp [Node.freeOrderBack]
  have hrun := run_stands ht (ht.stands hn) (hall ▸ hh) []
  rw [hall, hback, List.map_singleton, List.reverse_singleton, List.append_nil, Node.handle_of_findAmong? hn] at hrun
  exact hrun

theorem freeSubtree_eq (ht : t.Sound) (hn : t.find? h = some n) (hh : a.Holds t n.handles)
    (hsize : t.size ≤ a.slots.length) : a.freeSubtree h = a.retireAll n.freeOrder := by
  have hle : n.handles.length ≤ t.size := (Node.handles_sublist_of_findAmong? hn).length_le
  obtain ⟨more, hmore⟩ : ∃ more, a.freeingLimit = n.handles.length + more :=
    ⟨a.freeingLimit - n.handles.length, by rw [freeingLimit]; omega⟩
  rw [freeSubtree, hmore, Freeing.run_add, Freeing.run_of_find? ht hn hh, Freeing.run_done]

/-- Nodes are freed one after the other, each with all that it holds. -/
theorem foldl_freeSubtree_eq (ht : t.Sound) (hs : t.Stands ns) (hh : a.Holds t (Node.handlesAll ns))
    (hsize : t.size ≤ a.slots.length) :
    (ns.map Node.handle).foldl freeSubtree a = a.retireAll (ns.flatMap Node.freeOrder) := by
  induction ns generalizing a with
  | nil => rfl
  | cons n ns ih =>
    have hd := hs.nodup
    rw [Node.handlesAll_cons, List.nodup_append] at hd
    rw [List.map_cons, List.foldl_cons, freeSubtree_eq ht hs.head (hh.mono fun x hx => by simp [hx]) hsize,
      List.flatMap_cons, retireAll_append]
    refine ih hs.tail ?_ (by rwa [length_slots_retireAll])
    refine (hh.mono fun x hx => by simp [hx]).retireAll fun x hx y hy he => ?_
    have hy := (Node.freeOrder_perm n).mem_iff.1 hy
    have hxy : x = y := ht.slot_injective (hs.contains (by simp [hx])) (hs.contains (by simp [hy])) he
    exact hd.2.2 y hy x hx hxy.symm

end

end Arena
end Trellis.Tree
