import Trellis.Proofs.Tree.Sound

/-!
# Trees are well-formed forests

Children, parents, lineages and the pool are different views of a tree. Here they are shown to agree: a node is
the parent of exactly those nodes that stand among its children, the way up from any node ends at the top, and
the pool holds exactly the slots that no node uses. This holds after every sequence of operations, with
whatever handles they were called and whether they succeeded or not.
-/
namespace Trellis.Tree

namespace Node

/-! ### Parents -/

/-- The handles of a forest are those at its top and those of what the nodes at the top hold. -/
theorem handlesAll_perm_top (ns : List Node) :
    (handlesAll ns).Perm (ns.map handle ++ handlesAll (ns.flatMap children)) := by
  induction ns with
  | nil => simp
  | cons n ns ih =>
    rw [List.perm_iff_count] at ih ⊢
    intro x
    have ih := ih x
    simp only [handlesAll_cons, handles_eq, List.map_cons, List.flatMap_cons, handlesAll_append,
      List.count_append, List.count_cons] at ih ⊢
    omega

theorem mem_handlesAll_iff_top {h : Handle} {ns : List Node} :
    h ∈ handlesAll ns ↔ h ∈ ns.map handle ∨ h ∈ handlesAll (ns.flatMap children) := by
  rw [(handlesAll_perm_top ns).mem_iff, List.mem_append]

/-- Exactly the nodes below the top have a parent. -/
theorem parentAmong?_eq_none_iff {h : Handle} {ns : List Node} :
    parentAmong? h ns = none ↔ h ∉ handlesAll (ns.flatMap children) := by
  induction ns using forestInduction with
  | nil => simp
  | cons n ns ihc ihs =>
    rw [parentAmong?_cons, Option.or_eq_none_iff, ihs, parent?_eq, List.flatMap_cons, handlesAll_append,
      List.mem_append, not_or, @mem_handlesAll_iff_top h n.children, not_or]
    apply and_congr_left
    intro _
    by_cases ht : h ∈ n.children.map handle
    · simp [ht]
    · simp [ht, ihc]

theorem mem_of_parentAmong? {h p : Handle} {ns : List Node} (hp : parentAmong? h ns = some p) :
    h ∈ handlesAll (ns.flatMap children) := by
  apply Classical.byContradiction
  intro hm
  rw [parentAmong?_eq_none_iff.mpr hm] at hp
  cases hp

/-- A node at the top has no parent. -/
theorem parentAmong?_of_top {h : Handle} {ns : List Node} (hd : (handlesAll ns).Nodup)
    (ht : h ∈ ns.map handle) : parentAmong? h ns = none := by
  rw [parentAmong?_eq_none_iff]
  intro hm
  have hd' := (handlesAll_perm_top ns).nodup hd
  exact (List.nodup_append.mp hd').2.2 h ht h hm rfl

theorem parentAmong?_eq_some_iff {h p : Handle} {ns : List Node} (hd : (handlesAll ns).Nodup) :
    parentAmong? h ns = some p ↔ ∃ n, findAmong? p ns = some n ∧ h ∈ n.children.map handle := by
  induction ns using forestInduction with
  | nil => simp
  | cons m ns ihc ihs =>
    obtain ⟨hmc, hms, hdc, hds, hcs⟩ := nodup_handlesAll_cons.mp hd
    rw [parentAmong?_cons, parent?_eq, Option.or_eq_some_iff]
    constructor
    · rintro (hin | ⟨-, hs⟩)
      · by_cases ht : h ∈ m.children.map handle
        · rw [if_pos ht, Option.some.injEq] at hin
          exact ⟨m, by simp [find?_eq, hin], ht⟩
        · rw [if_neg ht] at hin
          obtain ⟨n, hn, hh⟩ := (ihc hdc).mp hin
          have hne : m.handle ≠ p := fun he => hmc (he ▸ mem_of_findAmong? hn)
          exact ⟨n, by simp [find?_eq, hne, hn], hh⟩
      · obtain ⟨n, hn, hh⟩ := (ihs hds).mp hs
        have hp := mem_of_findAmong? hn
        have hne : m.handle ≠ p := fun he => hms (he ▸ hp)
        have hnc : findAmong? p m.children = none := findAmong?_eq_none_iff.mpr fun hc => hcs p hc hp
        exact ⟨n, by simp [find?_eq, hne, hnc, hn], hh⟩
    · rintro ⟨n, hn, hh⟩
      rw [findAmong?_cons, find?_eq, Option.or_eq_some_iff] at hn
      by_cases hm : m.handle = p
      · rw [if_pos hm] at hn
        obtain hn | ⟨hn, -⟩ := hn
        · cases hn
          exact Or.inl (by rw [if_pos hh, hm])
        · cases hn
      · rw [if_neg hm] at hn
        obtain hc | ⟨-, hs⟩ := hn
        · have hp := (ihc hdc).mpr ⟨n, hc, hh⟩
          have ht : h ∉ m.children.map handle := by
            intro ht
            rw [parentAmong?_of_top hdc ht] at hp
            cases hp
          exact Or.inl (by rw [if_neg ht, hp])
        · have hp := (ihs hds).mpr ⟨n, hs, hh⟩
          have hin : h ∈ handlesAll ns :=
            mem_handlesAll_iff_top.mpr (Or.inr (mem_of_parentAmong? hp))
          have hc : h ∉ handlesAll m.children := fun hc => hcs h hc hin
          rw [mem_handlesAll_iff_top, not_or] at hc
          exact Or.inr ⟨by rw [if_neg hc.1, parentAmong?_eq_none_iff.mpr hc.2], hp⟩

/-! ### Lineages -/

theorem lineageAmong?_eq_none_iff {h : Handle} {ns : List Node} :
    lineageAmong? h ns = none ↔ h ∉ handlesAll ns := by
  induction ns using forestInduction with
  | nil => simp
  | cons n ns ihc ihs =>
    simp only [lineageAmong?_cons, lineage?_eq, handlesAll_cons, handles_eq, Option.or_eq_none_iff, ihs]
    by_cases hn : n.handle = h
    · simp [hn]
    · simp [hn, ihc, Ne.symm hn]

theorem mem_of_lineageAmong? {h : Handle} {ns : List Node} {l : List Handle}
    (hl : lineageAmong? h ns = some l) : h ∈ handlesAll ns := by
  apply Classical.byContradiction
  intro hm
  rw [lineageAmong?_eq_none_iff.mpr hm] at hl
  cases hl

/-- A lineage begins with the node itself. -/
theorem exists_eq_cons_of_lineageAmong? {h : Handle} {ns : List Node} {l : List Handle}
    (hl : lineageAmong? h ns = some l) : ∃ above, l = h :: above := by
  induction ns using forestInduction generalizing l with
  | nil => simp at hl
  | cons n ns ihc ihs =>
    rw [lineageAmong?_cons, lineage?_eq, Option.or_eq_some_iff] at hl
    rcases hl with hl | ⟨-, hl⟩
    · split at hl
      · exact ⟨[], (Option.some.inj hl).symm⟩
      · obtain ⟨inner, hinner, rfl⟩ := Option.map_eq_some_iff.1 hl
        obtain ⟨above, rfl⟩ := ihc hinner
        exact ⟨above ++ [n.handle], rfl⟩
    · exact ihs hl

/-- The lineage of a node is the node followed by its parent's lineage. -/
theorem lineageAmong?_eq {h : Handle} {ns : List Node} (hd : (handlesAll ns).Nodup)
    (hm : h ∈ handlesAll ns) :
    lineageAmong? h ns =
      match parentAmong? h ns with
      | none => some [h]
      | some p => (lineageAmong? p ns).map (h :: ·) := by
  induction ns using forestInduction with
  | nil => simp at hm
  | cons m ns ihc ihs =>
    obtain ⟨hmc, hms, hdc, hds, hcs⟩ := nodup_handlesAll_cons.mp hd
    rw [handlesAll_cons, handles_eq, List.cons_append, List.mem_cons, List.mem_append] at hm
    rw [lineageAmong?_cons, lineage?_eq]
    -- the node is the first one, or stands below it, or below one of the others
    obtain rfl | hc | hs := hm
    · rw [if_pos rfl, parentAmong?_of_top hd (by simp)]
      rfl
    · have hne : m.handle ≠ h := fun he => hmc (he ▸ hc)
      rw [if_neg hne, parentAmong?_cons, parent?_eq, ihc hdc hc]
      by_cases ht : h ∈ m.children.map handle
      · rw [if_pos ht, parentAmong?_of_top hdc ht]
        simp [lineage?_eq]
      · have hin : h ∈ handlesAll (m.children.flatMap children) :=
          (mem_handlesAll_iff_top.mp hc).resolve_left ht
        rw [if_neg ht]
        cases hp : parentAmong? h m.children with
        | none => exact absurd hin (parentAmong?_eq_none_iff.mp hp)
        | some p =>
          obtain ⟨n, hn, -⟩ := (parentAmong?_eq_some_iff hdc).mp hp
          have hpm := mem_of_findAmong? hn
          have hne : m.handle ≠ p := fun he => hmc (he ▸ hpm)
          cases hl : lineageAmong? p m.children with
          | none => exact absurd hpm (lineageAmong?_eq_none_iff.mp hl)
          | some l => simp [lineage?_eq, hne, hl]
    · have hne : m.handle ≠ h := fun he => hms (he ▸ hs)
      have hnc : h ∉ handlesAll m.children := fun hc => hcs h hc hs
      have hnp : m.parent? h = none := by
        have hnc := hnc
        rw [mem_handlesAll_iff_top, not_or] at hnc
        rw [parent?_eq, if_neg hnc.1, parentAmong?_eq_none_iff.mpr hnc.2]
      rw [if_neg hne, lineageAmong?_eq_none_iff.mpr hnc, parentAmong?_cons, hnp, Option.map_none,
        Option.none_or, Option.none_or, ihs hds hs]
      cases hp : parentAmong? h ns with
      | none => rfl
      | some p =>
        obtain ⟨n, hn, -⟩ := (parentAmong?_eq_some_iff hds).mp hp
        have hpm := mem_of_findAmong? hn
        have hne : m.handle ≠ p := fun he => hms (he ▸ hpm)
        have hnc : p ∉ handlesAll m.children := fun hc => hcs p hc hpm
        simp [lineage?_eq, hne, lineageAmong?_eq_none_iff.mpr hnc]

end Node

/-! ### The views agree -/

/-- The node that is reached by going from a node to its parent a number of times. -/
def ancestor? (t : Tree) : Nat → Handle → Option Handle
  | 0, h => some h
  | k + 1, h => (t.parent? h).bind (t.ancestor? k)

/-- All views of a tree agree with each other. -/
structure WellFormed (t : Tree) : Prop where
  child_live : ∀ h cs, t.children h = .ok cs → ∀ c ∈ cs, t.contains c = true
  child_once : ∀ h cs, t.children h = .ok cs → ∀ c ∈ cs, cs.count c = 1
  child_parent : ∀ h cs, t.children h = .ok cs → ∀ c ∈ cs, t.parent? c = some h
  parent_child : ∀ h p, t.contains h = true → t.parent? h = some p →
    t.contains p = true ∧ ∃ cs, t.children p = .ok cs ∧ h ∈ cs
  climb : ∀ h, t.contains h = true →
    ∃ k top, t.ancestor? k h = some top ∧ t.contains top = true ∧ t.parent? top = none
  text_leaf : ∀ h, t.isText h = true → t.children h = .ok []
  /-- A slot is used by one node at most. -/
  slot_once : ∀ h h', t.contains h = true → t.contains h' = true → h.slot = h'.slot → h = h'
  slot_made : ∀ h, t.contains h = true → h.slot < t.pool.slots
  free_once : (t.pool.free.map Handle.slot).Nodup
  free_iff : ∀ i, i ∈ t.pool.free.map Handle.slot ↔
    i < t.pool.slots ∧ ∀ h, t.contains h = true → h.slot ≠ i

theorem contains_iff {t : Tree} {h : Handle} :
    t.contains h = true ↔ h ∈ Node.handlesAll t.nodes := by
  unfold contains find?
  rw [Option.isSome_iff_exists]
  exact ⟨fun ⟨_, hn⟩ => Node.mem_of_findAmong? hn, Node.exists_findAmong?_of_mem⟩

theorem children_eq_ok_iff {t : Tree} {h : Handle} {cs : List Handle} :
    t.children h = .ok cs ↔ ∃ n, t.find? h = some n ∧ n.children.map Node.handle = cs := by
  simp only [children, bind_eq_ok_iff, node_eq_ok_iff, pure, Except.pure, Except.ok.injEq]

theorem exists_lineage_eq_cons (t : Tree) (h : Handle) : ∃ above, t.lineage h = h :: above := by
  unfold lineage
  cases hl : Node.lineageAmong? h t.nodes with
  | none => exact ⟨[], rfl⟩
  | some l => exact Node.exists_eq_cons_of_lineageAmong? hl

/-- The handles from a node up to the top, one parent after the other. -/
inductive Climbs (t : Tree) : Handle → List Handle → Prop
  | top {h : Handle} (hp : t.parent? h = none) : Climbs t h [h]
  | up {h p : Handle} {path : List Handle} (hp : t.parent? h = some p) (hpath : Climbs t p path) :
    Climbs t h (h :: path)

namespace Sound

variable {t : Tree}

theorem parent?_iff (ht : t.Sound) {h p : Handle} :
    t.parent? h = some p ↔ ∃ cs, t.children p = .ok cs ∧ h ∈ cs := by
  unfold parent?
  rw [Node.parentAmong?_eq_some_iff ht.nodup]
  constructor
  · rintro ⟨n, hn, hh⟩
    exact ⟨_, children_eq_ok_iff.mpr ⟨n, hn, rfl⟩, hh⟩
  · rintro ⟨cs, hcs, hh⟩
    obtain ⟨n, hn, rfl⟩ := children_eq_ok_iff.mp hcs
    exact ⟨n, hn, hh⟩

/-- What a node has as its children stands below it. -/
theorem children_sublist {n : Node} {h : Handle} (hn : t.find? h = some n) :
    (n.children.map Node.handle).Sublist (Node.handlesAll t.nodes) := by
  have htop : ∀ ns : List Node, (ns.map Node.handle).Sublist (Node.handlesAll ns) := by
    intro ns
    induction ns with
    | nil => simp
    | cons n ns ih =>
      rw [List.map_cons, Node.handlesAll_cons, Node.handles_eq]
      exact (ih.trans (List.sublist_append_right ..)).cons_cons _
  have hin := Node.handles_sublist_of_findAmong? hn
  rw [Node.handles_eq] at hin
  exact ((htop n.children).trans (List.sublist_cons_self ..)).trans hin

/-- A lineage is the way up, also for a handle that is not live: it is the only one on its way. -/
theorem climbs_lineage (ht : t.Sound) (h : Handle) : t.Climbs h (t.lineage h) := by
  have hlive : ∀ {path : List Handle} {h : Handle}, Node.lineageAmong? h t.nodes = some path → t.Climbs h path := by
    intro path
    induction path with
    | nil =>
      intro h hl
      obtain ⟨above, habove⟩ := Node.exists_eq_cons_of_lineageAmong? hl
      cases habove
    | cons x path ih =>
      intro h hl
      rw [Node.lineageAmong?_eq ht.nodup (Node.mem_of_lineageAmong? hl)] at hl
      cases hp : Node.parentAmong? h t.nodes with
      | none =>
        simp only [hp, Option.some.injEq] at hl
        exact hl ▸ .top hp
      | some p =>
        simp only [hp, Option.map_eq_some_iff, List.cons.injEq] at hl
        obtain ⟨path', hl', rfl, rfl⟩ := hl
        exact .up hp (ih hl')
  unfold lineage
  cases hl : Node.lineageAmong? h t.nodes with
  | none =>
    apply Climbs.top
    apply Node.parentAmong?_eq_none_iff.mpr
    intro hbelow
    exact Node.lineageAmong?_eq_none_iff.mp hl (Node.mem_handlesAll_iff_top.mpr (.inr hbelow))
  | some path => exact hlive hl

/-- The way up leads to a live node without a parent. -/
theorem exists_top (ht : t.Sound) {h : Handle} {path : List Handle} (hc : t.Climbs h path)
    (hh : t.contains h = true) :
    ∃ k top, t.ancestor? k h = some top ∧ t.contains top = true ∧ t.parent? top = none := by
  induction hc with
  | @top h hp => exact ⟨0, h, rfl, hh, hp⟩
  | up hp _ ih =>
    obtain ⟨cs, hcs, -⟩ := ht.parent?_iff.mp hp
    obtain ⟨n, hn, -⟩ := children_eq_ok_iff.mp hcs
    obtain ⟨k, top, hk, hlive, htop⟩ := ih (contains_iff.mpr (Node.mem_of_findAmong? hn))
    exact ⟨k + 1, top, by rw [ancestor?, hp, Option.bind_some, hk], hlive, htop⟩

/-- A slot of a live node is used by no other node and does not wait in the pool. -/
theorem slot_count (ht : t.Sound) {h : Handle} (hh : t.contains h = true) :
    h.slot < t.pool.slots ∧ (Node.handlesAll t.nodes).countP (·.slot = h.slot) = 1 ∧
      t.pool.free.countP (·.slot = h.slot) = 0 := by
  have hs := ht h.slot
  have hpos : 0 < (Node.handlesAll t.nodes).countP (·.slot = h.slot) :=
    List.countP_pos_iff.mpr ⟨h, contains_iff.mp hh, by simp⟩
  split at hs
  · exact ⟨by assumption, by omega, by omega⟩
  · omega

theorem slot_injective (ht : t.Sound) {h h' : Handle} (hh : t.contains h = true)
    (hh' : t.contains h' = true) (hs : h.slot = h'.slot) : h = h' := by
  have hone := (ht.slot_count hh).2.1
  rw [List.countP_eq_length_filter, List.length_eq_one_iff] at hone
  obtain ⟨x, hx⟩ := hone
  have hin : ∀ y, t.contains y = true → y.slot = h.slot → y = x := by
    intro y hy hys
    have hmem : y ∈ (Node.handlesAll t.nodes).filter (·.slot = h.slot) :=
      List.mem_filter.mpr ⟨contains_iff.mp hy, by simp [hys]⟩
    simpa [hx] using hmem
  rw [hin h hh rfl, hin h' hh' hs.symm]

theorem wellFormed (ht : t.Sound) : t.WellFormed where
  child_live h cs hcs c hc := by
    obtain ⟨n, hn, rfl⟩ := children_eq_ok_iff.mp hcs
    exact contains_iff.mpr ((children_sublist hn).subset hc)
  child_once h cs hcs c hc := by
    obtain ⟨n, hn, rfl⟩ := children_eq_ok_iff.mp hcs
    have hd := (children_sublist hn).nodup ht.nodup
    have hle := List.nodup_iff_count.mp hd c
    have hpos := List.count_pos_iff.mpr hc
    omega
  child_parent h cs hcs c hc := ht.parent?_iff.mpr ⟨cs, hcs, hc⟩
  parent_child h p _ hp := by
    obtain ⟨cs, hcs, hh⟩ := ht.parent?_iff.mp hp
    obtain ⟨n, hn, -⟩ := children_eq_ok_iff.mp hcs
    exact ⟨contains_iff.mpr (Node.mem_of_findAmong? hn), cs, hcs, hh⟩
  climb h hh := ht.exists_top (ht.climbs_lineage h) hh
  text_leaf h hh := by
    unfold isText at hh
    cases hn : t.find? h with
    | none => simp [hn] at hh
    | some n =>
      refine children_eq_ok_iff.mpr ⟨n, hn, ?_⟩
      cases n with
      | element => simp [hn, Node.isText] at hh
      | text => rfl
  slot_once h h' hh hh' := ht.slot_injective hh hh'
  slot_made h hh := (ht.slot_count hh).1
  free_once := by
    rw [List.nodup_iff_count]
    intro i
    have hi := ht i
    have hc : (t.pool.free.map Handle.slot).count i = t.pool.free.countP (·.slot = i) := by
      rw [List.count, List.countP_map]
      rfl
    rw [hc]
    split at hi <;> omega
  free_iff i := by
    have hi := ht i
    have hfree : i ∈ t.pool.free.map Handle.slot ↔ 0 < t.pool.free.countP (·.slot = i) := by
      rw [List.countP_pos_iff, List.mem_map]
      simp
    have hused : (∀ h, t.contains h = true → h.slot ≠ i) ↔
        (Node.handlesAll t.nodes).countP (·.slot = i) = 0 := by
      simp [List.countP_eq_zero, contains_iff]
    rw [hfree, hused]
    split at hi <;> omega

end Sound

/-! ### Sequences of operations -/

/-- An operation that may change a tree, with the handles and texts it is called with. -/
inductive Edit where
  | createElement (tag : String)
  | createText (content : String)
  | parse (source : String)
  | append (parent child : Handle)
  | setAttribute (node : Handle) (name value : String)
  | removeAttribute (node : Handle) (name : String)
  | setText (node : Handle) (content : String)
  | clear (node : Handle)
  | release (node : Handle)
  | addEvent (node : Handle) (event : String)
  | setInput (node : Handle) (value : String)
  | setChecked (node : Handle) (on : Bool)
deriving DecidableEq, Repr

/-- The tree after a call that may have failed. -/
def after (t : Tree) : Except Fault Tree → Tree
  | .ok t' => t'
  | .error _ => t

def edit (t : Tree) : Edit → Tree
  | .createElement tag => (t.createElement tag).2
  | .createText content => (t.createText content).2
  | .parse source => (t.parse source).2
  | .append parent child => t.after (t.append parent child)
  | .setAttribute node name value => t.after (t.setAttribute node name value)
  | .removeAttribute node name => t.after (t.removeAttribute node name)
  | .setText node content => t.after (t.setText node content)
  | .clear node => t.after (t.clear node)
  | .release node => t.release node
  | .addEvent node event => t.after (t.addEvent node event)
  | .setInput node value => t.after (t.setInput node value)
  | .setChecked node on => t.after (t.setChecked node on)

def edits (t : Tree) (es : List Edit) : Tree := es.foldl edit t

namespace Sound

variable {t : Tree}

theorem after (ht : t.Sound) {x : Except Fault Tree} (hx : ∀ t', x = .ok t' → t'.Sound) :
    (t.after x).Sound := by
  cases x with
  | ok t' => exact hx t' rfl
  | error => exact ht

theorem edit (ht : t.Sound) (e : Edit) : (t.edit e).Sound := by
  cases e with
  | createElement tag => exact ht.createElement tag
  | createText content => exact ht.createText content
  | parse source => exact ht.parse source
  | append parent child => exact ht.after fun _ => ht.append
  | setAttribute node name value => exact ht.after fun _ => ht.setAttributes
  | removeAttribute node name => exact ht.after fun _ => ht.setAttributes
  | setText node content => exact ht.after fun _ => ht.setText
  | clear node => exact ht.after fun _ => ht.clear
  | release node => exact ht.release node
  | addEvent node event => exact ht.after fun _ => ht.addEvent
  | setInput node value => exact ht.after fun _ => ht.setInput
  | setChecked node on => exact ht.after fun _ => ht.setChecked

theorem edits (ht : t.Sound) (es : List Edit) : (t.edits es).Sound := by
  induction es generalizing t with
  | nil => exact ht
  | cons e es ih => exact ih (ht.edit e)

end Sound

end Trellis.Tree
