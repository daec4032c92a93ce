import Trellis.Proofs.Tree.Growth

/-!
# Changes within one node

`Within h t t'` says that `t'` is `t` with another node in place of the node of `h`. All that stands outside that
node is as before, and nothing has been left at the top. `Inside h t t'` says the same, but for nodes that have
stayed behind at the top because they were given the handle of the root. As long as the root itself stands at the
top, no new node can have been given its handle. A tree that grows at a node changes inside it, and what is live
after a change inside a node stood outside the node before or stands below it now.
-/
namespace Trellis.Tree

namespace Attributes

@[simp] theorem get?_nil (name : String) : get? [] name = none := rfl

@[simp] theorem get?_cons (p : String × String) (l : Attributes) (name : String) :
    get? (p :: l) name = if p.1 = name then some p.2 else get? l name := by
  by_cases hp : p.1 = name <;> simp [get?, hp]

theorem get?_set (name value other : String) (l : Attributes) :
    (l.set name value).get? other = if name = other then some value else l.get? other := by
  induction l with
  | nil => simp [set]
  | cons p l ih =>
    unfold set
    split
    · simp
    · split
      · next hn =>
        subst hn
        by_cases ho : p.1 = other <;> simp [ho]
      · next hn =>
        by_cases ho : p.1 = other
        · simp [ho, show name ≠ other from fun h => hn (h.trans ho.symm)]
        · simp [ho, ih]

theorem get?_erase (name other : String) (l : Attributes) :
    (l.erase name).get? other = if name = other then none else l.get? other := by
  induction l with
  | nil => simp [erase]
  | cons p l ih =>
    by_cases hp : p.1 = name
    · have he : erase name (p :: l) = erase name l := by simp [erase, hp]
      rw [he, ih, get?_cons, hp]
      split <;> rfl
    · have he : erase name (p :: l) = p :: erase name l := by simp [erase, hp]
      rw [he, get?_cons, get?_cons, ih]
      by_cases ho : p.1 = other
      · simp [ho, show name ≠ other from fun h => hp (ho.trans h.symm)]
      · simp [ho]

end Attributes

namespace Node

/-- Changing a node keeps the handles at the top. -/
theorem map_handle_updateAmong {h : Handle} {f : Node → Node} (hf : ∀ n, (f n).handle = n.handle)
    (ns : List Node) : (updateAmong h f ns).map handle = ns.map handle := by
  induction ns with
  | nil => simp
  | cons n ns ih =>
    rw [updateAmong_cons, List.map_cons, List.map_cons, ih, update_eq]
    split
    · rw [hf]
    · rw [handle_setChildren]

end Node

/-- Only the node of a handle has changed. -/
structure Within (h : Handle) (t t' : Tree) : Prop where
  sound : t'.Sound
  nodes : ∃ f : Node → Node, (∀ n, (f n).handle = n.handle) ∧ t'.nodes = Node.updateAmong h f t.nodes

/-- The root stands at the top: no other node holds it. -/
def Rooted (t : Tree) : Prop := .root ∈ t.nodes.map Node.handle

/-- A node holds another, directly or through others. -/
def Below (t : Tree) (h x : Handle) : Prop := ∃ n, t.find? h = some n ∧ x ∈ Node.handlesAll n.children

section

variable {t t' t'' : Tree} {h : Handle} {n : Node}

namespace Within

theorem refl (ht : t.Sound) (h : Handle) : Within h t t :=
  ⟨ht, id, fun _ => rfl, (Node.updateAmong_eq_self (fun _ => rfl) _).symm⟩

theorem trans (ha : Within h t t') (hb : Within h t' t'') : Within h t t'' := by
  obtain ⟨f, hf, hnodes⟩ := ha.nodes
  obtain ⟨g, hg, hnodes'⟩ := hb.nodes
  refine ⟨hb.sound, g ∘ f, fun n => (hg _).trans (hf n), ?_⟩
  rw [hnodes', hnodes, Node.updateAmong_updateAmong g hf]

theorem rooted (hw : Within h t t') (hr : t.Rooted) : t'.Rooted := by
  obtain ⟨f, hf, hnodes⟩ := hw.nodes
  rw [Rooted, hnodes, Node.map_handle_updateAmong hf]
  exact hr

/-- A node is changed in place. -/
theorem update {f : Node → Node} {pool : Pool} (hf : ∀ n, (f n).handle = n.handle)
    (hs : Sound ⟨Node.updateAmong h f t.nodes, pool⟩) : Within h t ⟨Node.updateAmong h f t.nodes, pool⟩ :=
  ⟨hs, f, hf, rfl⟩

end Within

/-! ### Nodes that could not be released -/

/-- Only the node of a handle has changed, and the only nodes left at the top are some with the handle of the root. -/
structure Inside (h : Handle) (t t' : Tree) : Prop where
  sound : t'.Sound
  nodes : ∃ (stray : List Node) (f : Node → Node), (∀ x ∈ stray, x.handle = .root) ∧
    (∀ n, (f n).handle = n.handle) ∧ t'.nodes = stray ++ Node.updateAmong h f t.nodes

theorem Within.inside (hw : Within h t t') : Inside h t t' := by
  obtain ⟨f, hf, hnodes⟩ := hw.nodes
  exact ⟨hw.sound, [], f, by simp, hf, hnodes⟩

theorem Grown.inside {ns : List Node} {events : List String} (hg : Grown h t t' ns events) : Inside h t t' := by
  obtain ⟨stray, hstray, hnodes⟩ := hg.nodes
  exact ⟨hg.sound, stray, .extend ns events, hstray, Node.handle_extend ns events, hnodes⟩

namespace Inside

theorem refl (ht : t.Sound) (h : Handle) : Inside h t t := (Within.refl ht h).inside

/-- The node that has changed is not among those left at the top. -/
theorem find? (hi : Inside h t t') (hn : t.find? h = some n) :
    ∃ (stray : List Node) (f : Node → Node), (∀ x ∈ stray, x.handle = .root) ∧ (∀ n, (f n).handle = n.handle) ∧
      t'.nodes = stray ++ Node.updateAmong h f t.nodes ∧ h ∉ Node.handlesAll stray ∧ t'.find? h = some (f n) := by
  obtain ⟨stray, f, hstray, hf, hnodes⟩ := hi.nodes
  have hfound : Node.findAmong? h (Node.updateAmong h f t.nodes) = some (f n) := by
    rw [Node.findAmong?_updateAmong_self hf]
    exact congrArg (Option.map f) hn
  have hnot := Node.not_mem_before (hnodes ▸ hi.sound.nodup) (Node.mem_of_findAmong? hfound)
  refine ⟨stray, f, hstray, hf, hnodes, hnot, ?_⟩
  rw [Tree.find?, hnodes, Node.findAmong?_append, Node.findAmong?_eq_none_iff.mpr hnot, hfound, Option.none_or]

theorem trans (ha : Inside h t t') (hb : Inside h t' t'') (hn : t.find? h = some n) : Inside h t t'' := by
  obtain ⟨stray, f, hstray, hf, hnodes, hnot, -⟩ := ha.find? hn
  obtain ⟨stray', g, hstray', hg, hnodes'⟩ := hb.nodes
  refine ⟨hb.sound, stray' ++ stray, g ∘ f, ?_, fun n => (hg _).trans (hf n), ?_⟩
  · intro x hx
    cases List.mem_append.1 hx with
    | inl hx => exact hstray' x hx
    | inr hx => exact hstray x hx
  · rw [hnodes', hnodes, Node.updateAmong_append, Node.updateAmong_of_not_mem g hnot,
      Node.updateAmong_updateAmong g hf, List.append_assoc]

/-- At most one node has been left at the top: it is the root, which did not stand there before. -/
theorem stray {x : Handle} (hi : Inside h t t') {stray : List Node} {f : Node → Node}
    (hstray : ∀ y ∈ stray, y.handle = .root) (hf : ∀ n, (f n).handle = n.handle)
    (hnodes : t'.nodes = stray ++ Node.updateAmong h f t.nodes) (hx : x ∈ Node.handlesAll stray) :
    ¬ t.Rooted ∧ t'.Rooted ∧ (x = .root ∨ t'.Below .root x) := by
  cases stray with
  | nil => simp at hx
  | cons y stray =>
    have hy : y.handle = .root := hstray y (by simp)
    have hnodup : (Node.handlesAll ([y] ++ (stray ++ Node.updateAmong h f t.nodes))).Nodup := hnodes ▸ hi.sound.nodup
    have hnot : Handle.root ∉ Node.handlesAll (stray ++ Node.updateAmong h f t.nodes) := fun hmem =>
      Node.not_mem_before hnodup hmem (by simp [Node.handles_eq, hy])
    refine ⟨fun hr => hnot ?_, ?_, ?_⟩
    · rw [Rooted, ← Node.map_handle_updateAmong hf] at hr
      rw [Node.handlesAll_append]
      exact List.mem_append_right _ (Node.mem_handlesAll_iff_top.mpr (.inl hr))
    · rw [Rooted, hnodes]
      simp [hy]
    · cases stray with
      | cons z stray => exact absurd (by simp [Node.handles_eq, hstray z (by simp)]) hnot
      | nil =>
        have hroot : t'.find? .root = some y := by
          rw [Tree.find?, hnodes]
          simp [Node.find?_eq, hy]
        simp only [Node.handlesAll_cons, Node.handlesAll_nil, List.append_nil, Node.handles_eq, hy,
          List.mem_cons] at hx
        exact hx.imp_right fun hx => ⟨y, hroot, hx⟩

/-- While the root stands at the top, nothing is left there. -/
theorem within (hi : Inside h t t') (hr : t.Rooted) : Within h t t' := by
  obtain ⟨stray, f, hstray, hf, hnodes⟩ := hi.nodes
  refine ⟨hi.sound, f, hf, ?_⟩
  cases stray with
  | nil => exact hnodes
  | cons y stray => exact absurd hr (hi.stray (x := y.handle) hstray hf hnodes (by simp [Node.handles_eq])).1

theorem rooted (hi : Inside h t t') (hr : t.Rooted) : t'.Rooted := (hi.within hr).rooted hr

end Inside

theorem Grown.within {ns : List Node} {events : List String} (hg : Grown h t t' ns events) (hr : t.Rooted) :
    Within h t t' := hg.inside.within hr

/-! ### What is live after a change -/

/-- After a change inside a node, what is live stood outside the node before or stands below it now, unless it is the
root or below the root and the root has come to stand at the top. -/
theorem Inside.outside_or_below {x : Handle} (hi : Inside h t t') (ht : t.Sound) (hn : t.find? h = some n)
    (hx : t'.contains x = true) :
    (t.contains x = true ∧ ¬ t.Below h x) ∨ t'.Below h x ∨
      (¬ t.Rooted ∧ t'.Rooted ∧ (x = .root ∨ t'.Below .root x)) := by
  obtain ⟨stray, f, hstray, hf, hnodes, -, hn'⟩ := hi.find? hn
  rw [contains_iff, hnodes, Node.handlesAll_append, List.mem_append] at hx
  cases hx with
  | inl hx => exact .inr (.inr (hi.stray hstray hf hnodes hx))
  | inr hx =>
    by_cases hb : x ∈ Node.handlesAll (f n).children
    · exact .inr (.inl ⟨f n, hn', hb⟩)
    · -- the handles of the changed node are exchanged, so that `x` was there before, and was none of them or is `h`
      have hcount := (Node.handlesAll_updateAmong_perm f ht.nodup hn).count_eq x
      have honce := List.nodup_iff_count.1 ht.nodup x
      have hpos := List.count_pos_iff.2 hx
      simp only [List.count_append, Node.handles_eq, hf, List.count_cons, List.count_eq_zero_of_not_mem hb] at hcount
      refine .inl ⟨contains_iff.2 (List.count_pos_iff.1 ?_), fun hbelow => ?_⟩
      · omega
      · obtain ⟨n', hn'', hx'⟩ := hbelow
        cases hn.symm.trans hn''
        have hpos' := List.count_pos_iff.2 hx'
        omega

theorem clear_of_find (ht : t.Sound) (hn : t.find? h = some n) :
    ∃ t', t.clear h = .ok t' ∧ Within h t t' ∧ t'.find? h = some (n.setChildren fun _ => []) := by
  have hclear := clear_eq_ok_iff.mpr ⟨n, hn, rfl⟩
  refine ⟨_, hclear, .update (Node.handle_setChildren _) (ht.clear hclear), ?_⟩
  exact (Node.findAmong?_updateAmong_self (Node.handle_setChildren _) t.nodes).trans
    (congrArg (Option.map _) hn)

theorem setAttributes_of_find (ht : t.Sound) (hn : t.find? h = some n) (hnt : n.isText = false)
    (f : Attributes → Attributes) :
    ∃ t', t.setAttributes h f = .ok t' ∧ Within h t t' ∧ t'.find? h = some (n.setAttributes f) := by
  have hset : t.setAttributes h f = .ok (t.update h (.setAttributes f)) :=
    setAttributes_eq_ok_iff.mpr ⟨n, hn, hnt, rfl⟩
  refine ⟨_, hset, .update (Node.handle_setAttributes f) (ht.setAttributes hset), ?_⟩
  exact (Node.findAmong?_updateAmong_self (Node.handle_setAttributes f) t.nodes).trans
    (congrArg (Option.map _) hn)

/-- An element is emptied and its attributes are changed twice. -/
theorem exists_reset (ht : t.Sound) (hn : t.find? h = some n) (hnt : n.isText = false)
    (f g : Attributes → Attributes) :
    ∃ t₁ t₂ t₃, t.clear h = .ok t₁ ∧ t₁.setAttributes h f = .ok t₂ ∧ t₂.setAttributes h g = .ok t₃ ∧
      Within h t t₃ ∧ t₃.find? h = some (((n.setChildren fun _ => []).setAttributes f).setAttributes g) := by
  cases n with
  | text => cases hnt
  | element x tag attributes events children =>
    obtain ⟨t₁, hclear, hw₁, hn₁⟩ := clear_of_find ht hn
    obtain ⟨t₂, hset₁, hw₂, hn₂⟩ := setAttributes_of_find hw₁.sound hn₁ rfl f
    obtain ⟨t₃, hset₂, hw₃, hn₃⟩ := setAttributes_of_find hw₂.sound hn₂ rfl g
    exact ⟨t₁, t₂, t₃, hclear, hset₁, hset₂, (hw₁.trans hw₂).trans hw₃, hn₃⟩

end
end Trellis.Tree
