import Trellis.Proofs.Tree.Growth

/-!
# How long the root lasts

The root's handle cannot be released, but the root can be moved like any other node. As long as every attempt to
append it to another node is refused, it stands at the top as the element that it was made as, and the tree is never
empty. The first such attempt that succeeds gives the root a parent, with which it can be freed.
-/
namespace Trellis.Tree

namespace Node

theorem updateAmong_eq_map (h : Handle) (f : Node → Node) (ns : List Node) :
    updateAmong h f ns = ns.map (update h f) := by
  induction ns with
  | nil => simp
  | cons n ns ih => rw [updateAmong_cons, ih, List.map_cons]

theorem mem_removeAmong {h : Handle} {n : Node} {ns : List Node} (hn : n ∈ ns) (hne : n.handle ≠ h) :
    n.remove h ∈ removeAmong h ns := by
  induction ns with
  | nil => cases hn
  | cons m ns ih =>
    rw [removeAmong_cons]
    rcases List.mem_cons.1 hn with rfl | hn
    · rw [if_neg hne]
      exact List.mem_cons_self
    · split
      · exact ih hn
      · exact List.mem_cons_of_mem _ (ih hn)

@[simp] theorem tag?_setChildren (f : List Node → List Node) (n : Node) : (n.setChildren f).tag? = n.tag? := by
  cases n <;> rfl

@[simp] theorem tag?_setAttributes (f : Attributes → Attributes) (n : Node) : (n.setAttributes f).tag? = n.tag? := by
  cases n <;> rfl

@[simp] theorem tag?_setContent (content : String) (n : Node) : (n.setContent content).tag? = n.tag? := by
  cases n <;> rfl

@[simp] theorem tag?_addEvent (event : String) (n : Node) : (n.addEvent event).tag? = n.tag? := by
  cases n <;> rfl

end Node

/-! ### The root at the top -/

/-- Among the nodes at the top is the root, as the element that it was made as. -/
def Intact (ns : List Node) : Prop := ∃ n ∈ ns, n.handle = .root ∧ n.tag? = some "div"

namespace Intact

variable {ns : List Node}

theorem append_left (hi : Intact ns) (ms : List Node) : Intact (ms ++ ns) := by
  obtain ⟨n, hn, hroot⟩ := hi
  exact ⟨n, List.mem_append_right _ hn, hroot⟩

theorem update (hi : Intact ns) {h : Handle} {f : Node → Node} (hh : ∀ n, (f n).handle = n.handle)
    (ht : ∀ n, (f n).tag? = n.tag?) : Intact (Node.updateAmong h f ns) := by
  obtain ⟨n, hn, hroot, htag⟩ := hi
  rw [Node.updateAmong_eq_map]
  refine ⟨n.update h f, List.mem_map_of_mem hn, ?_⟩
  rw [Node.update_eq]
  split
  · exact ⟨(hh n).trans hroot, (ht n).trans htag⟩
  · exact ⟨(Node.handle_setChildren _ n).trans hroot, (Node.tag?_setChildren _ n).trans htag⟩

theorem remove (hi : Intact ns) {h : Handle} (hne : h ≠ .root) : Intact (Node.removeAmong h ns) := by
  obtain ⟨n, hn, hroot, htag⟩ := hi
  refine ⟨n.remove h, Node.mem_removeAmong hn fun he => hne (he.symm.trans hroot), ?_⟩
  rw [Node.remove_eq]
  exact ⟨(Node.handle_setChildren _ n).trans hroot, (Node.tag?_setChildren _ n).trans htag⟩

end Intact

section

variable {t t' : Tree}

/-- Appending any other node leaves the root where it is. -/
theorem Intact.append (hi : Intact t.nodes) {parent child : Handle} (hne : child ≠ .root)
    (ha : t.append parent child = .ok t') : Intact t'.nodes := by
  obtain ⟨p, -, -, c, -, -, rfl⟩ := append_eq_ok_iff.1 ha
  exact (hi.remove hne).update (Node.handle_setChildren _) (Node.tag?_setChildren _)

theorem Intact.setAttributes (hi : Intact t.nodes) {h : Handle} {f : Attributes → Attributes}
    (hs : t.setAttributes h f = .ok t') : Intact t'.nodes := by
  obtain ⟨n, -, -, rfl⟩ := setAttributes_eq_ok_iff.1 hs
  exact hi.update (Node.handle_setAttributes f) (Node.tag?_setAttributes f)

theorem Intact.setChecked (hi : Intact t.nodes) {h : Handle} {on : Bool} (hs : t.setChecked h on = .ok t') :
    Intact t'.nodes := by
  unfold Tree.setChecked at hs
  split at hs
  · exact hi.setAttributes hs
  · exact hi.setAttributes hs

theorem Intact.clear (hi : Intact t.nodes) {h : Handle} (hc : t.clear h = .ok t') : Intact t'.nodes := by
  obtain ⟨n, -, rfl⟩ := clear_eq_ok_iff.1 hc
  exact hi.update (Node.handle_setChildren _) (Node.tag?_setChildren _)

theorem Intact.setText (ht : t.Sound) (hi : Intact t.nodes) {h : Handle} {content : String}
    (hs : t.setText h content = .ok t') : Intact t'.nodes := by
  obtain ⟨n, -, hs⟩ := setText_eq_ok_iff.1 hs
  split at hs
  · subst hs
    exact hi.update (Node.handle_setContent content) (Node.tag?_setContent content)
  · obtain ⟨cleared, hc, ha⟩ := hs
    have hi' : Intact cleared.nodes := hi.clear hc
    -- the new text is not the root, which is there already
    refine (hi'.append_left [_]).append (fun hroot => ?_) ha
    have hd := ((ht.clear hc).createText content).nodup
    obtain ⟨n, hn, hnroot, -⟩ := hi'
    refine (Node.nodup_handlesAll_cons.1 hd).2.1 (Node.mem_handlesAll_iff_top.2 (.inl ?_))
    exact List.mem_map.2 ⟨n, hn, hnroot.trans hroot.symm⟩

theorem Intact.after (hi : Intact t.nodes) {x : Except Fault Tree} (hx : ∀ t', x = .ok t' → Intact t'.nodes) :
    Intact (t.after x).nodes := by
  cases x with
  | ok t' => exact hx t' rfl
  | error => exact hi

/-- Every operation leaves the root where it is, unless it appends the root to another node. -/
theorem Intact.edit (ht : t.Sound) (hi : Intact t.nodes) {x : Edit}
    (hx : ∀ parent t', x = .append parent .root → t.append parent .root ≠ .ok t') : Intact (t.edit x).nodes := by
  cases x with
  | createElement tag => exact hi.append_left [_]
  | createText content => exact hi.append_left [_]
  | parse source => exact hi.append_left _
  | append parent child =>
    refine hi.after fun t' ha => ?_
    by_cases hroot : child = .root
    · subst hroot
      exact absurd ha (hx parent t' rfl)
    · exact hi.append hroot ha
  | setAttribute node name value => exact hi.after fun _ => hi.setAttributes
  | removeAttribute node name => exact hi.after fun _ => hi.setAttributes
  | setText node content => exact hi.after fun _ => Intact.setText ht hi
  | clear node => exact hi.after fun _ => hi.clear
  | release node =>
    change Intact (t.release node).nodes
    unfold Tree.release
    split
    · exact hi
    · next hne =>
      split
      · exact hi
      · exact hi.remove hne
  | addEvent node event =>
    refine hi.after fun t' ha => ?_
    obtain ⟨n, -, rfl⟩ := addEvent_eq_ok_iff.1 ha
    exact hi.update (Node.handle_addEvent event) (Node.tag?_addEvent event)
  | setInput node value =>
    refine hi.after fun t' hs => ?_
    unfold Tree.setInput at hs
    split at hs
    · exact hi.setChecked hs
    · exact hi.setAttributes hs
  | setChecked node on => exact hi.after fun _ => hi.setChecked

/-- The root stays where it is through every sequence of operations in which no attempt to append it succeeds. -/
theorem Intact.edits (ht : t.Sound) (hi : Intact t.nodes) {xs : List Edit}
    (hx : ∀ ys parent, ys ++ [.append parent .root] <+: xs → ∃ fault, (t.edits ys).append parent .root = .error fault) :
    Intact (t.edits xs).nodes := by
  induction xs generalizing t with
  | nil => exact hi
  | cons x xs ih =>
    refine ih (ht.edit x) (hi.edit ht fun parent t' he ha => ?_) fun ys parent hp => ?_
    · subst he
      obtain ⟨fault, hfault⟩ := hx [] parent (List.cons_prefix_cons.2 ⟨rfl, List.nil_prefix⟩)
      cases ha.symm.trans hfault
    · exact hx (x :: ys) parent (List.cons_prefix_cons.2 ⟨rfl, hp⟩)

/-- A node that has been appended has a parent. -/
theorem Sound.parent?_append (ht : t.Sound) {parent child : Handle} (ha : t.append parent child = .ok t') :
    t'.parent? child = some parent := by
  obtain ⟨p, hp, hpt, c, hc, hpc, rfl⟩ := append_eq_ok_iff.1 ha
  refine (ht.append ha).parent?_iff.2 ⟨_, children_eq_ok_iff.2 ⟨(p.remove child).setChildren (· ++ [c]), ?_, rfl⟩, ?_⟩
  · exact (Node.findAmong?_updateAmong_self (Node.handle_setChildren _) _).trans
      (congrArg _ (ht.find?_removed hp hc hpc))
  · rw [Node.children_setChildren_of_isText_false (by simpa using hpt), List.map_append, List.mem_append]
    exact .inr (List.mem_singleton.2 (Node.handle_of_findAmong? hc).symm)

/-! ### What a user of the tree sees of it -/

/-- The root is live, it is the element that it was made as, and no node holds it; so the tree is not empty, and
nor is the root's markup. -/
structure Permanent (t : Tree) : Prop where
  live : t.contains .root = true
  element : t.tag? .root = some "div"
  top : t.parent? .root = none
  markup : t.markup .root ≠ ""
  nonempty : t.isEmpty = false

theorem Intact.permanent (ht : t.Sound) (hi : Intact t.nodes) : t.Permanent := by
  obtain ⟨n, hn, hroot, htag⟩ := hi
  have hmem : Handle.root ∈ t.nodes.map Node.handle := List.mem_map.2 ⟨n, hn, hroot⟩
  have hfind : t.find? .root = some n := by
    obtain ⟨pre, post, hnodes⟩ := List.append_of_mem hn
    have hd := ht.nodup
    rw [hnodes] at hd
    rw [find?, hnodes, ← hroot]
    exact Node.findAmong?_middle hd
  have hlive : t.contains .root = true := by rw [contains, hfind, Option.isSome_some]
  refine ⟨hlive, ?_, Node.parentAmong?_of_top ht.nodup hmem, ?_, ?_⟩
  · rw [tag?, hfind, Option.bind_some, htag]
  · rw [markup, hfind]
    cases n with
    | text => cases htag
    | element => simp [Node.toMarkup, Markup.write, Markup.writeOpening]
  · have hpos : t.size ≠ 0 := Nat.ne_of_gt (List.length_pos_of_mem (contains_iff.1 hlive))
    simpa [isEmpty] using hpos

end

/-- All through a sequence of operations on a new tree, with whatever handles, the root is permanent, exactly if every
attempt to append it to another node is refused. -/
theorem root_permanent_iff (xs : List Edit) :
    (∀ ys, ys <+: xs → (new.edits ys).Permanent) ↔
      ∀ ys parent, ys ++ [.append parent .root] <+: xs →
        ∃ fault, (new.edits ys).append parent .root = .error fault := by
  constructor
  · intro hperm ys parent hp
    cases ha : (new.edits ys).append parent .root with
    | error fault => exact ⟨fault, rfl⟩
    | ok t' =>
      have hafter : new.edits (ys ++ [.append parent .root]) = t' := by
        rw [edits, List.foldl_append]
        change ((new.edits ys).edit (.append parent .root)) = t'
        rw [edit, ha, after]
      have htop := (hperm _ hp).top
      rw [hafter, (sound_new.edits ys).parent?_append ha] at htop
      cases htop
  · intro hrefused ys hp
    have hroot : Intact new.nodes := ⟨_, List.mem_cons_self, rfl, rfl⟩
    have hi := hroot.edits sound_new fun zs parent hz => hrefused zs parent (hz.trans hp)
    exact hi.permanent (sound_new.edits ys)

/-- The root is put into a paragraph and released with it: the tree is empty then. -/
theorem root_freed_with_parent :
    (new.edits [.createElement "p", .append ⟨1, 0⟩ .root]).parent? .root = some ⟨1, 0⟩ ∧
      (new.edits [.createElement "p", .append ⟨1, 0⟩ .root, .release ⟨1, 0⟩]).contains .root = false ∧
      (new.edits [.createElement "p", .append ⟨1, 0⟩ .root, .release ⟨1, 0⟩]).markup .root = "" ∧
      (new.edits [.createElement "p", .append ⟨1, 0⟩ .root, .release ⟨1, 0⟩]).isEmpty = true := by
  decide +kernel

end Trellis.Tree
