import Trellis.Proofs.Tree.Rows

/-!
# Looking for an attribute

A tree is searched, from the root on, for the first node in document order whose attribute has a given value. A search
can also be made turn by turn, with the nodes still to be looked at on a stack: the node on top is taken off, the search
ends if it has the value, and otherwise its children are put on the stack, from the last to the first. Both ways find
the same node. The second takes one turn for each node at most, and up to two more to see that a root is gone and that
nothing is left, since in a sound tree no node is put on the stack twice. Nodes outside the root are not looked at.
-/
namespace Trellis.Tree

namespace Node

theorem search?_eq (p : Node → Bool) (n : Node) :
    n.search? p = if p n then some n else searchAmong? p n.children := by
  cases n with
  | element => rw [search?]; rfl
  | text => rw [search?, children, searchAmong?]

@[simp] theorem searchAmong?_nil (p : Node → Bool) : searchAmong? p [] = none := by rw [searchAmong?]
@[simp] theorem searchAmong?_cons (p : Node → Bool) (n : Node) (ns : List Node) :
    searchAmong? p (n :: ns) = (n.search? p).or (searchAmong? p ns) := by
  rw [searchAmong?]
  cases n.search? p <;> rfl

end Node

/-! ### Document order -/

/-- The node of a handle and all that it holds: each node comes before its children, and these in their order. -/
def documentOrder (t : Tree) (h : Handle) : List Handle := ((t.find? h).map Node.handles).getD []

/-- The node's attribute of that name has the value. -/
def has (t : Tree) (name value : String) (h : Handle) : Bool := t.attribute? h name = some value

/-- The nodes of a forest, and all that they hold, are those that a tree has under their handles. -/
structure Stands (t : Tree) (ns : List Node) : Prop where
  nodup : (Node.handlesAll ns).Nodup
  found : ∀ h n, Node.findAmong? h ns = some n → t.find? h = some n

section

variable {t : Tree} {h : Handle} {n : Node} {ns : List Node} {name value : String}

theorem documentOrder_of_find? (hn : t.find? h = some n) : t.documentOrder h = n.handles := by
  rw [documentOrder, hn]
  rfl

theorem documentOrder_of_none (hn : t.find? h = none) : t.documentOrder h = [] := by
  rw [documentOrder, hn]
  rfl

namespace Stands

theorem head (hs : t.Stands (n :: ns)) : t.find? n.handle = some n := hs.found _ _ (by simp [Node.find?_eq])

theorem children (hs : t.Stands (n :: ns)) : t.Stands n.children := by
  obtain ⟨hnc, -, hdc, -, -⟩ := Node.nodup_handlesAll_cons.1 hs.nodup
  refine ⟨hdc, fun h m hm => hs.found h m ?_⟩
  have hne : n.handle ≠ h := fun he => hnc (he ▸ Node.mem_of_findAmong? hm)
  rw [Node.findAmong?_cons, Node.find?_eq, if_neg hne, hm, Option.some_or]

theorem tail (hs : t.Stands (n :: ns)) : t.Stands ns := by
  obtain ⟨-, hns, -, hds, hcs⟩ := Node.nodup_handlesAll_cons.1 hs.nodup
  refine ⟨hds, fun h m hm => hs.found h m ?_⟩
  have hin := Node.mem_of_findAmong? hm
  have hne : n.handle ≠ h := fun he => hns (he ▸ hin)
  have hnone : Node.findAmong? h n.children = none := Node.findAmong?_eq_none_iff.2 fun hc => hcs h hc hin
  rw [Node.findAmong?_cons, Node.find?_eq, if_neg hne, hnone, Option.none_or, hm]

/-- The document order of the nodes of a forest, one after the other, is that of the forest. -/
theorem flatMap_documentOrder (hs : t.Stands ns) :
    (ns.map Node.handle).flatMap t.documentOrder = Node.handlesAll ns := by
  induction ns with
  | nil => simp
  | cons n ns ih =>
    rw [List.map_cons, List.flatMap_cons, ih hs.tail, documentOrder_of_find? hs.head, Node.handlesAll_cons]

theorem has_head (hs : t.Stands (n :: ns)) : t.has name value n.handle = decide (n.attribute? name = some value) := by
  rw [has, attribute?, hs.head, Option.bind_some]

/-- The node that is found has the first handle of the forest with the value. -/
theorem map_searchAmong? (hs : t.Stands ns) (name value : String) :
    (Node.searchAmong? (·.attribute? name = some value) ns).map Node.handle =
      (Node.handlesAll ns).find? (t.has name value) := by
  induction ns using Node.forestInduction with
  | nil => simp
  | cons n ns ihc ihs =>
    rw [Node.searchAmong?_cons, Node.search?_eq, Node.handlesAll_cons, Node.handles_eq, List.cons_append,
      List.find?_cons, hs.has_head, List.find?_append, ← ihc hs.children, ← ihs hs.tail]
    by_cases hv : n.attribute? name = some value
    · simp [hv]
    · simp [hv, Option.map_or]

end Stands

theorem Sound.stands (ht : t.Sound) (hn : t.find? h = some n) : t.Stands [n] := by
  have hall : Node.handlesAll [n] = n.handles := by simp
  refine ⟨?_, fun x m hm => ?_⟩
  · rw [hall]
    exact (Node.handles_sublist_of_findAmong? hn).nodup ht.nodup
  · rw [Node.findAmong?_cons, Node.findAmong?_nil, Option.or_none, Node.find?_eq] at hm
    split at hm
    · next he => rw [← Option.some.inj hm, ← he, Node.handle_of_findAmong? hn, hn]
    · exact (Node.findAmong?_below ht.nodup hn (Node.mem_of_findAmong? hm)).trans hm

/-- A node comes first, and then what each of its children holds. -/
theorem Sound.documentOrder_eq (ht : t.Sound) {cs : List Handle} (hc : t.children h = .ok cs) :
    t.documentOrder h = h :: cs.flatMap t.documentOrder := by
  obtain ⟨n, hn, rfl⟩ := children_eq_ok_iff.1 hc
  rw [documentOrder_of_find? hn, Node.handles_eq, Node.handle_of_findAmong? hn,
    (ht.stands hn).children.flatMap_documentOrder]

/-- The way up from a live node leads to live nodes. -/
theorem Sound.contains_of_under (ht : t.Sound) {x : Handle} (hx : t.contains x = true) (hu : t.Under h x) :
    t.contains h = true := by
  obtain ⟨k, hk⟩ := hu
  induction k generalizing x with
  | zero => exact Option.some.inj hk ▸ hx
  | succ k ih =>
    obtain ⟨p, hp, hk⟩ := Option.bind_eq_some_iff.1 hk
    obtain ⟨m, hm, -⟩ := ht.parent?_iff_find?.1 hp
    exact ih (contains_iff.2 (Node.mem_of_findAmong? hm)) hk

theorem Sound.mem_documentOrder (ht : t.Sound) {x : Handle} :
    x ∈ t.documentOrder h ↔ t.contains x = true ∧ t.Under h x := by
  cases hn : t.find? h with
  | none =>
    rw [documentOrder_of_none hn]
    refine ⟨fun hx => absurd hx List.not_mem_nil, fun ⟨hx, hu⟩ => ?_⟩
    have hlive := ht.contains_of_under hx hu
    rw [contains, hn] at hlive
    cases hlive
  | some n =>
    rw [documentOrder_of_find? hn, ht.under_iff hn]
    refine ⟨fun hx => ⟨?_, hx⟩, And.right⟩
    exact contains_iff.2 ((Node.handles_sublist_of_findAmong? hn).subset hx)

theorem Sound.findByAttribute?_eq (ht : t.Sound) (name value : String) :
    t.findByAttribute? name value = (t.documentOrder .root).find? (t.has name value) := by
  cases hn : t.find? .root with
  | none =>
    rw [findByAttribute?, hn, documentOrder_of_none hn]
    rfl
  | some n =>
    have hfirst := (ht.stands hn).map_searchAmong? name value
    rw [Node.searchAmong?_cons, Node.searchAmong?_nil, Option.or_none, Node.handlesAll_cons, Node.handlesAll_nil,
      List.append_nil] at hfirst
    rw [findByAttribute?, hn, documentOrder_of_find? hn, ← hfirst]
    exact Option.map_eq_bind.symm

end

/-! ### Turn by turn -/

/-- The children of a node, which are none if there is no such node. -/
def childrenOf (t : Tree) (h : Handle) : List Handle := ((t.find? h).map fun n => n.children.map Node.handle).getD []

/-- A search on its way, with the nodes still to be looked at on a stack, the next one last; or what it has found. -/
inductive Search where
  | pending (stack : List Handle)
  | ended (found : Option Handle)
deriving DecidableEq, Repr

namespace Search

def turn (t : Tree) (name value : String) : Search → Search
  | .ended found => .ended found
  | .pending stack =>
    match stack.getLast? with
    | none => .ended none
    | some h =>
      if t.has name value h then .ended (some h) else .pending (stack.dropLast ++ (t.childrenOf h).reverse)

def run (t : Tree) (name value : String) : Nat → Search → Search
  | 0, s => s
  | k + 1, s => run t name value k (s.turn t name value)

/-- What a search comes to when it has looked at some nodes above a stack. -/
def resume (stack : List Handle) : Option Handle → Search
  | some h => .ended (some h)
  | none => .pending stack

variable {t : Tree} {name value : String}

@[simp] theorem run_zero (s : Search) : run t name value 0 s = s := rfl
@[simp] theorem run_succ (k : Nat) (s : Search) :
    run t name value (k + 1) s = run t name value k (s.turn t name value) := rfl

theorem run_add (m k : Nat) (s : Search) : run t name value (m + k) s = run t name value k (run t name value m s) := by
  induction m generalizing s with
  | zero => simp
  | succ m ih => rw [Nat.succ_add, run_succ, run_succ, ih]

@[simp] theorem run_ended (k : Nat) (found : Option Handle) : run t name value k (.ended found) = .ended found := by
  induction k with
  | zero => rfl
  | succ k ih => exact ih

theorem turn_of_hit {stack : List Handle} {h : Handle} (hv : t.has name value h = true) :
    turn t name value (.pending (stack ++ [h])) = .ended (some h) := by
  simp [turn, hv]

theorem turn_of_miss {stack : List Handle} {h : Handle} (hv : t.has name value h = false) :
    turn t name value (.pending (stack ++ [h])) = .pending (stack ++ (t.childrenOf h).reverse) := by
  simp [turn, hv]

/-- Nodes on top of a stack are looked at in document order, with all that they hold, before the stack is gone on with.
Each of them takes one turn. -/
theorem run_stands {ns : List Node} (hs : t.Stands ns) (name value : String) (stack : List Handle) :
    ∃ k, k ≤ (Node.handlesAll ns).length ∧
      run t name value k (.pending (stack ++ (ns.map Node.handle).reverse)) =
        resume stack ((Node.handlesAll ns).find? (t.has name value)) := by
  induction ns using Node.forestInduction generalizing stack with
  | nil => exact ⟨0, Nat.le_refl 0, by simp [resume]⟩
  | cons n ns ihc ihs =>
    have htop : stack ++ ((n :: ns).map Node.handle).reverse = stack ++ (ns.map Node.handle).reverse ++ [n.handle] := by
      simp
    have hlength : (Node.handlesAll (n :: ns)).length =
        1 + (Node.handlesAll n.children).length + (Node.handlesAll ns).length := by
      simp [Node.handles_eq]
      omega
    have hfind : (Node.handlesAll (n :: ns)).find? (t.has name value) =
        if t.has name value n.handle then some n.handle
        else ((Node.handlesAll n.children).find? (t.has name value)).or
          ((Node.handlesAll ns).find? (t.has name value)) := by
      rw [Node.handlesAll_cons, Node.handles_eq, List.cons_append, List.find?_cons, List.find?_append]
      cases t.has name value n.handle <;> rfl
    rw [htop, hlength, hfind]
    cases hv : t.has name value n.handle with
    | true => exact ⟨1, by omega, by rw [run_succ, turn_of_hit hv, run_zero]; rfl⟩
    | false =>
      -- the children come on top, in front of the nodes that stand behind `n`
      have hchildren : t.childrenOf n.handle = n.children.map Node.handle := by rw [childrenOf, hs.head]; rfl
      obtain ⟨k, hk, hrun⟩ := ihc hs.children (stack ++ (ns.map Node.handle).reverse)
      have hfirst : run t name value (1 + k) (.pending (stack ++ (ns.map Node.handle).reverse ++ [n.handle])) =
          resume (stack ++ (ns.map Node.handle).reverse) ((Node.handlesAll n.children).find? (t.has name value)) := by
        rw [Nat.add_comm, run_succ, turn_of_miss hv, hchildren, hrun]
      rw [if_neg Bool.false_ne_true]
      cases hc : (Node.handlesAll n.children).find? (t.has name value) with
      | some x => exact ⟨1 + k, by omega, by rw [hfirst, hc]; rfl⟩
      | none =>
        obtain ⟨l, hl, hrest⟩ := ihs hs.tail stack
        exact ⟨1 + k + l, by omega, by rw [run_add, hfirst, hc, resume, hrest, Option.none_or]⟩

/-- A search that begins with one node ends with the first node in its document order that has the value. -/
theorem exists_run_ended (ht : t.Sound) (name value : String) (h : Handle) :
    ∃ k, k ≤ t.size + 2 ∧
      run t name value k (.pending [h]) = .ended ((t.documentOrder h).find? (t.has name value)) := by
  cases hn : t.find? h with
  | none =>
    have hmiss : t.has name value h = false := by simp [has, attribute?, hn]
    have hturn : turn t name value (.pending [h]) = .pending [] := by
      rw [← List.nil_append [h], turn_of_miss hmiss, childrenOf, hn]
      rfl
    refine ⟨2, by omega, ?_⟩
    rw [run_succ, hturn, documentOrder_of_none hn]
    rfl
  | some n =>
    obtain ⟨k, hk, hrun⟩ := run_stands (ht.stands hn) name value []
    have hsize : n.handles.length ≤ t.size := (Node.handles_sublist_of_findAmong? hn).length_le
    rw [Node.handlesAll_cons, Node.handlesAll_nil, List.append_nil] at hk hrun
    rw [List.map_cons, List.map_nil, List.reverse_singleton, List.nil_append, Node.handle_of_findAmong? hn] at hrun
    rw [documentOrder_of_find? hn]
    refine ⟨k + 1, by omega, ?_⟩
    rw [run_add, hrun]
    cases n.handles.find? (t.has name value) <;> rfl

end Search

/-! ### What is found -/

/-- Looking for a value of an attribute finds the first node in document order from the root on. -/
structure FindsFirst (t : Tree) (name value : String) : Prop where
  /-- So does the search turn by turn, which ends. -/
  ends : ∀ more, Search.run t name value (t.size + 2 + more) (.pending [.root]) =
    .ended (t.findByAttribute? name value)
  first : t.findByAttribute? name value = (t.documentOrder .root).find? fun h => t.attribute? h name = some value
  /-- The order is that of a walk through the children of each node after the node. -/
  preorder : ∀ h cs, t.children h = .ok cs → t.documentOrder h = h :: cs.flatMap t.documentOrder
  none_iff : t.findByAttribute? name value = none ↔ ∀ h, t.Under .root h → t.attribute? h name ≠ some value
  attached : ∀ h, t.findByAttribute? name value = some h → t.Under .root h

theorem Sound.findsFirst {t : Tree} (ht : t.Sound) (name value : String) : t.FindsFirst name value where
  ends more := by
    obtain ⟨k, hk, hrun⟩ := Search.exists_run_ended ht name value .root
    obtain ⟨rest, hrest⟩ := Nat.exists_eq_add_of_le (Nat.le_trans hk (Nat.le_add_right _ more))
    rw [hrest, Search.run_add, hrun, Search.run_ended, ht.findByAttribute?_eq]
  first := ht.findByAttribute?_eq name value
  preorder _ _ := ht.documentOrder_eq
  none_iff := by
    rw [ht.findByAttribute?_eq, List.find?_eq_none]
    constructor
    · intro hnone h hunder hv
      have hlive : t.contains h = true := by
        obtain ⟨n, hn, -⟩ := Option.bind_eq_some_iff.1 hv
        rw [contains, hn, Option.isSome_some]
      exact hnone h (ht.mem_documentOrder.2 ⟨hlive, hunder⟩) (decide_eq_true hv)
    · intro hnone h hin hv
      exact hnone h (ht.mem_documentOrder.1 hin).2 (of_decide_eq_true hv)
  attached h hh := by
    rw [ht.findByAttribute?_eq] at hh
    exact (ht.mem_documentOrder.1 (List.mem_of_find?_eq_some hh)).2

/-- After every sequence of operations on a new tree, looking for a value of an attribute finds the first node in
document order from the root on. -/
theorem findsFirst_edits (es : List Edit) (name value : String) : (new.edits es).FindsFirst name value :=
  (sound_new.edits es).findsFirst name value

end Trellis.Tree
