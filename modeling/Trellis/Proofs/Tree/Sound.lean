import Trellis.Proofs.Tree.Forest
import Trellis.Tree.Input

/-!
# Slots in use and slots to be given out

A tree is sound when every slot made so far is either the slot of exactly one node or waits in the pool exactly
once. No other fact about handles is needed: that no handle names two nodes follows from it. Every operation on
a tree keeps it sound, whatever handles it is given.
-/
namespace Trellis.Tree

/-! ### The pool -/

/-- Of each slot made so far there is one handle, among those in use or among those to be given out. -/
def Pool.Covers (p : Pool) (used : List Handle) : Prop :=
  ∀ i, used.countP (·.slot = i) + p.free.countP (·.slot = i) = if i < p.slots then 1 else 0

namespace Pool

theorem Covers.perm {p : Pool} {used used' : List Handle} (h : p.Covers used)
    (hp : used.Perm used') : p.Covers used' := by
  intro i
  rw [← hp.countP_eq]
  exact h i

/-- A handle that is given out is in use from then on. -/
theorem Covers.take {p : Pool} {used : List Handle} (h : p.Covers used) :
    p.take.2.Covers (p.take.1 :: used) := by
  intro i
  have hi := h i
  cases hf : p.free with
  | nil =>
    simp only [hf, List.countP_nil, Nat.add_zero] at hi
    simp only [Pool.take, hf, List.countP_cons, List.countP_nil, hi, decide_eq_true_eq]
    split <;> split <;> split <;> omega
  | cons free rest =>
    simp only [hf, List.countP_cons] at hi
    simp only [Pool.take, hf, List.countP_cons]
    omega

theorem free_give (p : Pool) (hs : List Handle) :
    (p.give hs).free = (hs.map Handle.next).reverse ++ p.free := by
  have key : ∀ free : List Handle,
      hs.foldl (fun free h => h.next :: free) free = (hs.map Handle.next).reverse ++ free := by
    induction hs with
    | nil => simp
    | cons h hs ih => simp [ih]
  exact key p.free

/-- A freed slot waits again, under the handle of its next generation. -/
theorem Covers.give {p : Pool} {hs used : List Handle} (h : p.Covers (hs ++ used)) :
    (p.give hs).Covers used := by
  intro i
  have hi := h i
  have hnext : (hs.map Handle.next).countP (·.slot = i) = hs.countP (·.slot = i) := by
    rw [List.countP_map]
    rfl
  rw [free_give, List.countP_append, (List.reverse_perm _).countP_eq, hnext]
  rw [List.countP_append] at hi
  have hs : (p.give hs).slots = p.slots := rfl
  rw [hs]
  omega

theorem Covers.nodup {p : Pool} {used : List Handle} (h : p.Covers used) : used.Nodup := by
  rw [List.nodup_iff_count]
  intro x
  have hx := h x.slot
  have hle : used.count x ≤ used.countP (·.slot = x.slot) := by
    apply List.countP_mono_left
    intro y _ hy
    simp only [beq_iff_eq] at hy
    simp [hy]
  split at hx <;> omega

end Pool

/-! ### Orders of freeing -/

namespace Node

theorem freeOrderBack_perm (ns : List Node) : (freeOrderBack ns).Perm (handlesAll ns) := by
  induction ns using forestInduction with
  | nil => simp [freeOrderBack]
  | cons n ns ihc ihs =>
    rw [freeOrderBack, freeOrder_eq, handlesAll_cons, handles_eq]
    exact List.perm_append_comm.trans ((ihc.cons n.handle).append ihs)

theorem freeOrder_perm (n : Node) : n.freeOrder.Perm n.handles := by
  rw [freeOrder_eq, handles_eq]
  exact (freeOrderBack_perm n.children).cons n.handle

theorem flatMap_freeOrder_perm (ns : List Node) : (ns.flatMap freeOrder).Perm (handlesAll ns) := by
  induction ns with
  | nil => simp
  | cons n ns ih =>
    rw [List.flatMap_cons, handlesAll_cons]
    exact (freeOrder_perm n).append ih

end Node

/-! ### New nodes for markup -/

namespace Node

/-- The handles of new nodes come out of the pool. -/
theorem covers_ofMarkupAll {ms : List Markup} {p : Pool} {used : List Handle} (h : p.Covers used) :
    (ofMarkupAll p ms).2.Covers (handlesAll (ofMarkupAll p ms).1 ++ used) := by
  induction ms using Markup.forestInduction generalizing p used with
  | nil => simpa [ofMarkupAll] using h
  | text content ms ih =>
    simp only [ofMarkupAll, ofMarkup, handlesAll_cons, handles, List.cons_append, List.nil_append]
    exact (ih h.take).perm List.perm_middle
  | element tag attributes children ms ihc ihs =>
    simp only [ofMarkupAll, ofMarkup, handlesAll_cons, handles, List.cons_append, List.append_assoc]
    apply (ihs (ihc h.take)).perm
    rw [List.perm_iff_count]
    intro x
    simp only [List.count_append, List.count_cons]
    omega

end Node

/-! ### Sound trees -/

/-- Every slot is in use by one node or waits once to be given out. -/
def Sound (t : Tree) : Prop := t.pool.Covers (Node.handlesAll t.nodes)

namespace Sound

theorem nodup {t : Tree} (h : t.Sound) : (Node.handlesAll t.nodes).Nodup := Pool.Covers.nodup h

end Sound

theorem mem_handles_iff {h : Handle} {n : Node} : h ∈ n.handles ↔ (n.find? h).isSome = true := by
  have hn := @Node.findAmong?_eq_none_iff h [n]
  simp only [Node.findAmong?_cons, Node.findAmong?_nil, Option.or_none, Node.handlesAll_cons,
    Node.handlesAll_nil, List.append_nil] at hn
  rw [← Option.isNone_iff_eq_none] at hn
  cases hf : n.find? h <;> simp_all

/-! ### What each operation does when it succeeds -/

theorem node_eq_ok_iff {t : Tree} {h : Handle} {n : Node} :
    t.node h = .ok n ↔ t.find? h = some n := by
  unfold node
  cases t.find? h <;> simp

/-- A step that succeeds hands its value on. -/
theorem bind_eq_ok_iff {ε α β : Type} {x : Except ε α} {f : α → Except ε β} {b : β} :
    (x >>= f) = .ok b ↔ ∃ a, x = .ok a ∧ f a = .ok b := by
  cases x <;> simp [bind, Except.bind]

/-- A condition under which an operation gives up does not hold when it succeeds. -/
theorem guard_eq_ok_iff {ε α β : Type} {c : Bool} {e : ε} {f : α → Except ε β} {x : Except ε β}
    {b : β} : (if c = true then throw e >>= f else x) = .ok b ↔ c = false ∧ x = .ok b := by
  cases c with
  | true => simp [bind, Except.bind, throw, throwThe, MonadExceptOf.throw]
  | false => simp

theorem append_eq_ok_iff {t t' : Tree} {parent child : Handle} :
    t.append parent child = .ok t' ↔
      ∃ p, t.find? parent = some p ∧ p.isText = false ∧ ∃ c, t.find? child = some c ∧
        (c.find? parent).isSome = false ∧
        ⟨Node.updateAmong parent (.setChildren (· ++ [c])) (Node.removeAmong child t.nodes), t.pool⟩ =
          t' := by
  simp only [append, bind_eq_ok_iff, node_eq_ok_iff, guard_eq_ok_iff, pure, Except.pure,
    Except.ok.injEq]

theorem clear_eq_ok_iff {t t' : Tree} {h : Handle} :
    t.clear h = .ok t' ↔
      ∃ n, t.find? h = some n ∧
        { t.update h (.setChildren fun _ => []) with
          pool := t.pool.give (n.children.flatMap Node.freeOrder) } = t' := by
  simp only [clear, bind_eq_ok_iff, node_eq_ok_iff, pure, Except.pure, Except.ok.injEq]

theorem setAttributes_eq_ok_iff {t t' : Tree} {h : Handle} {f : Attributes → Attributes} :
    t.setAttributes h f = .ok t' ↔
      ∃ n, t.find? h = some n ∧ n.isText = false ∧ t.update h (.setAttributes f) = t' := by
  simp only [setAttributes, bind_eq_ok_iff, node_eq_ok_iff, guard_eq_ok_iff, pure, Except.pure,
    Except.ok.injEq]

theorem addEvent_eq_ok_iff {t t' : Tree} {h : Handle} {event : String} :
    t.addEvent h event = .ok t' ↔ ∃ n, t.find? h = some n ∧ t.update h (.addEvent event) = t' := by
  simp only [addEvent, bind_eq_ok_iff, node_eq_ok_iff, pure, Except.pure, Except.ok.injEq]

theorem setText_eq_ok_iff {t t' : Tree} {h : Handle} {content : String} :
    t.setText h content = .ok t' ↔
      ∃ n, t.find? h = some n ∧
        if n.isText = true then t.update h (.setContent content) = t'
        else ∃ cleared, t.clear h = .ok cleared ∧
          (cleared.createText content).2.append h (cleared.createText content).1 = .ok t' := by
  simp only [setText, bind_eq_ok_iff, node_eq_ok_iff, pure, Except.pure]
  refine exists_congr fun n => and_congr_right fun _ => ?_
  cases n.isText <;> simp [bind_eq_ok_iff]

/-! ### Every operation keeps a tree sound -/

theorem sound_new : new.Sound := by
  intro i
  cases i with
  | zero => decide
  | succ i => simp [new, Node.handles, Node.handlesAll, Handle.root]

namespace Sound

variable {t t' : Tree} {h parent child : Handle}

/-- Changes that leave the handles of a node alone keep the tree sound. -/
theorem update (ht : t.Sound) {f : Node → Node} (hf : ∀ n, (f n).handles = n.handles) :
    (t.update h f).Sound := by
  unfold Sound Tree.update
  rw [Node.handlesAll_updateAmong hf]
  exact ht

theorem createElement (ht : t.Sound) (tag : String) : (t.createElement tag).2.Sound := by
  unfold Sound
  simpa [Tree.createElement, Node.handles, Node.handlesAll] using Pool.Covers.take ht

theorem createText (ht : t.Sound) (content : String) : (t.createText content).2.Sound := by
  unfold Sound
  simpa [Tree.createText, Node.handles] using Pool.Covers.take ht

theorem parse (ht : t.Sound) (source : String) : (t.parse source).2.Sound := by
  unfold Sound Tree.parse
  rw [Node.handlesAll_append]
  exact Node.covers_ofMarkupAll ht

/-- Once a node is out, another one that it does not hold is still there. -/
theorem find?_removed (ht : t.Sound) {p c : Node} (hp : t.find? parent = some p) (hc : t.find? child = some c)
    (hpc : (c.find? parent).isSome = false) :
    Node.findAmong? parent (Node.removeAmong child t.nodes) = some (p.remove child) := by
  have hpc' : parent ∉ c.handles := by
    intro hm
    rw [mem_handles_iff.mp hm] at hpc
    cases hpc
  rw [Node.findAmong?_removeAmong ht.nodup, show Node.findAmong? parent t.nodes = some p from hp]
  · rfl
  · intro n hn
    rw [show Node.findAmong? child t.nodes = some c from hc, Option.some.injEq] at hn
    exact hn ▸ hpc'

/-- Appending moves a node, and every handle stays in use. -/
theorem perm_append (ht : t.Sound) (ha : t.append parent child = .ok t') :
    (Node.handlesAll t.nodes).Perm (Node.handlesAll t'.nodes) ∧ t'.pool = t.pool := by
  obtain ⟨p, hp, hpt, c, hc, hpc, rfl⟩ := append_eq_ok_iff.mp ha
  refine ⟨?_, rfl⟩
  have hd := ht.nodup
  have hout := Node.handlesAll_removeAmong_perm hd hc
  have hp' := ht.find?_removed hp hc hpc
  have hd' : (Node.handlesAll (Node.removeAmong child t.nodes)).Nodup :=
    (List.nodup_append.mp (hout.symm.nodup hd)).2.1
  have hin := Node.handlesAll_updateAmong_perm (.setChildren (· ++ [c])) hd' hp'
  have hnew : ((p.remove child).setChildren (· ++ [c])).handles = (p.remove child).handles ++ c.handles := by
    rw [Node.handles_eq, Node.handle_setChildren,
      Node.children_setChildren_of_isText_false (by simpa using hpt), Node.handlesAll_append,
      Node.handles_eq (p.remove child)]
    simp
  rw [hnew] at hin
  change (Node.handlesAll t.nodes).Perm (Node.handlesAll (Node.updateAmong parent _ _))
  rw [List.perm_iff_count] at hin hout ⊢
  intro x
  have hin := hin x
  have hout := hout x
  simp only [List.count_append] at hin hout
  omega

theorem append (ht : t.Sound) (ha : t.append parent child = .ok t') : t'.Sound := by
  obtain ⟨hp, hpool⟩ := ht.perm_append ha
  rw [Sound, hpool]
  exact Pool.Covers.perm ht hp

/-- Clearing a node frees all that it holds, and every other handle stays in use. -/
theorem perm_clear (ht : t.Sound) (hc : t.clear h = .ok t') :
    ∃ n, t.find? h = some n ∧ t'.pool = t.pool.give (n.children.flatMap Node.freeOrder) ∧
      (Node.handlesAll n.children ++ Node.handlesAll t'.nodes).Perm (Node.handlesAll t.nodes) := by
  obtain ⟨n, hn, rfl⟩ := clear_eq_ok_iff.mp hc
  refine ⟨n, hn, rfl, ?_⟩
  have hp := Node.handlesAll_updateAmong_perm (.setChildren fun _ => []) ht.nodup hn
  have hnew : (n.setChildren fun _ => []).handles = [n.handle] := by
    rw [Node.handles_eq, Node.handle_setChildren, Node.children_setChildren rfl, Node.handlesAll_nil]
  rw [hnew, Node.handles_eq] at hp
  rw [List.perm_iff_count] at hp ⊢
  intro x
  have hp := hp x
  simp only [List.count_append, List.count_cons, List.count_nil] at hp ⊢
  simp only [Tree.update]
  omega

theorem clear (ht : t.Sound) (hc : t.clear h = .ok t') : t'.Sound := by
  obtain ⟨n, -, hpool, hp⟩ := ht.perm_clear hc
  rw [Sound, hpool]
  apply Pool.Covers.give
  exact Pool.Covers.perm ht (hp.symm.trans ((Node.flatMap_freeOrder_perm n.children).symm.append_right _))

theorem release (ht : t.Sound) (h : Handle) : (t.release h).Sound := by
  unfold Tree.release
  split
  · exact ht
  · split
    · exact ht
    · next n hn =>
      apply Pool.Covers.give
      apply Pool.Covers.perm ht
      have hp := Node.handlesAll_removeAmong_perm ht.nodup hn
      exact hp.symm.trans ((Node.freeOrder_perm n).symm.append_right _)

theorem setAttributes (ht : t.Sound) {f : Attributes → Attributes}
    (hs : t.setAttributes h f = .ok t') : t'.Sound := by
  obtain ⟨n, -, -, rfl⟩ := setAttributes_eq_ok_iff.mp hs
  exact ht.update fun n => Node.handles_congr (by simp) (by simp)

theorem addEvent (ht : t.Sound) {event : String} (hs : t.addEvent h event = .ok t') : t'.Sound := by
  obtain ⟨n, -, rfl⟩ := addEvent_eq_ok_iff.mp hs
  exact ht.update fun n => Node.handles_congr (by simp) (by simp)

theorem setText (ht : t.Sound) {content : String} (hs : t.setText h content = .ok t') : t'.Sound := by
  obtain ⟨n, -, hs⟩ := setText_eq_ok_iff.mp hs
  split at hs
  · subst hs
    exact ht.update fun n => Node.handles_congr (by simp) (by simp)
  · obtain ⟨cleared, hc, ha⟩ := hs
    exact ((ht.clear hc).createText content).append ha

theorem setChecked (ht : t.Sound) {on : Bool} (hs : t.setChecked h on = .ok t') : t'.Sound := by
  unfold Tree.setChecked at hs
  split at hs
  · exact ht.setAttributes hs
  · exact ht.setAttributes hs

theorem setInput (ht : t.Sound) {value : String} (hs : t.setInput h value = .ok t') : t'.Sound := by
  unfold Tree.setInput at hs
  split at hs
  · exact ht.setChecked hs
  · exact ht.setAttributes hs

end Sound
end Trellis.Tree
