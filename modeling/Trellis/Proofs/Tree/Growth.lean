import Trellis.Proofs.Tree.WellFormed

/-!
# Trees that grow at one node

New nodes stand at the top until they are appended. `Grown h t t' ns events` says that `t'` is `t` with the nodes
`ns` after the children of the node of `h`, and with some events recorded there. Nothing else differs, except that
a node may have stayed behind at the top which could not be released: that happens only to a node that has been
given the handle of the root.
-/
namespace Trellis.Tree

namespace Node

/-- A node with more children after its own and with some events recorded. -/
def extend (ns : List Node) (events : List String) (n : Node) : Node :=
  events.foldl (fun n event => n.addEvent event) (n.setChildren (· ++ ns))

theorem setChildren_foldl_addEvent (f : List Node → List Node) (events : List String) (n : Node) :
    (events.foldl (fun n event => n.addEvent event) n).setChildren f =
      events.foldl (fun n event => n.addEvent event) (n.setChildren f) := by
  induction events generalizing n with
  | nil => rfl
  | cons event events ih =>
    have hcomm : (n.addEvent event).setChildren f = (n.setChildren f).addEvent event := by cases n <;> rfl
    rw [List.foldl_cons, ih, hcomm, List.foldl_cons]

theorem extend_extend (ms ns : List Node) (es fs : List String) (n : Node) :
    (n.extend ms es).extend ns fs = n.extend (ms ++ ns) (es ++ fs) := by
  have hcomp : ((fun x : List Node => x ++ ns) ∘ fun x => x ++ ms) = fun x => x ++ (ms ++ ns) := by
    funext x
    exact List.append_assoc ..
  rw [extend, extend, setChildren_foldl_addEvent, ← List.foldl_append, setChildren_setChildren, hcomp, extend]

@[simp] theorem extend_nil (n : Node) : n.extend [] [] = n := by
  cases n <;> simp [extend, setChildren]

/-- Whatever events do not change, and more children do not change either, is as before. -/
theorem extend_eq {α : Type} {view : Node → α} (hc : ∀ f n, view (n.setChildren f) = view n)
    (he : ∀ event n, view (n.addEvent event) = view n) (ns : List Node) (events : List String) (n : Node) :
    view (n.extend ns events) = view n := by
  have key : ∀ n, view (events.foldl (fun n event => n.addEvent event) n) = view n := by
    induction events with
    | nil => exact fun _ => rfl
    | cons event events ih =>
      intro n
      rw [List.foldl_cons, ih, he]
  rw [extend, key, hc]

@[simp] theorem handle_extend (ns : List Node) (events : List String) (n : Node) :
    (n.extend ns events).handle = n.handle :=
  extend_eq handle_setChildren handle_addEvent ns events n

@[simp] theorem isText_extend (ns : List Node) (events : List String) (n : Node) :
    (n.extend ns events).isText = n.isText :=
  extend_eq isText_setChildren (fun _ n => by cases n <;> rfl) ns events n

@[simp] theorem tag?_extend (ns : List Node) (events : List String) (n : Node) :
    (n.extend ns events).tag? = n.tag? :=
  extend_eq (fun _ n => by cases n <;> rfl) (fun _ n => by cases n <;> rfl) ns events n

@[simp] theorem attribute?_extend (ns : List Node) (events : List String) (n : Node) :
    (n.extend ns events).attribute? = n.attribute? :=
  @extend_eq _ attribute? (fun _ n => by cases n <;> rfl) (fun _ n => by cases n <;> rfl) ns events n

theorem children_extend {n : Node} (hn : n.isText = false) (ns : List Node) (events : List String) :
    (n.extend ns events).children = n.children ++ ns := by
  have key : ∀ n : Node, (events.foldl (fun n event => n.addEvent event) n).children = n.children := by
    induction events with
    | nil => exact fun _ => rfl
    | cons event events ih =>
      intro n
      rw [List.foldl_cons, ih, children_addEvent]
  rw [extend, key, children_setChildren_of_isText_false hn]

/-! ### A node at the top -/

theorem updateAmong_append (h : Handle) (f : Node → Node) (ms ns : List Node) :
    updateAmong h f (ms ++ ns) = updateAmong h f ms ++ updateAmong h f ns := by
  induction ms with
  | nil => simp
  | cons m ms ih => simp [ih]

theorem removeAmong_append (h : Handle) (ms ns : List Node) :
    removeAmong h (ms ++ ns) = removeAmong h ms ++ removeAmong h ns := by
  induction ms with
  | nil => simp
  | cons m ms ih =>
    rw [List.cons_append, removeAmong_cons, removeAmong_cons, ih]
    split <;> rfl

theorem updateAmong_eq_self {h : Handle} {f : Node → Node} (hf : ∀ n, f n = n) (ns : List Node) :
    updateAmong h f ns = ns := by
  induction ns using forestInduction with
  | nil => simp
  | cons n ns ihc ihs =>
    rw [updateAmong_cons, ihs, update_eq, hf, setChildren_eq_self ihc, ite_self]

theorem findAmong?_updateAmong_extend {h : Handle} {n : Node} {l : List Node} (hn : findAmong? h l = some n)
    (ns : List Node) (events : List String) :
    findAmong? h (updateAmong h (.extend ns events) l) = some (n.extend ns events) := by
  rw [findAmong?_updateAmong_self (handle_extend ns events), hn, Option.map_some]

theorem updateAmong_extend_extend (h : Handle) (ms ns : List Node) (es fs : List String) (l : List Node) :
    updateAmong h (.extend ns fs) (updateAmong h (.extend ms es) l) =
      updateAmong h (.extend (ms ++ ns) (es ++ fs)) l := by
  rw [updateAmong_updateAmong _ (handle_extend ms es)]
  exact updateAmong_congr _ fun n _ => extend_extend ms ns es fs n

/-- Appending one more child is growing by it. -/
theorem updateAmong_append_extend (h : Handle) (ns : List Node) (es : List String) (c : Node) (l : List Node) :
    updateAmong h (.setChildren (· ++ [c])) (updateAmong h (.extend ns es) l) =
      updateAmong h (.extend (ns ++ [c]) es) l := by
  have hcomp := updateAmong_extend_extend h ns [c] es [] l
  rw [List.append_nil] at hcomp
  exact hcomp

section Middle

variable {pre ns : List Node} {c : Node}

theorem not_mem_of_middle (hd : (handlesAll (pre ++ c :: ns)).Nodup) :
    c.handle ∉ handlesAll pre ∧ c.handle ∉ handlesAll ns := by
  rw [handlesAll_append, List.nodup_append] at hd
  have hc : c.handle ∈ handlesAll (c :: ns) := by simp [handles_eq]
  exact ⟨fun hp => hd.2.2 _ hp _ hc rfl, (nodup_handlesAll_cons.mp hd.2.1).2.1⟩

theorem findAmong?_middle (hd : (handlesAll (pre ++ c :: ns)).Nodup) :
    findAmong? c.handle (pre ++ c :: ns) = some c := by
  rw [findAmong?_append, findAmong?_eq_none_iff.mpr (not_mem_of_middle hd).1]
  simp [find?_eq]

theorem updateAmong_middle (f : Node → Node) (hd : (handlesAll (pre ++ c :: ns)).Nodup) :
    updateAmong c.handle f (pre ++ c :: ns) = pre ++ f c :: ns := by
  obtain ⟨hp, hs⟩ := not_mem_of_middle hd
  rw [updateAmong_append, updateAmong_of_not_mem f hp, updateAmong_cons, updateAmong_of_not_mem f hs,
    update_eq, if_pos rfl]

theorem removeAmong_middle (hd : (handlesAll (pre ++ c :: ns)).Nodup) :
    removeAmong c.handle (pre ++ c :: ns) = pre ++ ns := by
  obtain ⟨hp, hs⟩ := not_mem_of_middle hd
  rw [removeAmong_append, removeAmong_of_not_mem hp, removeAmong_cons, if_pos rfl, removeAmong_of_not_mem hs]

/-- A handle of a later node is found there and nowhere before. -/
theorem not_mem_before {h : Handle} (hd : (handlesAll (pre ++ ns)).Nodup) (hh : h ∈ handlesAll ns) :
    h ∉ handlesAll pre := by
  rw [handlesAll_append, List.nodup_append] at hd
  exact fun hp => hd.2.2 _ hp _ hh rfl

end Middle
end Node

section Top

variable {t : Tree} {pre ns : List Node} {c p : Node} {h : Handle}

theorem setAttributes_top (ht : t.Sound) (hn : t.nodes = pre ++ c :: ns) (hc : c.isText = false)
    (f : Attributes → Attributes) :
    t.setAttributes c.handle f = .ok ⟨pre ++ c.setAttributes f :: ns, t.pool⟩ := by
  have hd := hn ▸ ht.nodup
  refine setAttributes_eq_ok_iff.mpr ⟨c, ?_, hc, ?_⟩
  · rw [find?, hn, Node.findAmong?_middle hd]
  · rw [update, hn, Node.updateAmong_middle _ hd]

/-- A node moves from somewhere in the front of a tree to a node that stands behind. -/
theorem append_from_front (ht : t.Sound) (hn : t.nodes = pre ++ ns) (hc : Node.findAmong? c.handle pre = some c)
    (hp : Node.findAmong? h ns = some p) (hpt : p.isText = false) :
    t.append h c.handle =
      .ok ⟨Node.removeAmong c.handle pre ++ Node.updateAmong h (.setChildren (· ++ [c])) ns, t.pool⟩ := by
  have hd := hn ▸ ht.nodup
  have hpre := Node.not_mem_before hd (Node.mem_of_findAmong? hp)
  have hns : c.handle ∉ Node.handlesAll ns := fun hm =>
    Node.not_mem_before hd hm (Node.mem_of_findAmong? hc)
  have hrem : h ∉ Node.handlesAll (Node.removeAmong c.handle pre) := by
    have hdp := (Node.handlesAll_append pre ns ▸ hd).sublist (List.sublist_append_left ..)
    intro hm
    exact hpre ((Node.handlesAll_removeAmong_perm hdp hc).mem_iff.mp (List.mem_append_right _ hm))
  refine append_eq_ok_iff.mpr ⟨p, ?_, hpt, c, ?_, ?_, ?_⟩
  · rw [find?, hn, Node.findAmong?_append, Node.findAmong?_eq_none_iff.mpr hpre]
    exact hp
  · rw [find?, hn, Node.findAmong?_append, hc]
    rfl
  · cases hf : (c.find? h).isSome with
    | false => rfl
    | true =>
      exact absurd ((Node.handles_sublist_of_findAmong? hc).subset (mem_handles_iff.mpr hf)) hpre
  · rw [hn, Node.removeAmong_append, Node.removeAmong_of_not_mem hns, Node.updateAmong_append,
      Node.updateAmong_of_not_mem _ hrem]

/-- A node at the top is appended to a node that stands behind it. -/
theorem append_top {mid : List Node} (ht : t.Sound) (hn : t.nodes = (pre ++ c :: mid) ++ ns)
    (hp : Node.findAmong? h ns = some p) (hpt : p.isText = false) :
    t.append h c.handle =
      .ok ⟨(pre ++ mid) ++ Node.updateAmong h (.setChildren (· ++ [c])) ns, t.pool⟩ := by
  have hd := (Node.handlesAll_append (pre ++ c :: mid) ns ▸ hn ▸ ht.nodup).sublist (List.sublist_append_left ..)
  rw [append_from_front ht hn (Node.findAmong?_middle hd) hp hpt, Node.removeAmong_middle hd]

/-- The first child of a node at the top moves to a node that stands behind it. -/
theorem append_first_child {d : Node} {ds : List Node} (ht : t.Sound) (hn : t.nodes = pre ++ c :: ns)
    (hc : c.children = d :: ds) (hp : Node.findAmong? h ns = some p) (hpt : p.isText = false) :
    t.append h d.handle =
      .ok ⟨pre ++ c.setChildren (fun _ => ds) :: Node.updateAmong h (.setChildren (· ++ [d])) ns, t.pool⟩ := by
  have hsplit : t.nodes = (pre ++ [c]) ++ ns := by rw [hn, List.append_assoc]; rfl
  have hd := (Node.handlesAll_append (pre ++ [c]) ns ▸ hsplit ▸ ht.nodup).sublist (List.sublist_append_left ..)
  have hdc : (Node.handlesAll [c]).Nodup :=
    (Node.handlesAll_append pre [c] ▸ hd).sublist (List.sublist_append_right ..)
  obtain ⟨hne, -, hdch, -⟩ := Node.nodup_handlesAll_cons.mp hdc
  rw [hc] at hne hdch
  have hpre : d.handle ∉ Node.handlesAll pre := Node.not_mem_before hd (by simp [Node.handles_eq, hc])
  have hcd : c.handle ≠ d.handle := fun he => hne (by simp [he, Node.handles_eq])
  have hfind : Node.findAmong? d.handle (pre ++ [c]) = some d := by
    have hmid := @Node.findAmong?_middle [] ds d hdch
    rw [List.nil_append] at hmid
    rw [Node.findAmong?_append, Node.findAmong?_eq_none_iff.mpr hpre, Node.findAmong?_cons, Node.find?_eq,
      if_neg hcd, hc, hmid]
    rfl
  have hrem : Node.removeAmong d.handle (pre ++ [c]) = pre ++ [c.setChildren fun _ => ds] := by
    have hmid := @Node.removeAmong_middle [] ds d hdch
    rw [List.nil_append] at hmid
    rw [Node.removeAmong_append, Node.removeAmong_of_not_mem hpre, Node.removeAmong_cons, if_neg hcd,
      Node.remove_eq, Node.removeAmong_nil]
    cases c with
    | element x tag attributes events children =>
      cases hc
      rw [Node.setChildren, Node.setChildren, hmid]
      rfl
    | text => cases hc
  rw [append_from_front ht hsplit hfind hp hpt, hrem, List.append_assoc]
  rfl

theorem release_top (ht : t.Sound) (hn : t.nodes = pre ++ c :: ns) :
    t.release c.handle = if c.handle = .root then t else ⟨pre ++ ns, t.pool.give c.freeOrder⟩ := by
  have hd := hn ▸ ht.nodup
  have hf : t.find? c.handle = some c := by rw [find?, hn, Node.findAmong?_middle hd]
  rw [release, hf, hn, Node.removeAmong_middle hd]

theorem setText_top (ht : t.Sound) (hn : t.nodes = pre ++ c :: ns) (hc : c.isText = false)
    (hcs : c.children = []) (content : String) :
    ∃ x pool, t.setText c.handle content =
      .ok ⟨pre ++ c.setChildren (fun _ => [.text x content []]) :: ns, pool⟩ := by
  have hd := hn ▸ ht.nodup
  have hf : t.find? c.handle = some c := by rw [find?, hn, Node.findAmong?_middle hd]
  have hclear : t.clear c.handle = .ok t := by
    refine clear_eq_ok_iff.mpr ⟨c, hf, ?_⟩
    rw [update, hn, Node.updateAmong_middle _ hd, Node.setChildren_eq_self (by rw [hcs]), ← hn, hcs]
    rfl
  have happend := @append_top (t.createText content).2 [] t.nodes (.text t.pool.take.1 content []) c c.handle []
    (ht.createText content) rfl hf hc
  refine ⟨t.pool.take.1, t.pool.take.2, setText_eq_ok_iff.mpr ⟨c, hf, ?_⟩⟩
  rw [if_neg (by simp [hc])]
  refine ⟨t, hclear, ?_⟩
  refine happend.trans ?_
  rw [List.append_nil, List.nil_append, hn, Node.updateAmong_middle _ hd]
  cases c with
  | element => cases hcs; rfl
  | text => cases hc

/-- A new element is given a text. -/
theorem setText_createElement (ht : t.Sound) (tag content : String) :
    ∃ x pool, (t.createElement tag).2.setText (t.createElement tag).1 content =
      .ok ⟨.element t.pool.take.1 tag.toLower [] [] [.text x content []] :: t.nodes, pool⟩ :=
  @setText_top (t.createElement tag).2 [] t.nodes (.element t.pool.take.1 tag.toLower [] [] [])
    (ht.createElement tag) rfl rfl rfl content

end Top

/-! ### Growth -/

/-- The tree has grown at one node; see above for what may stay behind at the top. -/
structure Grown (h : Handle) (t t' : Tree) (ns : List Node) (events : List String) : Prop where
  sound : t'.Sound
  nodes : ∃ stray, (∀ n ∈ stray, n.handle = .root) ∧
    t'.nodes = stray ++ Node.updateAmong h (.extend ns events) t.nodes

namespace Grown

variable {t t' t'' : Tree} {h : Handle} {ms ns : List Node} {es fs : List String}

theorem refl (ht : t.Sound) (h : Handle) : Grown h t t [] [] :=
  ⟨ht, [], by simp, by rw [Node.updateAmong_eq_self Node.extend_nil, List.nil_append]⟩

theorem find? {n : Node} (hg : Grown h t t' ns es) (hn : t.find? h = some n) :
    t'.find? h = some (n.extend ns es) := by
  obtain ⟨stray, -, hnodes⟩ := hg.nodes
  have hup := Node.findAmong?_updateAmong_extend hn ns es
  have hnot := Node.not_mem_before (hnodes ▸ hg.sound.nodup) (Node.mem_of_findAmong? hup)
  rw [Tree.find?, hnodes, Node.findAmong?_append, Node.findAmong?_eq_none_iff.mpr hnot, hup, Option.none_or]

theorem trans (hg : Grown h t t' ms es) (hg' : Grown h t' t'' ns fs) (hh : t.contains h = true) :
    Grown h t t'' (ms ++ ns) (es ++ fs) := by
  obtain ⟨stray, hs, hnodes⟩ := hg.nodes
  obtain ⟨stray', hs', hnodes'⟩ := hg'.nodes
  obtain ⟨n, hn⟩ := Node.exists_findAmong?_of_mem (contains_iff.mp hh)
  have hup := Node.findAmong?_updateAmong_extend hn ms es
  have hnot := Node.not_mem_before (hnodes ▸ hg.sound.nodup) (Node.mem_of_findAmong? hup)
  refine ⟨hg'.sound, stray' ++ stray, ?_, ?_⟩
  · intro x hx
    exact (List.mem_append.mp hx).elim (hs' x) (hs x)
  · rw [hnodes', hnodes, Node.updateAmong_append, Node.updateAmong_of_not_mem _ hnot,
      Node.updateAmong_extend_extend, List.append_assoc]

section Front

variable {pre : List Node} {c n : Node}

/-- A node at the top, in front of a tree that has grown, is appended to where the tree grows. -/
theorem append {mid : List Node} (ht' : t'.Sound)
    (hnodes : t'.nodes = (pre ++ c :: mid) ++ Node.updateAmong h (.extend ns es) t.nodes)
    (hn : t.find? h = some n) (hnt : n.isText = false) :
    ∃ t'', t'.append h c.handle = .ok t'' ∧ t''.Sound ∧
      t''.nodes = (pre ++ mid) ++ Node.updateAmong h (.extend (ns ++ [c]) es) t.nodes := by
  have ha := append_top ht' hnodes (Node.findAmong?_updateAmong_extend hn ns es) (by simpa using hnt)
  refine ⟨_, ha, ht'.append ha, ?_⟩
  rw [Node.updateAmong_append_extend]

/-- A child of a node at the top moves to where the tree grows. -/
theorem append_child {d : Node} {ds : List Node} (ht' : t'.Sound)
    (hnodes : t'.nodes = pre ++ c :: Node.updateAmong h (.extend ns es) t.nodes) (hc : c.children = d :: ds)
    (hn : t.find? h = some n) (hnt : n.isText = false) :
    ∃ t'', t'.append h d.handle = .ok t'' ∧ t''.Sound ∧
      t''.nodes =
        pre ++ c.setChildren (fun _ => ds) :: Node.updateAmong h (.extend (ns ++ [d]) es) t.nodes := by
  have ha := append_first_child ht' hnodes hc (Node.findAmong?_updateAmong_extend hn ns es) (by simpa using hnt)
  refine ⟨_, ha, ht'.append ha, ?_⟩
  rw [Node.updateAmong_append_extend]

/-- A new node at the top is appended. -/
theorem append_new (ht' : t'.Sound) (hnodes : t'.nodes = c :: t.nodes) (hn : t.find? h = some n)
    (hnt : n.isText = false) : ∃ t'', t'.append h c.handle = .ok t'' ∧ Grown h t t'' [c] [] := by
  have hnodes' : t'.nodes = ([] ++ [c]) ++ Node.updateAmong h (.extend [] []) t.nodes := by
    rw [hnodes, Node.updateAmong_eq_self Node.extend_nil]
    rfl
  obtain ⟨t'', happend, ht'', hnodes''⟩ := Grown.append ht' hnodes' hn hnt
  exact ⟨t'', happend, ht'', [], by simp, hnodes''⟩

/-- A new element with a text is appended. -/
theorem append_text (ht : t.Sound) (hn : t.find? h = some n) (hnt : n.isText = false) (tag content : String) :
    ∃ t₁ t₂ x, (t.createElement tag).2.setText (t.createElement tag).1 content = .ok t₁ ∧
      t₁.append h (t.createElement tag).1 = .ok t₂ ∧
      Grown h t t₂ [.element (t.createElement tag).1 tag.toLower [] [] [.text x content []]] [] := by
  obtain ⟨x, pool, htext⟩ := setText_createElement ht tag content
  obtain ⟨t₂, happend, hg⟩ := @append_new t _ h
    (.element (t.createElement tag).1 tag.toLower [] [] [.text x content []]) n
    ((ht.createElement tag).setText htext) rfl hn hnt
  exact ⟨_, t₂, x, htext, happend, hg⟩

/-- A node at the top is released, or stays behind if it has the handle of the root. -/
theorem release (ht' : t'.Sound) (hpre : ∀ x ∈ pre, x.handle = .root)
    (hnodes : t'.nodes = pre ++ c :: Node.updateAmong h (.extend ns es) t.nodes) :
    Grown h t (t'.release c.handle) ns es := by
  refine ⟨ht'.release _, ?_⟩
  rw [release_top ht' hnodes]
  split
  · next hroot =>
    refine ⟨pre ++ [c], ?_, by simpa using hnodes⟩
    intro x hx
    rw [List.mem_append, List.mem_singleton] at hx
    exact hx.elim (hpre x) fun he => he ▸ hroot
  · exact ⟨pre, hpre, rfl⟩

end Front
end Grown
end Trellis.Tree
