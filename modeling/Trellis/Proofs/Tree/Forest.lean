import Trellis.Tree.Basic

/-!
# Forests of nodes

A list of nodes is looked through together with all that the nodes hold. Every function on it opens one node
at a time: the node itself, then what it holds, then the nodes after it. `forestInduction` is induction along
that order, and each function has one equation for it.

The laws at the end say what changing or taking out one node does to the handles of a forest in which no
handle stands twice.
-/
namespace Trellis

/-- Induction on a list of pieces of markup, of which an element holds such a list again. -/
@[elab_as_elim]
theorem Markup.forestInduction {P : List Markup → Prop} (nil : P [])
    (text : ∀ content ms, P ms → P (.text content :: ms))
    (element : ∀ tag attributes children ms, P children → P ms →
      P (.element tag attributes children :: ms)) : ∀ ms, P ms
  | [] => nil
  | .text _ :: ms => text _ _ (Markup.forestInduction nil text element ms)
  | .element _ _ children :: ms =>
    element _ _ _ _ (Markup.forestInduction nil text element children)
      (Markup.forestInduction nil text element ms)

namespace Tree.Node

/-- Induction on a forest. A text holds nothing, so that one step covers both kinds of nodes. -/
@[elab_as_elim]
theorem forestInduction {P : List Node → Prop} (nil : P [])
    (cons : ∀ n ns, P n.children → P ns → P (n :: ns)) : ∀ ns, P ns
  | [] => nil
  | .element _ _ _ _ children :: ns =>
    cons _ _ (forestInduction nil cons children) (forestInduction nil cons ns)
  | .text .. :: ns => cons _ _ nil (forestInduction nil cons ns)

/-! ### One equation for each function -/

theorem handles_eq (n : Node) : n.handles = n.handle :: handlesAll n.children := by
  cases n <;> simp [handles, handle, children, handlesAll]

@[simp] theorem handlesAll_nil : handlesAll [] = [] := by simp [handlesAll]
@[simp] theorem handlesAll_cons (n : Node) (ns : List Node) :
    handlesAll (n :: ns) = n.handles ++ handlesAll ns := by simp [handlesAll]

theorem find?_eq (h : Handle) (n : Node) :
    n.find? h = if n.handle = h then some n else findAmong? h n.children := by
  cases n <;> rw [find?] <;> rfl

@[simp] theorem findAmong?_nil (h : Handle) : findAmong? h [] = none := by simp [findAmong?]
@[simp] theorem findAmong?_cons (h : Handle) (n : Node) (ns : List Node) :
    findAmong? h (n :: ns) = (n.find? h).or (findAmong? h ns) := by
  rw [findAmong?]
  cases n.find? h <;> rfl

theorem update_eq (h : Handle) (f : Node → Node) (n : Node) :
    n.update h f = if n.handle = h then f n else n.setChildren (updateAmong h f) := by
  cases n <;> rw [update] <;> rfl

@[simp] theorem updateAmong_nil (h : Handle) (f : Node → Node) : updateAmong h f [] = [] := by
  simp [updateAmong]
@[simp] theorem updateAmong_cons (h : Handle) (f : Node → Node) (n : Node) (ns : List Node) :
    updateAmong h f (n :: ns) = n.update h f :: updateAmong h f ns := by simp [updateAmong]

theorem remove_eq (h : Handle) (n : Node) : n.remove h = n.setChildren (removeAmong h) := by
  cases n <;> simp [remove, setChildren]

@[simp] theorem removeAmong_nil (h : Handle) : removeAmong h [] = [] := by simp [removeAmong]
@[simp] theorem removeAmong_cons (h : Handle) (n : Node) (ns : List Node) :
    removeAmong h (n :: ns) =
      if n.handle = h then removeAmong h ns else n.remove h :: removeAmong h ns := by
  simp [removeAmong]

theorem parent?_eq (h : Handle) (n : Node) :
    n.parent? h = if h ∈ n.children.map handle then some n.handle else parentAmong? h n.children := by
  cases n with
  | element h' tag attributes events cs =>
    have hany : cs.any (·.handle = h) = true ↔ h ∈ cs.map handle := by simp
    rw [parent?]
    exact ite_congr (propext hany) (fun _ => rfl) (fun _ => rfl)
  | text => rfl

@[simp] theorem parentAmong?_nil (h : Handle) : parentAmong? h [] = none := by simp [parentAmong?]
@[simp] theorem parentAmong?_cons (h : Handle) (n : Node) (ns : List Node) :
    parentAmong? h (n :: ns) = (n.parent? h).or (parentAmong? h ns) := by
  rw [parentAmong?]
  cases n.parent? h <;> rfl

theorem lineage?_eq (h : Handle) (n : Node) :
    n.lineage? h =
      if n.handle = h then some [h] else (lineageAmong? h n.children).map (· ++ [n.handle]) := by
  cases n with
  | element => rw [lineage?]; simp only [handle, children]; split <;> simp_all
  | text => rw [lineage?]; simp only [handle]; split <;> simp_all [children, lineageAmong?]

@[simp] theorem lineageAmong?_nil (h : Handle) : lineageAmong? h [] = none := by simp [lineageAmong?]
@[simp] theorem lineageAmong?_cons (h : Handle) (n : Node) (ns : List Node) :
    lineageAmong? h (n :: ns) = (n.lineage? h).or (lineageAmong? h ns) := by
  rw [lineageAmong?]
  cases n.lineage? h <;> rfl

theorem freeOrder_eq (n : Node) : n.freeOrder = n.handle :: freeOrderBack n.children := by
  cases n <;> simp [freeOrder, handle, children, freeOrderBack]

@[simp] theorem toMarkupAll_nil : toMarkupAll [] = [] := by simp [toMarkupAll]
@[simp] theorem toMarkupAll_cons (n : Node) (ns : List Node) :
    toMarkupAll (n :: ns) = n.toMarkup :: toMarkupAll ns := by simp [toMarkupAll]

theorem toMarkupAll_append (ms ns : List Node) :
    toMarkupAll (ms ++ ns) = toMarkupAll ms ++ toMarkupAll ns := by
  induction ms with
  | nil => rfl
  | cons m ms ih => simp [ih]

theorem handlesAll_append (ms ns : List Node) :
    handlesAll (ms ++ ns) = handlesAll ms ++ handlesAll ns := by
  induction ms with
  | nil => rfl
  | cons m ms ih => simp [ih]

theorem findAmong?_append (h : Handle) (ms ns : List Node) :
    findAmong? h (ms ++ ns) = (findAmong? h ms).or (findAmong? h ns) := by
  induction ms with
  | nil => rfl
  | cons m ms ih => simp [ih, Option.or_assoc]

/-! ### Changes of one node -/

@[simp] theorem handle_setChildren (f : List Node → List Node) (n : Node) :
    (n.setChildren f).handle = n.handle := by cases n <;> rfl
@[simp] theorem handle_setAttributes (f : Attributes → Attributes) (n : Node) :
    (n.setAttributes f).handle = n.handle := by cases n <;> rfl
@[simp] theorem handle_setContent (content : String) (n : Node) :
    (n.setContent content).handle = n.handle := by cases n <;> rfl
@[simp] theorem handle_addEvent (event : String) (n : Node) :
    (n.addEvent event).handle = n.handle := by cases n <;> rfl
@[simp] theorem handle_remove (h : Handle) (n : Node) : (n.remove h).handle = n.handle := by
  simp [remove_eq]

/-- A change that makes nothing out of nothing also holds of a text, which holds nothing. -/
theorem children_setChildren {f : List Node → List Node} (hf : f [] = []) (n : Node) :
    (n.setChildren f).children = f n.children := by
  cases n <;> simp [setChildren, children, hf]

theorem children_setChildren_of_isText_false {f : List Node → List Node} {n : Node}
    (hn : n.isText = false) : (n.setChildren f).children = f n.children := by
  cases n with
  | element => rfl
  | text => cases hn

@[simp] theorem children_setAttributes (f : Attributes → Attributes) (n : Node) :
    (n.setAttributes f).children = n.children := by cases n <;> rfl
@[simp] theorem children_setContent (content : String) (n : Node) :
    (n.setContent content).children = n.children := by cases n <;> rfl
@[simp] theorem children_addEvent (event : String) (n : Node) :
    (n.addEvent event).children = n.children := by cases n <;> rfl
@[simp] theorem children_remove (h : Handle) (n : Node) :
    (n.remove h).children = removeAmong h n.children := by
  rw [remove_eq, children_setChildren (removeAmong_nil h)]

@[simp] theorem isText_setChildren (f : List Node → List Node) (n : Node) :
    (n.setChildren f).isText = n.isText := by cases n <;> rfl
@[simp] theorem isText_remove (h : Handle) (n : Node) : (n.remove h).isText = n.isText := by
  simp [remove_eq]

/-- Setting children to what they are changes nothing. -/
theorem setChildren_eq_self {f : List Node → List Node} {n : Node} (hf : f n.children = n.children) :
    n.setChildren f = n := by
  cases n with
  | element => exact congrArg _ hf
  | text => rfl

theorem setChildren_setChildren (f g : List Node → List Node) (n : Node) :
    (n.setChildren g).setChildren f = n.setChildren (f ∘ g) := by cases n <;> rfl

/-- The handles of a node depend on its own handle and on what it holds. -/
theorem handles_congr {m n : Node} (hh : m.handle = n.handle) (hc : m.children = n.children) :
    m.handles = n.handles := by rw [handles_eq, handles_eq, hh, hc]

/-! ### Which handles a forest has -/

theorem nodup_handlesAll_cons {n : Node} {ns : List Node} :
    (handlesAll (n :: ns)).Nodup ↔
      n.handle ∉ handlesAll n.children ∧ n.handle ∉ handlesAll ns ∧ (handlesAll n.children).Nodup ∧
        (handlesAll ns).Nodup ∧ ∀ h ∈ handlesAll n.children, h ∉ handlesAll ns := by
  simp only [handlesAll_cons, handles_eq, List.cons_append, List.nodup_cons, List.mem_append, not_or,
    List.nodup_append, and_assoc]
  constructor
  · rintro ⟨hc, hs, hnc, hns, hd⟩
    exact ⟨hc, hs, hnc, hns, fun h hh hs => hd h hh h hs rfl⟩
  · rintro ⟨hc, hs, hnc, hns, hd⟩
    exact ⟨hc, hs, hnc, hns, fun a ha b hb he => hd a ha (he ▸ hb)⟩

theorem findAmong?_eq_none_iff {h : Handle} {ns : List Node} :
    findAmong? h ns = none ↔ h ∉ handlesAll ns := by
  induction ns using forestInduction with
  | nil => simp
  | cons n ns ihc ihs =>
    simp only [findAmong?_cons, find?_eq, handlesAll_cons, handles_eq, Option.or_eq_none_iff, ihs]
    by_cases hn : n.handle = h
    · simp [hn]
    · simp [hn, ihc, Ne.symm hn]

theorem exists_findAmong?_of_mem {h : Handle} {ns : List Node} (hm : h ∈ handlesAll ns) :
    ∃ n, findAmong? h ns = some n := by
  cases hf : findAmong? h ns with
  | none => exact absurd hm (findAmong?_eq_none_iff.mp hf)
  | some n => exact ⟨n, rfl⟩

theorem mem_of_findAmong? {h : Handle} {ns : List Node} {n : Node} (hf : findAmong? h ns = some n) :
    h ∈ handlesAll ns := by
  apply Classical.byContradiction
  intro hm
  rw [findAmong?_eq_none_iff.mpr hm] at hf
  cases hf

/-- What is found has the handle that was looked for. -/
theorem handle_of_findAmong? {h : Handle} {ns : List Node} {n : Node} (hf : findAmong? h ns = some n) :
    n.handle = h := by
  induction ns using forestInduction with
  | nil => simp at hf
  | cons m ns ihc ihs =>
    rw [findAmong?_cons, find?_eq, Option.or_eq_some_iff] at hf
    by_cases hm : m.handle = h
    · simp only [hm, ↓reduceIte, Option.some.injEq, reduceCtorEq, false_and, or_false] at hf
      rw [← hf, hm]
    · rw [if_neg hm] at hf
      rcases hf with hc | ⟨-, hs⟩
      · exact ihc hc
      · exact ihs hs

/-- What is found stands in the forest as a whole. -/
theorem handles_sublist_of_findAmong? {h : Handle} {ns : List Node} {n : Node}
    (hf : findAmong? h ns = some n) : n.handles.Sublist (handlesAll ns) := by
  induction ns using forestInduction with
  | nil => simp at hf
  | cons m ns ihc ihs =>
    simp only [findAmong?_cons, find?_eq, Option.or_eq_some_iff] at hf
    rw [handlesAll_cons]
    by_cases hm : m.handle = h
    · simp only [hm, ↓reduceIte, Option.some.injEq, reduceCtorEq, false_and, or_false] at hf
      rw [← hf]
      exact List.sublist_append_left ..
    · simp only [hm, ↓reduceIte] at hf
      obtain hc | ⟨-, hs⟩ := hf
      · rw [handles_eq m]
        exact ((ihc hc).cons _).trans (List.sublist_append_left ..)
      · exact (ihs hs).trans (List.sublist_append_right ..)

/-! ### Looking for a handle that is not there -/

theorem updateAmong_of_not_mem {h : Handle} {ns : List Node} (f : Node → Node)
    (hm : h ∉ handlesAll ns) : updateAmong h f ns = ns := by
  induction ns using forestInduction with
  | nil => simp
  | cons n ns ihc ihs =>
    simp only [handlesAll_cons, handles_eq, List.cons_append, List.mem_cons, List.mem_append,
      not_or] at hm
    obtain ⟨hn, hc, hs⟩ := hm
    rw [updateAmong_cons, update_eq, if_neg (Ne.symm hn), setChildren_eq_self (ihc hc), ihs hs]

theorem removeAmong_of_not_mem {h : Handle} {ns : List Node} (hm : h ∉ handlesAll ns) :
    removeAmong h ns = ns := by
  induction ns using forestInduction with
  | nil => simp
  | cons n ns ihc ihs =>
    simp only [handlesAll_cons, handles_eq, List.cons_append, List.mem_cons, List.mem_append,
      not_or] at hm
    obtain ⟨hn, hc, hs⟩ := hm
    rw [removeAmong_cons, if_neg (Ne.symm hn), remove_eq, setChildren_eq_self (ihc hc), ihs hs]

/-! ### Changing one node of a forest -/

/-- Two changes of the same node are one. -/
theorem updateAmong_updateAmong {h : Handle} {g : Node → Node} (f : Node → Node)
    (hg : ∀ n, (g n).handle = n.handle) (ns : List Node) :
    updateAmong h f (updateAmong h g ns) = updateAmong h (f ∘ g) ns := by
  induction ns using forestInduction with
  | nil => simp
  | cons n ns ihc ihs =>
    simp only [updateAmong_cons, ihs, List.cons.injEq, and_true]
    by_cases hn : n.handle = h
    · simp [update_eq, hn, hg]
    · rw [update_eq h g, if_neg hn, update_eq h f, handle_setChildren, if_neg hn,
        setChildren_setChildren, update_eq, if_neg hn]
      cases n with
      | element => exact congrArg _ ihc
      | text => rfl

/-- Only what a change does to nodes of that handle matters. -/
theorem updateAmong_congr {h : Handle} {f g : Node → Node} (ns : List Node)
    (hfg : ∀ n, n.handle = h → f n = g n) : updateAmong h f ns = updateAmong h g ns := by
  induction ns using forestInduction with
  | nil => simp
  | cons n ns ihc ihs =>
    simp only [updateAmong_cons, ihs, List.cons.injEq, and_true]
    by_cases hn : n.handle = h
    · simp [update_eq, hn, hfg n hn]
    · rw [update_eq, if_neg hn, update_eq, if_neg hn]
      cases n with
      | element => exact congrArg _ ihc
      | text => rfl

theorem findAmong?_updateAmong_self {h : Handle} {f : Node → Node}
    (hf : ∀ n, (f n).handle = n.handle) (ns : List Node) :
    findAmong? h (updateAmong h f ns) = (findAmong? h ns).map f := by
  induction ns using forestInduction with
  | nil => simp
  | cons n ns ihc ihs =>
    by_cases hn : n.handle = h
    · simp [update_eq, find?_eq, hn, hf]
    · simp only [updateAmong_cons, findAmong?_cons, update_eq, if_neg hn, find?_eq, handle_setChildren,
        children_setChildren (updateAmong_nil h f), ihc, ihs]
      cases findAmong? h n.children <;> rfl

/-- The handles of the changed node are exchanged, and all others stay. -/
theorem handlesAll_updateAmong_perm {h : Handle} {n : Node} {ns : List Node} (f : Node → Node)
    (hd : (handlesAll ns).Nodup) (hf : findAmong? h ns = some n) :
    (handlesAll (updateAmong h f ns) ++ n.handles).Perm (handlesAll ns ++ (f n).handles) := by
  rw [List.perm_iff_count]
  intro x
  induction ns using forestInduction with
  | nil => simp at hf
  | cons m ns ihc ihs =>
    obtain ⟨-, hms, hdc, hds, hcs⟩ := nodup_handlesAll_cons.mp hd
    simp only [findAmong?_cons, find?_eq, Option.or_eq_some_iff] at hf
    by_cases hm : m.handle = h
    · simp only [hm, ↓reduceIte, Option.some.injEq, reduceCtorEq, false_and, or_false] at hf
      subst hf
      rw [updateAmong_cons, update_eq, if_pos hm, updateAmong_of_not_mem f (hm ▸ hms)]
      simp only [handlesAll_cons, List.count_append]
      omega
    · simp only [hm, ↓reduceIte] at hf
      rw [updateAmong_cons, update_eq, if_neg hm]
      simp only [handlesAll_cons, handles_eq (m.setChildren _), handle_setChildren,
        children_setChildren (updateAmong_nil h f), handles_eq m, List.count_append, List.count_cons]
      obtain hc | ⟨hc, hs⟩ := hf
      · have ih := ihc hdc hc
        simp only [List.count_append] at ih
        rw [updateAmong_of_not_mem f (hcs h (mem_of_findAmong? hc))]
        omega
      · have ih := ihs hds hs
        simp only [List.count_append] at ih
        rw [updateAmong_of_not_mem f (findAmong?_eq_none_iff.mp hc)]
        omega

theorem handlesAll_updateAmong {h : Handle} {f : Node → Node}
    (hf : ∀ n, (f n).handles = n.handles) (ns : List Node) :
    handlesAll (updateAmong h f ns) = handlesAll ns := by
  induction ns using forestInduction with
  | nil => simp
  | cons n ns ihc ihs =>
    simp only [updateAmong_cons, handlesAll_cons, ihs, List.append_cancel_right_eq]
    by_cases hn : n.handle = h
    · rw [update_eq, if_pos hn, hf]
    · rw [update_eq, if_neg hn, handles_eq, handle_setChildren,
        children_setChildren (updateAmong_nil h f), ihc, ← handles_eq]

/-! ### Taking one node out of a forest -/

theorem handlesAll_removeAmong_perm {h : Handle} {n : Node} {ns : List Node}
    (hd : (handlesAll ns).Nodup) (hf : findAmong? h ns = some n) :
    (n.handles ++ handlesAll (removeAmong h ns)).Perm (handlesAll ns) := by
  rw [List.perm_iff_count]
  intro x
  induction ns using forestInduction with
  | nil => simp at hf
  | cons m ns ihc ihs =>
    obtain ⟨-, hms, hdc, hds, hcs⟩ := nodup_handlesAll_cons.mp hd
    simp only [findAmong?_cons, find?_eq, Option.or_eq_some_iff] at hf
    by_cases hm : m.handle = h
    · simp only [hm, ↓reduceIte, Option.some.injEq, reduceCtorEq, false_and, or_false] at hf
      subst hf
      rw [removeAmong_cons, if_pos hm, removeAmong_of_not_mem (hm ▸ hms), handlesAll_cons]
    · simp only [hm, ↓reduceIte] at hf
      rw [removeAmong_cons, if_neg hm]
      simp only [handlesAll_cons, handles_eq (m.remove h), handle_remove, children_remove, handles_eq m,
        List.count_append, List.count_cons]
      obtain hc | ⟨hc, hs⟩ := hf
      · have ih := ihc hdc hc
        simp only [List.count_append] at ih
        rw [removeAmong_of_not_mem (hcs h (mem_of_findAmong? hc))]
        omega
      · have ih := ihs hds hs
        simp only [List.count_append] at ih
        rw [removeAmong_of_not_mem (findAmong?_eq_none_iff.mp hc)]
        omega

/-- A node outside the one taken out is found as before, less what was taken out of it. -/
theorem findAmong?_removeAmong {h x : Handle} {ns : List Node} (hd : (handlesAll ns).Nodup)
    (hx : ∀ n, findAmong? h ns = some n → x ∉ n.handles) :
    findAmong? x (removeAmong h ns) = (findAmong? x ns).map (remove h) := by
  induction ns using forestInduction with
  | nil => simp
  | cons m ns ihc ihs =>
    obtain ⟨-, hms, hdc, hds, hcs⟩ := nodup_handlesAll_cons.mp hd
    have hxs : ∀ n, findAmong? h ns = some n → x ∉ n.handles := by
      intro n hn
      apply hx n
      have hc : findAmong? h m.children = none :=
        findAmong?_eq_none_iff.mpr fun hc => hcs h hc (mem_of_findAmong? hn)
      have hm : m.handle ≠ h := fun hm => hms (hm ▸ mem_of_findAmong? hn)
      simp [find?_eq, hm, hc, hn]
    rw [removeAmong_cons]
    by_cases hm : m.handle = h
    · have hxm : x ∉ m.handles := hx m (by simp [find?_eq, hm])
      rw [handles_eq, List.mem_cons, not_or] at hxm
      have hxc : findAmong? x m.children = none := findAmong?_eq_none_iff.mpr hxm.2
      rw [if_pos hm, ihs hds hxs, findAmong?_cons, find?_eq, if_neg (Ne.symm hxm.1), hxc, Option.none_or]
    · have hxc : ∀ n, findAmong? h m.children = some n → x ∉ n.handles := by
        intro n hn
        apply hx n
        simp [find?_eq, hm, hn]
      rw [if_neg hm, findAmong?_cons, findAmong?_cons, ihs hds hxs, find?_eq, find?_eq, handle_remove,
        children_remove, ihc hdc hxc]
      by_cases hmx : m.handle = x
      · simp [hmx]
      · simp only [hmx, ↓reduceIte]
        cases findAmong? x m.children <;> rfl

end Tree.Node
end Trellis
