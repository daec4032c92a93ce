import Trellis.Proofs.Tree.Growth

/-!
# The events recorded in a tree

A node keeps the events that listeners have been registered for. Here they are collected over a node and all that it
holds, each with the handle of its node. New nodes come without events, and a node that grows keeps the events that it
has.
-/
namespace Trellis.Tree

namespace Node

mutual

/-- The events recorded on a node and on all that it holds, with the handles of their nodes. -/
def recorded : Node → List (Handle × String)
  | .element h _ _ events children => events.map (h, ·) ++ recordedAll children
  | .text h _ events => events.map (h, ·)

def recordedAll : List Node → List (Handle × String)
  | [] => []
  | n :: ns => recorded n ++ recordedAll ns

end

theorem recorded_eq (n : Node) : n.recorded = n.events.map (n.handle, ·) ++ recordedAll n.children := by
  cases n <;> simp [recorded, recordedAll, events, handle, children]

@[simp] theorem recordedAll_nil : recordedAll [] = [] := by simp [recordedAll]

@[simp] theorem recordedAll_cons (n : Node) (ns : List Node) :
    recordedAll (n :: ns) = n.recorded ++ recordedAll ns := by
  simp [recordedAll]

theorem recordedAll_append (ms ns : List Node) : recordedAll (ms ++ ns) = recordedAll ms ++ recordedAll ns := by
  induction ms with
  | nil => simp
  | cons m ms ih => simp [ih]

theorem mem_recorded {n : Node} {x : Handle} {event : String} :
    (x, event) ∈ n.recorded ↔ (x = n.handle ∧ event ∈ n.events) ∨ (x, event) ∈ recordedAll n.children := by
  rw [recorded_eq, List.mem_append, List.mem_map]
  refine or_congr_left ⟨?_, ?_⟩
  · rintro ⟨_, he, h⟩
    cases h
    exact ⟨rfl, he⟩
  · rintro ⟨rfl, he⟩
    exact ⟨event, he, rfl⟩

/-- Events are recorded on nodes that are there. -/
theorem mem_handlesAll_of_recorded {ns : List Node} {x : Handle} {event : String} (h : (x, event) ∈ recordedAll ns) :
    x ∈ handlesAll ns := by
  induction ns using forestInduction with
  | nil => simp at h
  | cons n ns ihc ihs =>
    rw [recordedAll_cons, List.mem_append, mem_recorded] at h
    rw [handlesAll_cons, handles_eq, List.mem_append, List.mem_cons]
    rcases h with (⟨hx, -⟩ | h) | h
    · exact .inl (.inl hx)
    · exact .inl (.inr (ihc h))
    · exact .inr (ihs h)

theorem mem_recordedAll_iff {ns : List Node} (hd : (handlesAll ns).Nodup) {x : Handle} {event : String} :
    (x, event) ∈ recordedAll ns ↔ ∃ n, findAmong? x ns = some n ∧ event ∈ n.events := by
  induction ns using forestInduction with
  | nil => simp
  | cons m ns ihc ihs =>
    obtain ⟨hmc, hms, hdc, hds, hcs⟩ := nodup_handlesAll_cons.1 hd
    rw [recordedAll_cons, List.mem_append, mem_recorded, ihc hdc, ihs hds, findAmong?_cons, find?_eq]
    by_cases hm : m.handle = x
    · subst hm
      rw [if_pos rfl, findAmong?_eq_none_iff.2 hmc, findAmong?_eq_none_iff.2 hms]
      simp
    · rw [if_neg hm]
      cases hc : findAmong? x m.children with
      | none => simp [Ne.symm hm]
      | some n =>
        rw [findAmong?_eq_none_iff.2 fun hs => hcs x (mem_of_findAmong? hc) hs]
        simp [Ne.symm hm]

/-! ### Events of a node that grows -/

@[simp] theorem events_setChildren (f : List Node → List Node) (n : Node) : (n.setChildren f).events = n.events := by
  cases n <;> rfl

@[simp] theorem events_setAttributes (f : Attributes → Attributes) (n : Node) :
    (n.setAttributes f).events = n.events := by
  cases n <;> rfl

theorem mem_events_addEvent {n : Node} {event event' : String} :
    event' ∈ (n.addEvent event).events ↔ event' ∈ n.events ∨ event' = event := by
  have key : ∀ l : List String, event' ∈ (if event ∈ l then l else l ++ [event]) ↔ event' ∈ l ∨ event' = event := by
    intro l
    split
    · next h => exact ⟨.inl, fun h' => h'.elim id fun he => he ▸ h⟩
    · simp
  cases n with
  | element => exact key _
  | text => exact key _

theorem mem_events_extend {n : Node} {ns : List Node} {more : List String} {event : String} :
    event ∈ (n.extend ns more).events ↔ event ∈ n.events ∨ event ∈ more := by
  have key : ∀ n : Node, event ∈ (more.foldl (fun n event => n.addEvent event) n).events ↔
      event ∈ n.events ∨ event ∈ more := by
    induction more with
    | nil => simp
    | cons e more ih =>
      intro n
      rw [List.foldl_cons, ih, mem_events_addEvent, List.mem_cons, or_assoc]
  rw [extend, key, events_setChildren]

/-! ### New nodes -/

theorem recorded_setAttributes (f : Attributes → Attributes) (n : Node) :
    (n.setAttributes f).recorded = n.recorded := by
  rw [recorded_eq, recorded_eq]
  simp

theorem recordedAll_map_setAttributes (f : Attributes → Attributes) (ns : List Node) :
    recordedAll (ns.map (.setAttributes f)) = recordedAll ns := by
  induction ns with
  | nil => simp
  | cons n ns ih => simp [ih, recorded_setAttributes]

/-- The nodes made from markup have no events. -/
theorem recordedAll_ofMarkupAll (pool : Pool) (ms : List Markup) : recordedAll (ofMarkupAll pool ms).1 = [] := by
  induction ms using Markup.forestInduction generalizing pool with
  | nil => simp [ofMarkupAll]
  | text content ms ih => simp [ofMarkupAll, ofMarkup, recorded, ih]
  | element tag attributes children ms ihc ihs => simp [ofMarkupAll, ofMarkup, recorded, ihc, ihs]

/-! ### Nodes below a node -/

/-- What stands below a node is found from there as from the top. -/
theorem findAmong?_below {h x : Handle} {ns : List Node} {m : Node} (hd : (handlesAll ns).Nodup)
    (hm : findAmong? h ns = some m) (hx : x ∈ handlesAll m.children) : findAmong? x ns = findAmong? x m.children := by
  have hsub : ∀ {l : List Node}, findAmong? h l = some m → x ∈ handlesAll l := by
    intro l hl
    refine (handles_sublist_of_findAmong? hl).subset ?_
    rw [handles_eq]
    exact List.mem_cons_of_mem _ hx
  obtain ⟨n', hn'⟩ := exists_findAmong?_of_mem hx
  induction ns using forestInduction with
  | nil => simp at hm
  | cons n ns ihc ihs =>
    obtain ⟨hnc, hns, hdc, hds, hcs⟩ := nodup_handlesAll_cons.1 hd
    rw [findAmong?_cons, find?_eq] at hm ⊢
    by_cases hn : n.handle = h
    · rw [if_pos hn, Option.some_or, Option.some.injEq] at hm
      subst hm
      have hne : n.handle ≠ x := fun he => hnc (he ▸ hx)
      rw [if_neg hne, hn', Option.some_or]
    · rw [if_neg hn] at hm
      cases hc : findAmong? h n.children with
      | some m' =>
        rw [hc, Option.some_or, Option.some.injEq] at hm
        subst hm
        have hne : n.handle ≠ x := fun he => hnc (he ▸ hsub hc)
        rw [if_neg hne, ihc hdc hc, hn', Option.some_or]
      | none =>
        rw [hc, Option.none_or] at hm
        have hne : n.handle ≠ x := fun he => hns (he ▸ hsub hm)
        rw [if_neg hne, findAmong?_eq_none_iff.2 fun hin => hcs x hin (hsub hm), Option.none_or, ihs hds hm]

end Node

theorem contains_of_mem_events {t : Tree} {h : Handle} {event : String} (he : event ∈ t.events h) :
    t.contains h = true := by
  rw [events] at he
  rw [contains]
  cases hf : t.find? h with
  | none => simp [hf] at he
  | some n => rfl

/-- The events of a node below another are those that are recorded below it. -/
theorem Sound.mem_events_below_iff {t : Tree} (ht : t.Sound) {h x : Handle} {m : Node} (hm : t.find? h = some m)
    (hx : x ∈ Node.handlesAll m.children) {event : String} :
    event ∈ t.events x ↔ (x, event) ∈ Node.recordedAll m.children := by
  have hd : (Node.handlesAll m.children).Nodup := by
    have hin := (Node.handles_sublist_of_findAmong? hm).nodup ht.nodup
    rw [Node.handles_eq] at hin
    exact (List.nodup_cons.1 hin).2
  rw [Node.mem_recordedAll_iff hd, events, find?, Node.findAmong?_below ht.nodup hm hx]
  cases Node.findAmong? x m.children <;> simp

end Trellis.Tree
