import Trellis.Proofs.Engine.Nesting
import Trellis.Proofs.Tree.Rows

/-!
# Code only appends

What code adds to a tree stands behind what was there: the nodes that were live stay live, with their rows and their
parents, and only the row of the innermost frame's target gets longer. This needs that target to be a live element. The
engines that a request comes to run code on are followed step by step for it: a container makes its own element for the
code inside, a conditional goes on with the target it finds, and the outermost target is the mounted node.
-/
namespace Trellis

open Tree (Handle Node Grown)

namespace Tree

namespace Node

theorem data_extend (ns : List Node) (events : List String) (n : Node) : (n.extend ns events).data = n.data :=
  extend_eq data_setChildren data_addEvent ns events n

theorem events_addEvent (event : String) (n : Node) :
    (n.addEvent event).events = if event ∈ n.events then n.events else n.events ++ [event] := by
  cases n <;> rfl

/-- Events come after those that are recorded, unless they are among them. -/
theorem exists_events_extend (ns : List Node) (events : List String) (n : Node) :
    ∃ names, (n.extend ns events).events = n.events ++ names ∧ ∀ a ∈ names, a ∉ n.events := by
  have key : ∀ n : Node, ∃ names, (events.foldl (fun n event => n.addEvent event) n).events = n.events ++ names ∧
      ∀ a ∈ names, a ∉ n.events := by
    induction events with
    | nil => exact fun n => ⟨[], (List.append_nil _).symm, by simp⟩
    | cons event events ih =>
      intro n
      obtain ⟨names, heq, hnew⟩ := ih (n.addEvent event)
      rw [List.foldl_cons, heq]
      rw [events_addEvent] at hnew ⊢
      split at hnew
      · next hin => exact ⟨names, by rw [if_pos hin], hnew⟩
      · next hin =>
        refine ⟨event :: names, by rw [if_neg hin, List.append_assoc]; rfl, ?_⟩
        intro a ha
        rcases List.mem_cons.1 ha with rfl | ha
        · exact hin
        · exact fun hold => hnew a ha (List.mem_append_left _ hold)
  obtain ⟨names, heq, hnew⟩ := key (n.setChildren (· ++ ns))
  rw [events_setChildren] at heq hnew
  exact ⟨names, heq, hnew⟩

theorem handlesAll_updateAmong_extend_perm {h : Handle} {l : List Node} {n : Node} (hd : (handlesAll l).Nodup)
    (hn : findAmong? h l = some n) (htext : n.isText = false) (ns : List Node) (events : List String) :
    (handlesAll (updateAmong h (.extend ns events) l)).Perm (handlesAll l ++ handlesAll ns) := by
  have hp := handlesAll_updateAmong_perm (.extend ns events) hd hn
  rw [List.perm_iff_count] at hp ⊢
  intro x
  have hx := hp x
  simp only [handles_eq, handle_extend, children_extend htext, handlesAll_append, List.count_append,
    List.count_cons] at hx ⊢
  omega

end Node

/-- Every node is as it was, except that new nodes follow the children of one of them and new events those recorded
there. -/
structure Appended (target : Handle) (t t' : Tree) (new : List Handle) (names : List String) : Prop where
  rows : ∀ x r, t.row? x = some r →
    t'.row? x =
      some (if x = target then { r with children := r.children ++ new, events := r.events ++ names } else r)
  parents : ∀ x, t.contains x = true → t'.parent? x = t.parent? x
  new : ∀ x ∈ new, t.contains x = false
  names : ∀ a ∈ names, a ∉ t.events target

namespace Grown

variable {t t' : Tree} {h x : Handle} {n : Node} {ns : List Node} {events : List String}

/-- What is added is new to the tree. -/
theorem not_mem_added (hg : Grown h t t' ns events) (ht : t.Sound) (hn : t.find? h = some n) (htext : n.isText = false)
    (hx : t.contains x = true) : x ∉ Node.handlesAll ns := by
  obtain ⟨stray, -, hnodes⟩ := hg.nodes
  have hd := hnodes ▸ hg.sound.nodup
  rw [Node.handlesAll_append] at hd
  have hd' := (Node.handlesAll_updateAmong_extend_perm ht.nodup hn htext ns events).nodup (List.nodup_append.1 hd).2.1
  exact fun hin => (List.nodup_append.1 hd').2.2 x (contains_iff.1 hx) x hin rfl

theorem row?_other (hg : Grown h t t' ns events) (ht : t.Sound) (hn : t.find? h = some n) (htext : n.isText = false)
    (hx : t.contains x = true) (hne : x ≠ h) : t'.row? x = t.row? x := by
  obtain ⟨stray, -, hnodes⟩ := hg.nodes
  have hadded := Node.findAmong?_eq_none_iff.2 (hg.not_mem_added ht hn htext hx)
  have hin : x ∈ Node.handlesAll (Node.updateAmong h (.extend ns events) t.nodes) :=
    (Node.handlesAll_updateAmong_extend_perm ht.nodup hn htext ns events).mem_iff.2
      (List.mem_append_left _ (contains_iff.1 hx))
  have hstray := Node.findAmong?_eq_none_iff.2 (Node.not_mem_before (hnodes ▸ hg.sound.nodup) hin)
  rw [row?, Tree.find?, hnodes, Node.findAmong?_append, hstray, Option.none_or]
  refine Node.row_updateAmong (Node.handle_extend ns events) ht.nodup hn hne ?_
  rw [Node.children_extend htext, Node.findAmong?_append, hadded, Option.or_none]

theorem parent?_kept (hg : Grown h t t' ns events) (ht : t.Sound) (hx : t.contains x = true)
    (hrows : ∀ y r, t.row? y = some r → ∃ r', t'.row? y = some r' ∧ r.children ⊆ r'.children) :
    t'.parent? x = t.parent? x := by
  cases hp : t.parent? x with
  | some y =>
    obtain ⟨r, hr, hin⟩ := ht.parent?_iff_row?.1 hp
    obtain ⟨r', hr', hsub⟩ := hrows y r hr
    exact hg.sound.parent?_iff_row?.2 ⟨r', hr', hsub hin⟩
  | none =>
    -- a node at the top stays there
    obtain ⟨stray, -, hnodes⟩ := hg.nodes
    have htop := (Node.mem_handlesAll_iff_top.1 (contains_iff.1 hx)).resolve_right (Node.parentAmong?_eq_none_iff.1 hp)
    refine Node.parentAmong?_of_top hg.sound.nodup ?_
    rw [hnodes, List.map_append, Node.map_handle_updateAmong (Node.handle_extend ns events)]
    exact List.mem_append_right _ htop

theorem appended (hg : Grown h t t' ns events) (ht : t.Sound) (hn : t.find? h = some n) (htext : n.isText = false) :
    ∃ names, Appended h t t' (ns.map Node.handle) names := by
  obtain ⟨names, hevents, hnames⟩ := Node.exists_events_extend ns events n
  have hrows : ∀ x r, t.row? x = some r → t'.row? x =
      some (if x = h then { r with children := r.children ++ ns.map Node.handle, events := r.events ++ names }
        else r) := by
    intro x r hr
    by_cases hxh : x = h
    · subst hxh
      rw [row?, hn, Option.map_some, Option.some.injEq] at hr
      rw [row?, hg.find? hn, Option.map_some, if_pos rfl, Node.row, Node.data_extend, Node.children_extend htext,
        hevents, List.map_append, ← hr]
      rfl
    · obtain ⟨m, hm, -⟩ := Option.map_eq_some_iff.1 hr
      rw [if_neg hxh, hg.row?_other ht hn htext (contains_iff.2 (Node.mem_of_findAmong? hm)) hxh, hr]
  refine ⟨names, hrows, fun x hx => hg.parent?_kept ht hx fun y r hr => ⟨_, hrows y r hr, ?_⟩, ?_, ?_⟩
  · split
    · exact List.subset_append_left ..
    · exact List.Subset.refl _
  · intro x hx
    refine Bool.eq_false_iff.2 fun hlive => hg.not_mem_added ht hn htext hlive ?_
    exact Node.mem_handlesAll_iff_top.2 (.inl hx)
  · intro a ha
    rw [Tree.events, hn, Option.map_some, Option.getD_some]
    exact hnames a ha

end Grown
end Tree

/-! ### Where code runs -/

/-- An engine that code comes to run on in the course of requests, or that is left by an instruction. -/
inductive Engine.Visited : Engine → Prop
  | rest {e : Engine} (he : e.Reachable) : Visited e
  | start {e e₁ : Engine} {n : Nat} {r : Request} {entry : Option Entry} {code : List Instruction} (he : e.Reachable)
    (hs : r.Starts n e entry code e₁) : Visited e₁
  | step {e e₁ : Engine} {n : Nat} {i : Instruction} {j : List Diagnostic} (he : Visited e)
    (h : Action.step (Action.execute n) i e = .done () e₁ j) : Visited e₁
  | enter {e e₁ : Engine} {i : Instruction} {entry : Entry} {code : List Instruction} (he : Visited e)
    (h : Enters e i entry code e₁) : Visited e₁

/-- The innermost target is the mounted node or a live element. -/
structure Engine.Aimed (e : Engine) (h : Handle) : Prop where
  sound : e.tree.Sound
  target : e.frames.head?.map (·.target) = some h
  element : h = e.mount ∨ ∃ n, e.tree.find? h = some n ∧ n.isText = false

namespace Engine.Aimed

variable {e e₁ : Engine} {h : Handle}

theorem writable (ha : e.Aimed h) (hm : e.Mounted) : e.Writable h := by
  refine ⟨ha.sound, ha.target, ?_⟩
  rcases ha.element with rfl | hn
  · exact hm
  · exact hn

theorem of_atRest (he : e.AtRest) : e.Aimed e.mount :=
  ⟨he.sound, by rw [he.frames]; rfl, .inl rfl⟩

/-- An instruction leaves the target as it was. -/
theorem step {n : Nat} {i : Instruction} {j : List Diagnostic} (ha : e.Aimed h)
    (hs : Action.step (Action.execute n) i e = .done () e₁ j) : e₁.Aimed h := by
  have hgrows := Action.closed_grows.step (Action.closed_grows.execute n) i e
  have hsteady := Action.stable_steady.closed.step (Action.stable_steady.closed.execute n) i e
  rw [hs] at hgrows hsteady
  refine ⟨hsteady.sound ha.sound, by rw [hgrows.frames, ha.target], ?_⟩
  rcases ha.element with rfl | hn
  · exact .inl hgrows.mount.symm
  · exact .inr (hgrows.writable ⟨ha.sound, ha.target, hn⟩).element

end Engine.Aimed

namespace Action

variable {e e₁ : Engine} {h : Handle}

/-- A container that opens a frame runs its code inside its new element. -/
theorem hands_opened (ht : e.tree.Sound) (hplain : e.context.plain = false) (site : Nat) (enclosure : Enclosure) :
    Hands (container site enclosure) e (e.opened site enclosure) := by
  rw [Context.plain, Bool.or_eq_false_iff, Bool.not_eq_false', decide_eq_false_iff_not] at hplain
  intro body
  obtain ⟨journal, hrun⟩ := @container_eq site enclosure body e ht hplain.1 hplain.2
  rw [hrun, Outcome.after_eq_tooDeep]
  cases body (e.opened site enclosure) with
  | tooDeep => exact Iff.rfl
  | failed fault e' j => exact ⟨nofun, nofun⟩
  | done a e' j =>
    rw [Outcome.after_eq_tooDeep]
    exact ⟨fun hdeep => absurd hdeep (halts_close _ _ _), nofun⟩

/-- The code of a conditional runs in a frame on the same target. -/
theorem Hands.conditional_target {site : Nat} (hh : Hands (conditional site) e e₁)
    (ht : e.frames.head?.map (·.target) = some h) :
    e₁.tree = e.tree ∧ e₁.mount = e.mount ∧ e₁.frames.head?.map (·.target) = some h := by
  have hrun := fun body => conditional_eq site body ht
  have hdeep : conditional site tooDeep e = .tooDeep := (hh tooDeep).2 rfl
  cases hs : e.stack with
  | nil =>
    obtain ⟨journal, hnil⟩ := hrun tooDeep
    rw [hs] at hnil
    exact nomatch hnil.symm.trans hdeep
  | cons v stack =>
    simp only [hs] at hrun
    cases hv : v.isTrue with
    | false =>
      obtain ⟨journal, hskip⟩ := hrun tooDeep
      rw [if_neg (by rw [hv]; exact Bool.false_ne_true)] at hskip
      exact nomatch hskip.symm.trans hdeep
    | true =>
      have hin : Hands (conditional site) e
          { e with stack, frames := ⟨site, e.context.code, h, .conditional⟩ :: e.frames } := by
        intro body
        obtain ⟨journal, hbody⟩ := hrun body
        rw [hbody, if_pos hv, Outcome.after_eq_tooDeep, Outcome.mapEngine_eq_tooDeep]
      obtain rfl := hh.unique hin
      exact ⟨rfl, rfl, rfl⟩

end Action

namespace Engine.Aimed

variable {e e₁ : Engine} {h : Handle}

theorem container {site : Nat} {enclosure : Enclosure} (ha : e.Aimed h)
    (hh : Action.Hands (Action.container site enclosure) e e₁) : ∃ h', e₁.Aimed h' := by
  cases hplain : e.context.plain with
  | true =>
    have hsame := (Action.nests_container site enclosure e).holds hh
    rw [if_pos hplain] at hsame
    exact ⟨h, hsame ▸ ha⟩
  | false =>
    obtain rfl := hh.unique (Action.hands_opened ha.sound hplain site enclosure)
    have hw := Action.opened_writable ha.sound site enclosure
    exact ⟨_, hw.sound, hw.target, .inr hw.element⟩

theorem conditional {site : Nat} (ha : e.Aimed h) (hh : Action.Hands (Action.conditional site) e e₁) : e₁.Aimed h := by
  obtain ⟨htree, hmount, htarget⟩ := hh.conditional_target ha.target
  exact ⟨htree ▸ ha.sound, htarget, by rw [hmount, htree]; exact ha.element⟩

theorem enters {i : Instruction} {entry : Entry} {code : List Instruction} (ha : e.Aimed h)
    (hin : Enters e i entry code e₁) : ∃ h', e₁.Aimed h' := by
  have hreg : ∀ id, (e.registered id).Aimed h := fun id => ⟨ha.sound, ha.target, ha.element⟩
  cases hin with
  | container hh => exact (hreg _).container hh
  | conditional hh => exact ⟨h, (hreg _).conditional hh⟩
  | call => exact ⟨h, ha.sound, ha.target, ha.element⟩

theorem starts {n : Nat} {r : Request} {entry : Option Entry} {code : List Instruction} (he : e.AtRest)
    (hs : r.Starts n e entry code e₁) : ∃ h', e₁.Aimed h' := by
  cases hs with
  | execute => exact ⟨_, of_atRest he⟩
  | container hh => exact (of_atRest he).container hh
  | conditional hh => exact ⟨_, (of_atRest he).conditional hh⟩
  | call hc =>
    have hrest := of_atRest (hc.related Action.hosted_rests.staged Action.hosted_rests.focus he)
    exact ⟨_, hrest.sound, hrest.target, hrest.element⟩

end Engine.Aimed

theorem Engine.Visited.aimed {e : Engine} (he : e.Visited) : ∃ h, e.Aimed h := by
  induction he with
  | rest he => exact ⟨_, .of_atRest he.atRest⟩
  | start he hs => exact Aimed.starts he.atRest hs
  | step _ hstep ih =>
    obtain ⟨h, ha⟩ := ih
    exact ⟨h, ha.step hstep⟩
  | enter _ hin ih =>
    obtain ⟨h, ha⟩ := ih
    exact ha.enters hin

/-- A container that opens a frame leads from one visited engine to another. -/
theorem Engine.Visited.opened {e : Engine} (he : e.Visited) (hplain : e.context.plain = false) (id : Key)
    (enclosure : Enclosure) : ((e.registered id).opened (e.sites.resolve id).1 enclosure).Visited := by
  obtain ⟨h, ha⟩ := he.aimed
  have hin : Enters e (.container id enclosure []) .container [] _ :=
    .container (@Action.hands_opened (e.registered id) ha.sound hplain (e.sites.resolve id).1 enclosure)
  exact .enter he hin

/-- Code of any length and depth, run wherever code comes to run while the mounted node is a live element, takes nothing
away and changes nothing: however it ends, every node is as it was, but for what has been appended to the innermost
frame's target. -/
theorem code_appends_only {e : Engine} (he : e.Visited) (hm : e.Mounted) :
    ∃ target, e.frames.head?.map (·.target) = some target ∧
      ∀ n code, (Action.execute n code e).Leaves fun e' =>
        ∃ new names, Tree.Appended target e.tree e'.tree new names := by
  obtain ⟨target, ha⟩ := he.aimed
  have hw := ha.writable hm
  obtain ⟨n, hn, htext⟩ := hw.element
  refine ⟨target, ha.target, fun fuel code => ?_⟩
  refine (Action.closed_grows.execute fuel code e).mono fun e' hg => ?_
  obtain ⟨ns, events, hgrown⟩ := hg.tree target hw
  exact ⟨_, hgrown.appended ha.sound hn htext⟩

/-- A new engine inside a container. -/
def contained : Engine :=
  ((Engine.new {}).registered (.symbol "a")).opened ((Engine.new {}).sites.resolve (.symbol "a")).1 .plain

theorem code_appends_only_contained :
    contained.Mounted ∧
      ∃ target, contained.frames.head?.map (·.target) = some target ∧ target ≠ contained.mount ∧
        ∀ n code, (Action.execute n code contained).Leaves fun e' =>
          ∃ new names, Tree.Appended target contained.tree e'.tree new names := by
  have hvisited : contained.Visited := .opened (.rest (.new {})) rfl (.symbol "a") .plain
  have hmount : (contained.tree.find? contained.mount).map Node.isText = some false := by decide +kernel
  have hframe : contained.frames.head?.map (·.target) = some ⟨1, 0⟩ := by decide +kernel
  have hother : (⟨1, 0⟩ : Handle) ≠ contained.mount := by decide +kernel
  have hmounted : contained.Mounted := Option.map_eq_some_iff.1 hmount
  obtain ⟨target, htarget, hleaves⟩ := code_appends_only hvisited hmounted
  rw [hframe, Option.some.injEq] at htarget
  exact ⟨hmounted, target, by rw [hframe, htarget], htarget ▸ hother, hleaves⟩

end Trellis
