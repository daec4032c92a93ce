import Trellis.Proofs.Engine.Trace
import Trellis.Proofs.Tree.Generations
import Trellis.Proofs.Tree.Within

/-!
# Where listeners end up

Code binds a listener to the node that output goes to at that moment. Inside a container this is the container's
element, which is appended when the container ends; but the element of a root container is released, and only what it
holds is kept. So a listener that has been bound there is lost. `marks` follows a run and tells of each listener that
it binds whether it ends up on the node that the run writes to, on a node that the run has added to it, or on an
element that has been released. Apart from listeners it marks where a node may be released. Running code attaches
listeners as the marks say: the listeners, the events recorded in the tree and the slots that are freed are all read
off them.
-/
namespace Trellis

open Tree (Handle Node Grown Ages Retains)

/-- Where a listener is once code has ended. -/
inductive Fate where
  /-- On the node that the code writes to. -/
  | here
  /-- On a node that the code has added to it. -/
  | held
  /-- On the element of a root container. -/
  | lost
deriving DecidableEq, Repr

inductive Mark where
  | bound (fate : Fate) (l : Listener)
  /-- A node of the code's own making may have been released. -/
  | released
deriving DecidableEq, Repr

namespace Mark

def listener? : Mark → Option Listener
  | .bound _ l => some l
  | .released => none

/-- What becomes of a mark when the container ends in which it was made. -/
def close (enclosure : Enclosure) : Mark → Mark
  | .bound .here l => .bound (if enclosure = .root then .lost else .held) l
  | m => m

@[simp] theorem listener?_close (enclosure : Enclosure) (m : Mark) : (m.close enclosure).listener? = m.listener? := by
  rcases m with ⟨_ | _ | _, l⟩ | _ <;> rfl

@[simp] theorem close_eq_released {enclosure : Enclosure} {m : Mark} :
    m.close enclosure = .released ↔ m = .released := by
  rcases m with ⟨_ | _ | _, l⟩ | _ <;> simp [close]

theorem close_ne_here (enclosure : Enclosure) (m : Mark) (l : Listener) : m.close enclosure ≠ .bound .here l := by
  rcases m with ⟨_ | _ | _, l'⟩ | _ <;> simp [close]
  split <;> simp

theorem close_eq_held {enclosure : Enclosure} {m : Mark} {l : Listener} :
    m.close enclosure = .bound .held l ↔ m = .bound .held l ∨ (enclosure ≠ .root ∧ m = .bound .here l) := by
  rcases m with ⟨_ | _ | _, l'⟩ | _ <;> simp [close]

theorem close_eq_lost {enclosure : Enclosure} {m : Mark} {l : Listener} :
    m.close enclosure = .bound .lost l ↔ m = .bound .lost l ∨ (enclosure = .root ∧ m = .bound .here l) := by
  rcases m with ⟨_ | _ | _, l'⟩ | _ <;> simp [close]

/-- What becomes of all marks made in a container. The element of a root container is released. -/
def closeAll (enclosure : Enclosure) (ms : List Mark) : List Mark :=
  ms.map (close enclosure) ++ if enclosure = .root then [.released] else []

theorem filterMap_closeAll (enclosure : Enclosure) (ms : List Mark) :
    (closeAll enclosure ms).filterMap listener? = ms.filterMap listener? := by
  have htail : (if enclosure = .root then [released] else []).filterMap listener? = [] := by split <;> rfl
  have hsame : listener? ∘ close enclosure = listener? := funext (listener?_close enclosure)
  rw [closeAll, List.filterMap_append, htail, List.append_nil, List.filterMap_map, hsame]

theorem mem_closeAll {enclosure : Enclosure} {ms : List Mark} {fate : Fate} {l : Listener} :
    bound fate l ∈ closeAll enclosure ms ↔ ∃ m ∈ ms, m.close enclosure = .bound fate l := by
  rw [closeAll, List.mem_append, List.mem_map]
  refine or_iff_left fun hm => ?_
  split at hm
  · cases List.mem_singleton.1 hm
  · cases hm

theorem count_closeAll (enclosure : Enclosure) (ms : List Mark) :
    (closeAll enclosure ms).count released = ms.count released + if enclosure = .root then 1 else 0 := by
  have hmap : (ms.map (close enclosure)).count released = ms.count released := by
    rw [List.count_eq_countP, List.countP_map, List.count_eq_countP]
    refine List.countP_congr fun m _ => ?_
    simp
  have htail : (if enclosure = .root then [released] else []).count released = if enclosure = .root then 1 else 0 := by
    split <;> rfl
  rw [closeAll, List.count_append, hmap, htail]

end Mark

/-! ### The marks of a run -/

namespace Engine

/-- Values and listeners leave marks, and containers change those that the code in them has left. -/
def marking : Notes Mark where
  resolved _ _ := []
  performed site e
    | .value raw _ => if raw then [.released] else []
    | .listen event handler =>
      (e.frames.head?.map fun frame => .bound .here ⟨site, frame.target, event, handler⟩).toList
    | _ => []
  closed := Mark.closeAll

/-- The marks that `execute n` leaves. -/
abbrev marks (n : Nat) : Tracer Mark := trace marking n

end Engine

/-! ### Ends without a fault -/

/-- If the action ends without a fault, then the engine that is left satisfies a predicate. -/
def Outcome.Finishes {α : Type} (P : Engine → Prop) : Outcome α → Prop
  | .done _ e _ => P e
  | .failed .. => True
  | .tooDeep => True

namespace Outcome

variable {α : Type} {P Q : Engine → Prop} {o : Outcome α}

@[simp] theorem finishes_after {journal : List Diagnostic} : (o.after journal).Finishes P ↔ o.Finishes P := by
  cases o <;> rfl

theorem finishes_mapEngine {f : Engine → Engine} : (o.mapEngine f).Finishes P ↔ o.Finishes fun e => P (f e) := by
  cases o <;> rfl

theorem Finishes.mono (ho : o.Finishes P) (h : ∀ e, P e → Q e) : o.Finishes Q := by
  cases o with
  | done a e journal => exact h e ho
  | failed => trivial
  | tooDeep => trivial

theorem Leaves.finishes (ho : o.Leaves P) : o.Finishes P := by
  cases o with
  | done => exact ho
  | failed => trivial
  | tooDeep => trivial

end Outcome

namespace Action

variable {α β : Type} {e e' e'' : Engine} {h : Handle}

theorem finishes_bind {x : Action α} {f : α → Action β} {P : Engine → Prop}
    (hx : ∀ a e' journal, x e = .done a e' journal → (f a e').Finishes P) : ((x >>= f) e).Finishes P := by
  cases hr : x e with
  | done a e' journal =>
    rw [bind_of_done hr, Outcome.finishes_after]
    exact hx a e' journal hr
  | failed fault e' journal =>
    rw [bind_of_failed hr]
    trivial
  | tooDeep =>
    rw [bind_of_tooDeep hr]
    trivial

theorem finishes_ite {c : Prop} [Decidable c] {x y : Action α} {P : Engine → Prop} (hx : c → (x e).Finishes P)
    (hy : ¬ c → (y e).Finishes P) : ((if c then x else y) e).Finishes P := by
  split
  · next hc => exact hx hc
  · next hc => exact hy hc

/-! ### What is freed -/

/-- Nothing is freed, provided that the tree is sound. -/
def Spares (e e' : Engine) : Prop := e.tree.Sound → Retains e.tree e'.tree

theorem quiet_spares : Quiet Spares where
  refl _ ht := .refl ht
  trans hab hbc ht := (hab ht).trans (hbc (hab ht).sound)
  stack _ _ ht := .refl ht
  time _ ht := .refl ht
  arm _ _ ht := .refl ht
  count _ _ ht := .refl ht
  pending _ ht := .refl ht
  focus _ h := h
  context _ h := h

theorem spares_onTree {f : Tree → Except Tree.Fault Tree}
    (hf : ∀ t t' : Tree, t.Sound → f t = .ok t' → Retains t t') : Keeps Spares (onTree f) := by
  intro e
  unfold onTree
  cases hr : f e.tree with
  | ok t' => exact fun ht => hf e.tree t' ht hr
  | error fault => exact fun ht => .refl ht

/-- What only puts nodes into the tree frees nothing. -/
theorem additive_spares : Additive fun x => Keeps Spares x :=
  { quiet_spares.inward with
    make := by
      intro _ f hf
      cases hf with
      | createElement tag => exact fun _ ht => .createElement ht tag
      | parse source => exact fun _ ht => .parse ht source
    place := by
      intro f hf
      cases hf with
      | append parent child => exact spares_onTree fun _ _ ht ha => .append ht ha
      | setAttribute node name value => exact spares_onTree fun _ _ ht hs => .setAttributes ht hs
      | addEvent node event => exact spares_onTree fun _ _ ht ha => .addEvent ht ha }

theorem spares_plainValue (name : String) (parent : Handle) (text : String) :
    Keeps Spares (plainValue name parent text) := by
  intro e
  have hrest : ∀ span, Keeps Spares (do
      onTree (·.setAttribute span siteAttribute name)
      onTree (·.append parent span)) := fun span =>
    additive_spares.bind (additive_spares.place (.setAttribute span _ _)) fun _ =>
      additive_spares.place (.append parent span)
  unfold plainValue
  rw [bind_of_done (x := make _) rfl, Outcome.leaves_after]
  -- the element and its text are looked at together: only a new element is sure to hold nothing
  apply leaves_bind
  · intro a e' journal hr
    refine (hrest _ e').mono fun e'' he'' ht => ?_
    unfold onTree at hr
    split at hr
    · next t hs =>
      cases hr
      have hretains := Retains.setText_createElement ht hs
      exact hretains.trans (he'' hretains.sound)
    · cases hr
  · intro fault e' journal hr ht
    unfold onTree at hr
    split at hr
    · cases hr
    · cases hr
      exact .createElement ht "span"

/-- A value that is taken for markup and turns out to be a text is made twice. -/
theorem ages_value (hw : e.Writable h) (site : Nat) (raw : Bool) (content : Value) :
    (value site raw content e).Finishes fun e' => Ages (if raw then 1 else 0) e.tree e'.tree := by
  have ht := hw.sound
  unfold value
  rw [bind_of_done (target_of_head hw.target), bind_of_done (x := label site) rfl]
  simp only [Outcome.finishes_after]
  cases raw with
  | false =>
    rw [if_neg Bool.false_ne_true, if_neg Bool.false_ne_true]
    exact ((spares_plainValue _ h _ e).mono fun _ hs => (hs ht).ages).finishes
  | true =>
    rw [if_pos rfl, if_pos rfl, bind_of_done (x := make _) rfl, bind_of_done (x := get _) rfl]
    simp only [Outcome.finishes_after]
    have hparse := Retains.parse ht content.toText
    generalize e.tree.parse content.toText = made at hparse
    obtain ⟨nodes, t⟩ := made
    apply finishes_ite
    · intro hsingle
      have hages : Ages 1 t (nodes.foldl Tree.release t) := by
        cases nodes with
        | nil => exact (Ages.refl hparse.sound).mono (Nat.zero_le 1)
        | cons node rest =>
          cases rest with
          | nil => exact .release hparse.sound node
          | cons => cases hsingle
      rw [bind_of_done (x := modify _) rfl, Outcome.finishes_after]
      refine Outcome.Leaves.finishes ((spares_plainValue _ h _ _).mono fun e' hs => ?_)
      exact ((hparse.ages.trans hages).trans (hs hages.sound).ages).mono (Nat.le_refl 1)
    · intro _
      refine Outcome.Leaves.finishes ((additive_spares.appendTagged _ h _ _).mono fun e' hs => ?_)
      exact (hparse.ages.trans (hs hparse.sound).ages).mono (Nat.zero_le 1)

/-- A container that is closed frees nothing but the element of a root container. -/
theorem ages_close {c : Handle} (ht : e.tree.Sound) (hh : e.frames.head?.map (·.target) = some h)
    (hc : e.tree.contains c = true) (enclosure : Enclosure) :
    (close enclosure c e).Finishes fun e' =>
      Ages (if enclosure = .root then 1 else 0) e.tree e'.tree ∧
        (enclosure = .root → c ≠ .root → e'.tree.Latest (c.later 1)) := by
  unfold close
  rw [bind_of_done (target_of_head hh), Outcome.finishes_after]
  by_cases hroot : enclosure = .root
  · rw [if_pos hroot, if_pos hroot]
    cases hchildren : e.tree.children c with
    | error fault =>
      rw [bind_of_failed (x := ofTree _) (by rw [ofTree, hchildren])]
      trivial
    | ok children =>
      rw [bind_of_done (x := ofTree _) (by rw [ofTree, hchildren]), Outcome.finishes_after]
      refine finishes_bind fun _ e' _ hr => ?_
      have hspares := additive_spares.appendAll h children e
      rw [hr] at hspares
      have hretains := hspares ht
      refine ⟨(hretains.ages.trans (.release hretains.sound c)).mono (Nat.le_refl 1), fun _ hne => ?_⟩
      exact hretains.sound.latest_release (hretains.live c hc) hne
  · rw [if_neg hroot, if_neg hroot]
    refine Outcome.Leaves.finishes ((additive_spares.place (.append h c) e).mono fun e' hs => ?_)
    exact ⟨(hs ht).ages, fun he => absurd he hroot⟩

theorem retains_opened (ht : e.tree.Sound) (site : Nat) (enclosure : Enclosure) :
    Retains e.tree (e.opened site enclosure).tree :=
  (Retains.createElement ht enclosure.tag).trans
    (.setAttributes (ht.createElement enclosure.tag) (setAttribute_createElement ht enclosure.tag _))

/-- While the root is live, no new element is given its handle. -/
theorem take_ne_root (ht : e.tree.Sound) (hr : e.tree.Rooted) : e.tree.pool.take.1 ≠ .root := by
  intro hroot
  have hd := (ht.createElement "").nodup
  have hnot := (Node.nodup_handlesAll_cons.1 hd).2.1
  refine hnot (Node.mem_handlesAll_iff_top.2 (.inl ?_))
  change e.tree.pool.take.1 ∈ e.tree.nodes.map Node.handle
  rw [hroot]
  exact hr

end Action

/-! ### Listeners, events and marks -/

/-- Code has written to a node, as the marks say: it has added nodes and recorded events there, and bound listeners. -/
structure Attaches (h : Handle) (ms : List Mark) (e e' : Engine) (ns : List Node) (es : List String) : Prop where
  grown : Grown h e.tree e'.tree ns es
  listeners : e'.listeners = e.listeners ++ ms.filterMap Mark.listener?
  here : ∀ l, Mark.bound .here l ∈ ms → l.node = h
  events : ∀ event, event ∈ es ↔ ∃ l, Mark.bound .here l ∈ ms ∧ l.event = event
  held : ∀ x event, (x, event) ∈ Node.recordedAll ns ↔ ∃ l, Mark.bound .held l ∈ ms ∧ l.node = x ∧ l.event = event
  ages : Ages (ms.count .released) e.tree e'.tree
  lost : e.tree.Rooted → ∀ l, Mark.bound .lost l ∈ ms →
    ∃ k, 0 < k ∧ k ≤ ms.count .released ∧ e'.tree.Latest (l.node.later k)

namespace Attaches

variable {e e' e'' : Engine} {h : Handle} {ms ms' : List Mark} {ns ns' : List Node} {es es' : List String}

/-- Nodes without events have been added. -/
theorem of_silent (hms : ∀ m ∈ ms, m = .released) (hg : Grown h e.tree e'.tree ns [])
    (hl : e'.listeners = e.listeners) (hns : Node.recordedAll ns = [])
    (ha : Ages (ms.count .released) e.tree e'.tree) : Attaches h ms e e' ns [] := by
  have hnone : ∀ {fate l}, Mark.bound fate l ∉ ms := fun hm => by cases hms _ hm
  refine ⟨hg, ?_, fun l hm => absurd hm hnone, fun event => ?_, fun x event => ?_, ha, fun _ l hm => absurd hm hnone⟩
  · have hfilter : ms.filterMap Mark.listener? = [] := by
      rw [List.filterMap_eq_nil_iff]
      intro m hm
      rw [hms m hm]
      rfl
    rw [hl, hfilter, List.append_nil]
  · exact ⟨fun he => (by cases he), fun ⟨l, hm, _⟩ => absurd hm hnone⟩
  · rw [hns]
    exact ⟨fun he => (by cases he), fun ⟨l, hm, _⟩ => absurd hm hnone⟩

theorem same (ht : e.tree.Sound) (htree : e'.tree = e.tree) (hl : e'.listeners = e.listeners) :
    Attaches h [] e e' [] [] := by
  refine .of_silent (fun _ hm => (by cases hm)) ?_ hl Node.recordedAll_nil ?_
  · rw [htree]
    exact .refl ht h
  · rw [htree]
    exact .refl ht

theorem trans (hh : e.tree.contains h = true) (ha : Attaches h ms e e' ns es) (hb : Attaches h ms' e' e'' ns' es') :
    Attaches h (ms ++ ms') e e'' (ns ++ ns') (es ++ es') := by
  refine ⟨ha.grown.trans hb.grown hh, ?_, fun l hm => ?_, fun event => ?_, fun x event => ?_, ?_, fun hr l hm => ?_⟩
  · rw [hb.listeners, ha.listeners, List.filterMap_append, List.append_assoc]
  · exact (List.mem_append.1 hm).elim (ha.here l) (hb.here l)
  · rw [List.mem_append, ha.events, hb.events, ← exists_or]
    simp only [List.mem_append, or_and_right]
  · rw [Node.recordedAll_append, List.mem_append, ha.held, hb.held, ← exists_or]
    simp only [List.mem_append, or_and_right]
  · rw [List.count_append]
    exact ha.ages.trans hb.ages
  · rw [List.count_append]
    rcases List.mem_append.1 hm with hm | hm
    · obtain ⟨k, hpos, hle, hl⟩ := ha.lost hr l hm
      obtain ⟨j, hj, hl'⟩ := hb.ages.latest _ hl
      exact ⟨k + j, by omega, by omega, by rwa [← Handle.later_later]⟩
    · obtain ⟨k, hpos, hle, hl⟩ := hb.lost ((ha.grown.within hr).rooted hr) l hm
      exact ⟨k, hpos, by omega, hl⟩

theorem listen {site : Nat} {event handler : String} {t : Tree}
    (hg : Grown h e.tree t [] [event]) (hr : Retains e.tree t) :
    Attaches h [.bound .here ⟨site, h, event, handler⟩] e
      { e with tree := t, listeners := e.listeners ++ [⟨site, h, event, handler⟩] } [] [event] where
  grown := hg
  listeners := rfl
  here l hm := by
    cases List.mem_singleton.1 hm
    rfl
  events event' := by simp [eq_comm]
  held x event' := by simp
  ages := hr.ages
  lost _ l hm := by cases List.mem_singleton.1 hm

/-- What has been attached to the element of a container goes with it, and is lost with it. -/
theorem closed {site : Nat} {enclosure : Enclosure} {made : List Node} {t : Tree} {frames : Frames Handle}
    {focus : Option Handle} (ht : e.tree.Sound)
    (ha : Attaches e.tree.pool.take.1 ms (e.opened site enclosure) e' ns es) (hg : Grown h e.tree t made [])
    (hmade : ∀ x event, (x, event) ∈ Node.recordedAll made ↔
      (x, event) ∈ Node.recordedAll ns ∨ (enclosure ≠ .root ∧ x = e.tree.pool.take.1 ∧ event ∈ es))
    (hages : Ages (if enclosure = .root then 1 else 0) e'.tree t)
    (hfreed : enclosure = .root → e.tree.pool.take.1 ≠ .root → t.Latest (e.tree.pool.take.1.later 1)) :
    Attaches h (Mark.closeAll enclosure ms) e { e' with tree := t, frames, focus } made [] := by
  refine ⟨hg, ?_, fun l hm => ?_, fun event => ?_, fun x event => ?_, ?_, fun hr l hm => ?_⟩
  · rw [Mark.filterMap_closeAll]
    exact ha.listeners
  · obtain ⟨m, -, hm⟩ := Mark.mem_closeAll.1 hm
    exact absurd hm (Mark.close_ne_here enclosure m l)
  · refine ⟨fun he => (by cases he), fun ⟨l, hm, _⟩ => ?_⟩
    obtain ⟨m, -, hm⟩ := Mark.mem_closeAll.1 hm
    exact absurd hm (Mark.close_ne_here enclosure m l)
  · rw [hmade, ha.held, ha.events]
    constructor
    · rintro (⟨l, hm, hl⟩ | ⟨hroot, rfl, l, hm, rfl⟩)
      · exact ⟨l, Mark.mem_closeAll.2 ⟨_, hm, Mark.close_eq_held.2 (.inl rfl)⟩, hl⟩
      · exact ⟨l, Mark.mem_closeAll.2 ⟨_, hm, Mark.close_eq_held.2 (.inr ⟨hroot, rfl⟩)⟩, ha.here l hm, rfl⟩
    · rintro ⟨l, hm, rfl, rfl⟩
      obtain ⟨m, hm, hclose⟩ := Mark.mem_closeAll.1 hm
      rcases Mark.close_eq_held.1 hclose with rfl | ⟨hroot, rfl⟩
      · exact .inl ⟨l, hm, rfl, rfl⟩
      · exact .inr ⟨hroot, ha.here l hm, l, hm, rfl⟩
  · rw [Mark.count_closeAll]
    have htotal := ((Action.retains_opened ht site enclosure).ages.trans ha.ages).trans hages
    rwa [Nat.zero_add] at htotal
  · rw [Mark.count_closeAll]
    obtain ⟨m, hm, hclose⟩ := Mark.mem_closeAll.1 hm
    rcases Mark.close_eq_lost.1 hclose with rfl | ⟨hroot, rfl⟩
    · -- the handle of one lost earlier may fall further behind, by as much as the slots have aged
      obtain ⟨k, hpos, hle, hl⟩ := ha.lost (List.mem_cons_of_mem _ hr) l hm
      obtain ⟨j, hj, hl'⟩ := hages.latest _ hl
      exact ⟨k + j, by omega, by omega, by rwa [← Handle.later_later]⟩
    · -- the element of a root container has just been freed, one generation ago
      have hl := hfreed hroot (Action.take_ne_root ht hr)
      rw [ha.here l hm, if_pos hroot]
      exact ⟨1, Nat.one_pos, Nat.le_add_left 1 _, hl⟩

end Attaches

namespace Action

open Engine (callTrace marking marks)

variable {α : Type} {e e' : Engine} {h : Handle}

theorem container_attaches {site : Nat} {enclosure : Enclosure} {body : Action Unit} {ms : List Mark}
    (hplain : e.context.plain = false) (hgrows : Keeps Grows body) (hw : e.Writable h)
    (hbody : (body (e.opened site enclosure)).Finishes fun e' =>
      ∃ ns es, Attaches e.tree.pool.take.1 ms (e.opened site enclosure) e' ns es) :
    (container site enclosure body e).Finishes fun e' =>
      ∃ ns es, Attaches h (Mark.closeAll enclosure ms) e e' ns es := by
  simp only [Context.plain, Bool.or_eq_false_iff, Bool.not_eq_false', decide_eq_false_iff_not] at hplain
  obtain ⟨hr, hm⟩ := hplain
  have hge := hgrows (e.opened site enclosure)
  cases hb : body (e.opened site enclosure) with
  | done a e' j =>
    rw [hb] at hbody hge
    obtain ⟨ns, es, ha⟩ := hbody
    obtain ⟨t, journal, hclose, hrun, hg⟩ := container_closed hw hr hm hb (congrArg List.tail hge.frames) ha.grown
    have hages := @ages_close { e' with frames := e.frames, focus := e.focus } h e.tree.pool.take.1
      ha.grown.sound hw.target (hge.writable (opened_writable hw.sound site enclosure)).contains enclosure
    rw [hclose] at hages
    rw [hrun]
    refine ⟨_, _, ha.closed hw.sound hg (fun x event => ?_) hages.1 hages.2⟩
    split
    · next hroot => simp [hroot]
    · next hroot =>
      rw [Node.recordedAll_cons, Node.recordedAll_nil, List.append_nil, Node.mem_recorded, Node.handle_extend,
        Node.mem_events_extend, Node.children_extend rfl]
      simp [tagged, Node.handle, Node.events, Node.children, hroot, or_comm]
  | failed fault e' j =>
    obtain ⟨journal, heq⟩ := @container_eq site enclosure body e hw.sound hr hm
    rw [heq, hb]
    trivial
  | tooDeep =>
    obtain ⟨journal, heq⟩ := @container_eq site enclosure body e hw.sound hr hm
    rw [heq, hb]
    trivial

/-- The tree, the listeners and the mounted node are the same. -/
structure Aside (e e' : Engine) : Prop where
  tree : e'.tree = e.tree
  listeners : e'.listeners = e.listeners
  mount : e'.mount = e.mount

theorem quiet_aside : Quiet Aside where
  refl _ := ⟨rfl, rfl, rfl⟩
  trans hab hbc := ⟨hbc.tree.trans hab.tree, hbc.listeners.trans hab.listeners, hbc.mount.trans hab.mount⟩
  stack _ _ := ⟨rfl, rfl, rfl⟩
  time _ := ⟨rfl, rfl, rfl⟩
  arm _ _ := ⟨rfl, rfl, rfl⟩
  count _ _ := ⟨rfl, rfl, rfl⟩
  pending _ := ⟨rfl, rfl, rfl⟩
  focus _ h := ⟨h.tree, h.listeners, h.mount⟩
  context _ h := ⟨h.tree, h.listeners, h.mount⟩

/-- An instruction that neither makes output nor binds a listener attaches nothing. -/
theorem Keeps.attaches {x : Action α} (hx : Keeps Aside x) (hw : e.Writable h) :
    (x e).Finishes fun e' => ∃ ns es, Attaches h [] e e' ns es :=
  ((hx e).mono fun _ ha => ⟨[], [], .same hw.sound ha.tree ha.listeners⟩).finishes

theorem leaf_attaches (hw : e.Writable h) (site : Nat) (tag : String) :
    (leaf site tag e).Finishes fun e' => ∃ ns es, Attaches h [] e e' ns es := by
  obtain ⟨t, ns, hrun, hg, -, hns⟩ := leaf_adds hw site tag
  have hspares := additive_spares.leaf site tag e
  rw [hrun] at hspares ⊢
  exact ⟨ns, [], .of_silent (fun _ hm => (by cases hm)) hg rfl hns (hspares hw.sound).ages⟩

theorem value_attaches (hw : e.Writable h) (site : Nat) (raw : Bool) (content : Value) :
    (value site raw content e).Finishes fun e' =>
      ∃ ns es, Attaches h (if raw then [.released] else []) e e' ns es := by
  obtain ⟨t, ns, hrun, hg, -, hns⟩ := value_adds hw site raw content
  have hages := ages_value hw site raw content
  rw [hrun] at hages ⊢
  refine ⟨ns, [], .of_silent (fun m hm => ?_) hg rfl hns ?_⟩
  · split at hm
    · exact List.mem_singleton.1 hm
    · cases hm
  · cases raw with
    | false => exact hages
    | true => exact hages

theorem listen_attaches (hw : e.Writable h) (site : Nat) (event handler : String) :
    (listen site event handler e).Finishes fun e' =>
      ∃ ns es, Attaches h [.bound .here ⟨site, h, event, handler⟩] e e' ns es := by
  obtain ⟨t, journal, hrun, hg⟩ := listen_of_writable hw site event handler
  have hspares : Keeps Spares (listen site event handler) := additive_spares.listen fun _ _ ht => .refl ht
  have hspares := hspares e
  rw [hrun] at hspares ⊢
  exact ⟨[], [event], .listen hg (hspares hw.sound)⟩

theorem perform_attaches {operation : Operation} (hother : ∀ label mode, operation ≠ .call label mode)
    (hw : e.Writable h) (run : List Instruction → Action Unit) (site : Nat) :
    (perform run site operation e).Finishes fun e' =>
      ∃ ns es, Attaches h (marking.performed site e operation) e e' ns es := by
  cases operation with
  | element tag => exact leaf_attaches hw site tag
  | value raw source =>
    refine finishes_bind fun v e₁ _ hr => ?_
    obtain ⟨journal, heq⟩ := load_eq site source e
    rw [heq] at hr
    split at hr
    · cases hr
      exact value_attaches hw site raw v
    · cases hr
  | call label mode => exact absurd rfl (hother label mode)
  | listen event handler =>
    obtain ⟨frame, hframe, rfl⟩ := Option.map_eq_some_iff.1 hw.target
    simp only [marking, hframe]
    exact listen_attaches hw site event handler
  | _ => exact Keeps.attaches (quiet_aside.inward.quiet rfl run site) hw

/-- Running code attaches what its marks say. -/
theorem noting_marks : Noting marking Grows fun e ms o =>
    ∀ h, e.Writable h → o.Finishes fun e' => ∃ ns es, Attaches h ms e e' ns es where
  keeps := closed_grows
  tooDeep _ _ := trivial
  after _ ho h hw := Outcome.finishes_after.2 (ho h hw)
  idle _ _ _ hw := ⟨[], [], .same hw.sound rfl rfl⟩
  failed _ _ _ _ _ := trivial
  seq hgrows hx ho h hw := by
    obtain ⟨ns, es, ha⟩ := hx h hw
    refine Outcome.finishes_after.2 ((ho h (hgrows.writable hw)).mono fun e'' hrest => ?_)
    obtain ⟨ns', es', hb⟩ := hrest
    exact ⟨_, _, ha.trans hw.contains hb⟩
  context ho h hw := by
    refine Outcome.finishes_mapEngine.2 ((ho h ⟨hw.sound, hw.target, hw.element⟩).mono fun e' ha => ?_)
    obtain ⟨ns, es, ha⟩ := ha
    exact ⟨ns, es, { ha with }⟩
  frame {e stack site frame ms o} hf ho h hw := by
    have hh : frame.target = h := Option.some.inj ((congrArg (Option.map _) hf).symm.trans hw.target)
    refine Outcome.finishes_mapEngine.2 ((ho h ⟨hw.sound, congrArg some hh, hw.element⟩).mono fun e' ha => ?_)
    obtain ⟨ns, es, ha⟩ := ha
    exact ⟨ns, es, { ha with }⟩
  resolve ho h hw := (ho h ⟨hw.sound, hw.target, hw.element⟩).mono fun e' ha => by
    obtain ⟨ns, es, ha⟩ := ha
    exact ⟨ns, es, { ha with }⟩
  perform run _ hother _ hw := perform_attaches hother hw run _
  container hplain hgrows hbody h hw :=
    container_attaches hplain hgrows hw (hbody _ (opened_writable hw.sound _ _))

theorem invoke_attaches (hw : e.Writable h) (n site : Nat) (label : String) (mode : Mode) :
    (invoke n site label mode e).Finishes fun e' => ∃ ns es, Attaches h (callTrace (marks n) label mode e) e e' ns es :=
  noting_marks.invoke n site label mode e h hw

end Action
end Trellis
