import Trellis.Proofs.Tree.Growth

/-!
# Generations of handles

Every slot has one latest handle: the one that its node has, or under which it waits to be given out again. An
operation leaves the latest handle of a slot as it is, or frees its node and goes on to the next generation. So the
generation of a slot is the number of times that it has been freed, as far as 32 bits can tell. As long as they can,
no handle is given out twice, and the handle of a freed node is dead for good.
-/
namespace Trellis.Tree

/-! ### The latest handle of a slot -/

/-- The handle is the latest of its slot. -/
def Latest (t : Tree) (h : Handle) : Prop := h ∈ Node.handlesAll t.nodes ++ t.pool.free

theorem latest_iff {t : Tree} {h : Handle} : t.Latest h ↔ t.contains h = true ∨ h ∈ t.pool.free := by
  rw [Latest, List.mem_append, contains_iff]

@[simp] theorem Handle.slot_next (h : Handle) : h.next.slot = h.slot := rfl

theorem Handle.next_ne (h : Handle) : h.next ≠ h := by
  intro he
  have hone : h.generation + 1 = h.generation + 0 := by
    rw [UInt32.add_zero]
    exact congrArg Handle.generation he
  exact absurd ((UInt32.add_right_inj _).1 hone) (by decide)

theorem eq_of_countP_slot_le {l : List Handle} {g h : Handle} (hl : l.countP (·.slot = h.slot) ≤ 1) (hg : g ∈ l)
    (hh : h ∈ l) (hs : g.slot = h.slot) : g = h := by
  have hgm : g ∈ l.filter (·.slot = h.slot) := List.mem_filter.2 ⟨hg, by simp [hs]⟩
  have hhm : h ∈ l.filter (·.slot = h.slot) := List.mem_filter.2 ⟨hh, by simp⟩
  rw [List.countP_eq_length_filter] at hl
  generalize l.filter (·.slot = h.slot) = m at hl hgm hhm
  match m with
  | [] => cases hgm
  | [x] => rw [List.mem_singleton.1 hgm, List.mem_singleton.1 hhm]
  | _ :: _ :: _ => simp at hl

namespace Sound

variable {t : Tree} {g h : Handle}

theorem countP_latest_le (ht : t.Sound) (i : Nat) :
    (Node.handlesAll t.nodes ++ t.pool.free).countP (·.slot = i) ≤ 1 := by
  have hi := ht i
  rw [List.countP_append]
  split at hi <;> omega

theorem latest_unique (ht : t.Sound) (hg : t.Latest g) (hh : t.Latest h) (hs : g.slot = h.slot) : g = h :=
  eq_of_countP_slot_le (ht.countP_latest_le _) hg hh hs

/-- A handle that waits in the pool is no node's. -/
theorem not_contains_of_free (ht : t.Sound) (hh : h ∈ t.pool.free) : t.contains h = false := by
  have hfree : 0 < t.pool.free.countP (·.slot = h.slot) := List.countP_pos_iff.2 ⟨h, hh, by simp⟩
  cases hc : t.contains h with
  | false => rfl
  | true =>
    have hnone := (ht.slot_count hc).2.2
    omega

theorem slot_lt (ht : t.Sound) (hh : t.Latest h) : h.slot < t.pool.slots := by
  have hcount := ht h.slot
  have hpos : 0 < (Node.handlesAll t.nodes ++ t.pool.free).countP (·.slot = h.slot) :=
    List.countP_pos_iff.2 ⟨h, hh, by simp⟩
  rw [List.countP_append] at hpos
  split at hcount <;> omega

end Sound

/-! ### Handles that a pool gives out -/

/-- A pool has given out some handles: they and those that are left were waiting in it, or belong to new slots. -/
structure Pool.Gives (p : Pool) (hs : List Handle) (p' : Pool) : Prop where
  slots : p.slots ≤ p'.slots
  mem : ∀ h ∈ hs ++ p'.free, h ∈ p.free ∨ (p.slots ≤ h.slot ∧ h.generation = 0)

namespace Pool

theorem gives_nil (p : Pool) : p.Gives [] p := ⟨Nat.le_refl _, fun _ hh => .inl hh⟩

theorem gives_take (p : Pool) : p.Gives [p.take.1] p.take.2 := by
  unfold take
  cases hf : p.free with
  | nil =>
    refine ⟨Nat.le_succ _, fun h hh => .inr ?_⟩
    obtain rfl := List.mem_singleton.1 hh
    exact ⟨Nat.le_refl _, rfl⟩
  | cons h free => exact ⟨Nat.le_refl _, fun _ hh => .inl (hf ▸ hh)⟩

theorem Gives.trans {p p' p'' : Pool} {hs hs' : List Handle} (h : p.Gives hs p') (h' : p'.Gives hs' p'') :
    p.Gives (hs ++ hs') p'' := by
  refine ⟨Nat.le_trans h.slots h'.slots, fun x hx => ?_⟩
  rw [List.append_assoc, List.mem_append] at hx
  rcases hx with hx | hx
  · exact h.mem x (List.mem_append_left _ hx)
  · rcases h'.mem x hx with hx | ⟨hslot, hgen⟩
    · exact h.mem x (List.mem_append_right _ hx)
    · exact .inr ⟨Nat.le_trans h.slots hslot, hgen⟩

end Pool

theorem Node.gives_ofMarkupAll (p : Pool) (ms : List Markup) :
    p.Gives (handlesAll (ofMarkupAll p ms).1) (ofMarkupAll p ms).2 := by
  induction ms using Markup.forestInduction generalizing p with
  | nil => simpa [ofMarkupAll] using p.gives_nil
  | text content ms ih =>
    simp only [ofMarkupAll, ofMarkup, handlesAll_cons, handles]
    exact p.gives_take.trans (ih _)
  | element tag attributes children ms ihc ihs =>
    simp only [ofMarkupAll, ofMarkup, handlesAll_cons, handles]
    exact (p.gives_take.trans (ihc _)).trans (ihs _)

/-! ### What an operation does to the latest handles -/

/-- The handles that an operation gives out. -/
def made (t : Tree) : Edit → List Handle
  | .createElement tag => [(t.createElement tag).1]
  | .createText content => [(t.createText content).1]
  | .parse source => Node.handlesAll (Node.ofMarkupAll t.pool (Markup.parse source)).1
  | .setText node content =>
    match t.isText node, t.clear node, t.setText node content with
    | false, .ok cleared, .ok _ => [(cleared.createText content).1]
    | _, _, _ => []
  | _ => []

/-- The latest handle of a slot was the latest before, and then its node has not been freed; or it comes after the
handle of a node, which has been freed; or the slot is new. The handles given out are those of the nodes that are
live now and were not before. -/
structure Turnover (t t' : Tree) (hs : List Handle) : Prop where
  slots : t.pool.slots ≤ t'.pool.slots
  latest : ∀ h, t'.Latest h →
    (t.Latest h ∧ (t.contains h = true → t'.contains h = true)) ∨ (∃ g, t.contains g = true ∧ h = g.next) ∨
      (t.pool.slots ≤ h.slot ∧ h.generation = 0)
  nodup : hs.Nodup
  mem_iff : ∀ h, h ∈ hs ↔ t'.contains h = true ∧ t.contains h = false

namespace Turnover

variable {t t' t'' : Tree} {hs hs' : List Handle}

/-- No handle has been given out if every node was live before. -/
theorem mem_nil_iff (hk : ∀ h, t'.contains h = true → t.contains h = true) (h : Handle) :
    h ∈ ([] : List Handle) ↔ t'.contains h = true ∧ t.contains h = false := by
  refine ⟨fun hh => (by cases hh), fun ⟨hc, hn⟩ => ?_⟩
  rw [hk h hc] at hn
  cases hn

/-- The nodes are as before, in whatever order. -/
theorem of_perm (hp : (Node.handlesAll t'.nodes).Perm (Node.handlesAll t.nodes)) (hpool : t'.pool = t.pool) :
    Turnover t t' [] := by
  have hlive : ∀ h, t'.contains h = true ↔ t.contains h = true := by
    intro h
    rw [contains_iff, contains_iff, hp.mem_iff]
  refine ⟨Nat.le_of_eq (by rw [hpool]), fun h hh => .inl ⟨?_, (hlive h).2⟩, .nil, mem_nil_iff fun h => (hlive h).1⟩
  rw [latest_iff, hlive, hpool] at hh
  exact latest_iff.2 hh

theorem refl (t : Tree) : Turnover t t [] := .of_perm (.refl _) rfl

/-- New nodes have been made. -/
theorem of_gives (ht' : t'.Sound) (hn : Node.handlesAll t'.nodes = hs ++ Node.handlesAll t.nodes)
    (hp : t.pool.Gives hs t'.pool) : Turnover t t' hs := by
  have hlive : ∀ h, t'.contains h = true ↔ h ∈ hs ∨ t.contains h = true := by
    intro h
    rw [contains_iff, contains_iff, hn, List.mem_append]
  have hd := hn ▸ ht'.nodup
  rw [List.nodup_append] at hd
  refine ⟨hp.slots, fun h hh => ?_, hd.1, fun h => ⟨fun hh => ⟨(hlive h).2 (.inl hh), ?_⟩, fun ⟨hc, hnot⟩ => ?_⟩⟩
  · by_cases hc : t.contains h = true
    · exact .inl ⟨latest_iff.2 (.inl hc), fun hc => (hlive h).2 (.inr hc)⟩
    · rw [latest_iff, hlive, or_assoc, or_iff_right hc] at hh
      rcases hp.mem h (List.mem_append.2 hh) with hfree | hnew
      · exact .inl ⟨latest_iff.2 (.inr hfree), fun hc => (hlive h).2 (.inr hc)⟩
      · exact .inr (.inr hnew)
  · rw [Bool.eq_false_iff, ne_eq, contains_iff]
    exact fun hc => hd.2.2 h hh h hc rfl
  · rw [hlive, hnot] at hc
    exact hc.resolve_right Bool.false_ne_true

/-- Some nodes have been freed. -/
theorem of_give (ht : t.Sound) {gone freed : List Handle}
    (hn : (gone ++ Node.handlesAll t'.nodes).Perm (Node.handlesAll t.nodes)) (hf : freed.Perm gone)
    (hp : t'.pool = t.pool.give freed) : Turnover t t' [] := by
  have hkept : ∀ h, t'.contains h = true → t.contains h = true := by
    intro h hc
    rw [contains_iff] at hc ⊢
    exact hn.mem_iff.1 (List.mem_append_right _ hc)
  refine ⟨Nat.le_of_eq (by rw [hp]; rfl), fun h hh => ?_, .nil, mem_nil_iff hkept⟩
  rw [latest_iff, hp, Pool.free_give, List.mem_append, List.mem_reverse, List.mem_map] at hh
  rcases hh with hc | ⟨g, hg, rfl⟩ | hfree
  · exact .inl ⟨latest_iff.2 (.inl (hkept h hc)), fun _ => hc⟩
  · exact .inr (.inl ⟨g, contains_iff.2 (hn.mem_iff.1 (List.mem_append_left _ (hf.mem_iff.1 hg))), rfl⟩)
  · refine .inl ⟨latest_iff.2 (.inr hfree), fun hc => ?_⟩
    rw [ht.not_contains_of_free hfree] at hc
    cases hc

/-- A node that has been freed is not among the latest any more. -/
theorem contains_of_latest (ht : t.Sound) (h : Turnover t t' hs) {x : Handle} (hx : t'.Latest x)
    (hc : t.contains x = true) : t'.contains x = true := by
  have hlatest := latest_iff.2 (.inl hc)
  rcases h.latest x hx with ⟨-, hlive⟩ | ⟨g, hg, rfl⟩ | ⟨hslot, -⟩
  · exact hlive hc
  · exact absurd (ht.latest_unique hlatest (latest_iff.2 (.inl hg)) rfl) g.next_ne
  · exact absurd (ht.slot_lt hlatest) (Nat.not_lt.2 hslot)

/-- What is done afterwards without freeing a node counts as part of the same operation. -/
theorem trans_of_kept (ht : t.Sound) (ht'' : t''.Sound) (h : Turnover t t' hs) (h' : Turnover t' t'' hs')
    (hk : ∀ x, t'.contains x = true → t''.contains x = true) : Turnover t t'' (hs ++ hs') := by
  have hlatest : ∀ x, t''.Latest x → t'.Latest x ∨ (t'.pool.slots ≤ x.slot ∧ x.generation = 0) := by
    intro x hx
    rcases h'.latest x hx with ⟨hl, -⟩ | ⟨g, hg, rfl⟩ | hnew
    · exact .inl hl
    · exact absurd (ht''.latest_unique hx (latest_iff.2 (.inl (hk g hg))) rfl) g.next_ne
    · exact .inr hnew
  -- a handle given out at the end is not that of a node freed at the start
  have hnew : ∀ x ∈ hs', t.contains x = false := by
    intro x hx
    obtain ⟨hc, hnot⟩ := (h'.mem_iff x).1 hx
    rw [Bool.eq_false_iff]
    intro hold
    rcases hlatest x (latest_iff.2 (.inl hc)) with hl | ⟨hslot, -⟩
    · rw [h.contains_of_latest ht hl hold] at hnot
      cases hnot
    · exact absurd (ht.slot_lt (latest_iff.2 (.inl hold))) (Nat.not_lt.2 (Nat.le_trans h.slots hslot))
  refine ⟨Nat.le_trans h.slots h'.slots, fun x hx => ?_, List.nodup_append.2 ⟨h.nodup, h'.nodup, ?_⟩, fun x => ?_⟩
  · rcases hlatest x hx with hl | ⟨hslot, hgen⟩
    · rcases h.latest x hl with ⟨hl, hc⟩ | hnext | hnew
      · exact .inl ⟨hl, fun hx => hk x (hc hx)⟩
      · exact .inr (.inl hnext)
      · exact .inr (.inr hnew)
    · exact .inr (.inr ⟨Nat.le_trans h.slots hslot, hgen⟩)
  · rintro x hx y hy rfl
    have hnot := ((h'.mem_iff x).1 hy).2
    rw [((h.mem_iff x).1 hx).1] at hnot
    cases hnot
  · rw [List.mem_append]
    constructor
    · rintro (hx | hx)
      · exact ⟨hk x ((h.mem_iff x).1 hx).1, ((h.mem_iff x).1 hx).2⟩
      · exact ⟨((h'.mem_iff x).1 hx).1, hnew x hx⟩
    · rintro ⟨hc, hnot⟩
      cases hc' : t'.contains x with
      | true => exact .inl ((h.mem_iff x).2 ⟨hc', hnot⟩)
      | false => exact .inr ((h'.mem_iff x).2 ⟨hc, hc'⟩)

theorem update {h : Handle} {f : Node → Node} (hf : ∀ n, (f n).handles = n.handles) :
    Turnover t (t.update h f) [] :=
  .of_perm (.of_eq (Node.handlesAll_updateAmong hf t.nodes)) rfl

theorem createElement (ht : t.Sound) (tag : String) :
    Turnover t (t.createElement tag).2 [(t.createElement tag).1] :=
  .of_gives (ht.createElement tag) (by simp [Tree.createElement, Node.handles]) t.pool.gives_take

theorem createText (ht : t.Sound) (content : String) :
    Turnover t (t.createText content).2 [(t.createText content).1] :=
  .of_gives (ht.createText content) (by simp [Tree.createText, Node.handles]) t.pool.gives_take

theorem append (ht : t.Sound) {parent child : Handle} (ha : t.append parent child = .ok t') : Turnover t t' [] := by
  obtain ⟨hp, hpool⟩ := ht.perm_append ha
  exact .of_perm hp.symm hpool

theorem clear (ht : t.Sound) {h : Handle} (hc : t.clear h = .ok t') : Turnover t t' [] := by
  obtain ⟨n, -, hpool, hp⟩ := ht.perm_clear hc
  exact .of_give ht hp (Node.flatMap_freeOrder_perm n.children) hpool

theorem release (ht : t.Sound) (h : Handle) : Turnover t (t.release h) [] := by
  unfold Tree.release
  split
  · exact .refl t
  · split
    · exact .refl t
    · next n hn => exact .of_give ht (Node.handlesAll_removeAmong_perm ht.nodup hn) n.freeOrder_perm rfl

theorem setAttributes {h : Handle} {f : Attributes → Attributes} (hs : t.setAttributes h f = .ok t') :
    Turnover t t' [] := by
  obtain ⟨n, -, -, rfl⟩ := setAttributes_eq_ok_iff.1 hs
  exact .update fun n => Node.handles_congr (by simp) (by simp)

/-- The text that replaces what an element holds may be given a slot that has just been freed. -/
theorem setText (ht : t.Sound) {h : Handle} {content : String} (hs : t.setText h content = .ok t') :
    Turnover t t' (t.made (.setText h content)) := by
  obtain ⟨n, hn, hs'⟩ := setText_eq_ok_iff.1 hs
  have htext : t.isText h = n.isText := by simp [Tree.isText, hn]
  split at hs'
  · next hist =>
    have hmade : t.made (.setText h content) = [] := by simp [made, htext, hist]
    rw [hmade, ← hs']
    exact .update fun n => Node.handles_congr (by simp) (by simp)
  · next hist =>
    obtain ⟨cleared, hc, ha⟩ := hs'
    have hmade : t.made (.setText h content) = [] ++ [(cleared.createText content).1] ++ [] := by
      simp [made, htext, hist, hc, hs]
    have hsound := (ht.clear hc).createText content
    rw [hmade]
    refine trans_of_kept ht (hsound.append ha) (trans_of_kept ht hsound (.clear ht hc)
      (.createText (ht.clear hc) content) fun x hx => ?_) (.append hsound ha) fun x hx => ?_
    · rw [contains_iff] at hx ⊢
      simp [Tree.createText, hx]
    · rw [contains_iff] at hx ⊢
      exact (hsound.perm_append ha).1.mem_iff.1 hx

theorem setChecked {h : Handle} {on : Bool} (hs : t.setChecked h on = .ok t') : Turnover t t' [] := by
  unfold Tree.setChecked at hs
  split at hs
  · exact .setAttributes hs
  · exact .setAttributes hs

theorem setInput {h : Handle} {value : String} (hs : t.setInput h value = .ok t') : Turnover t t' [] := by
  unfold Tree.setInput at hs
  split at hs
  · exact .setChecked hs
  · exact .setAttributes hs

theorem after {x : Except Fault Tree} (hx : ∀ t', x = .ok t' → Turnover t t' []) : Turnover t (t.after x) [] := by
  cases x with
  | ok t' => exact hx t' rfl
  | error => exact .refl t

/-- Every operation is a turnover, whatever handles it is called with. -/
theorem edit (ht : t.Sound) (x : Edit) : Turnover t (t.edit x) (t.made x) := by
  cases x with
  | createElement tag => exact .createElement ht tag
  | createText content => exact .createText ht content
  | parse source =>
    exact .of_gives (ht.parse source) (Node.handlesAll_append ..) (Node.gives_ofMarkupAll t.pool (Markup.parse source))
  | append parent child => exact .after fun _ => .append ht
  | setAttribute node name value => exact .after fun _ => .setAttributes
  | removeAttribute node name => exact .after fun _ => .setAttributes
  | setText node content =>
    cases hs : t.setText node content with
    | ok t' => simpa only [Tree.edit, hs, Tree.after] using setText ht hs
    | error =>
      have hmade : t.made (.setText node content) = [] := by simp [made, hs]
      simpa only [Tree.edit, hs, hmade, Tree.after] using refl t
  | clear node => exact .after fun _ => .clear ht
  | release node => exact .release ht node
  | addEvent node event =>
    refine .after fun t' ha => ?_
    obtain ⟨n, -, rfl⟩ := addEvent_eq_ok_iff.1 ha
    exact .update fun n => Node.handles_congr (by simp) (by simp)
  | setInput node value => exact .after fun _ => .setInput
  | setChecked node on => exact .after fun _ => .setChecked

end Turnover

/-! ### Slots that are freed again and again -/

/-- The handle of the same slot some generations later. -/
def Handle.later (h : Handle) (k : Nat) : Handle := ⟨h.slot, h.generation + .ofNat k⟩

@[simp] theorem Handle.slot_later (h : Handle) (k : Nat) : (h.later k).slot = h.slot := rfl

@[simp] theorem Handle.later_zero (h : Handle) : h.later 0 = h :=
  congrArg (Handle.mk h.slot) (UInt32.add_zero h.generation)

theorem Handle.later_later (h : Handle) (j k : Nat) : (h.later j).later k = h.later (j + k) := by
  simp [later, UInt32.ofNat_add, UInt32.add_assoc]

/-- A slot has to be freed 2³² times before a handle comes back. -/
theorem Handle.later_ne (h : Handle) {k : Nat} (hpos : 0 < k) (hk : k < UInt32.size) : h.later k ≠ h := by
  intro he
  have hzero : h.generation + .ofNat k = h.generation + 0 := by
    rw [UInt32.add_zero]
    exact congrArg Handle.generation he
  have hk0 := congrArg UInt32.toNat ((UInt32.add_right_inj _).1 hzero)
  rw [UInt32.toNat_ofNat_of_lt' hk] at hk0
  exact Nat.ne_of_gt hpos hk0

/-- Every slot has been freed `k` times at most. -/
structure Ages (k : Nat) (t t' : Tree) : Prop where
  sound : t'.Sound
  latest : ∀ h, t.Latest h → ∃ j, j ≤ k ∧ t'.Latest (h.later j)

theorem Sound.exists_latest {t : Tree} (ht : t.Sound) {i : Nat} (hi : i < t.pool.slots) :
    ∃ h, t.Latest h ∧ h.slot = i := by
  have hone := ht i
  rw [if_pos hi] at hone
  have hpos : 0 < (Node.handlesAll t.nodes ++ t.pool.free).countP (·.slot = i) := by
    rw [List.countP_append]
    omega
  obtain ⟨h, hh, hs⟩ := List.countP_pos_iff.1 hpos
  exact ⟨h, hh, by simpa using hs⟩

section

variable {t t' t'' : Tree} {hs : List Handle} {j k : Nat}

/-- The latest handle of a slot stays the latest until its node is freed. -/
theorem Turnover.latest_or_next (h : Turnover t t' hs) (ht : t.Sound) (ht' : t'.Sound) {x : Handle}
    (hx : t.Latest x) : t'.Latest x ∨ (t.contains x = true ∧ t'.contains x = false ∧ t'.Latest x.next) := by
  obtain ⟨y, hy, hs⟩ := ht'.exists_latest (Nat.lt_of_lt_of_le (ht.slot_lt hx) h.slots)
  rcases h.latest y hy with ⟨hl, -⟩ | ⟨g, hg, rfl⟩ | ⟨hslot, -⟩
  · rw [ht.latest_unique hl hx hs] at hy
    exact .inl hy
  · obtain rfl := ht.latest_unique (latest_iff.2 (.inl hg)) hx hs
    refine .inr ⟨hg, Bool.eq_false_iff.2 fun hc => ?_, hy⟩
    exact g.next_ne (ht'.latest_unique hy (latest_iff.2 (.inl hc)) rfl)
  · have hlt := ht.slot_lt hx
    omega

namespace Ages

theorem refl (ht : t.Sound) : Ages 0 t t := ⟨ht, fun h hh => ⟨0, Nat.le_refl 0, by rwa [Handle.later_zero]⟩⟩

theorem mono (h : Ages j t t') (hjk : j ≤ k) : Ages k t t' := by
  refine ⟨h.sound, fun x hx => ?_⟩
  obtain ⟨i, hi, hlatest⟩ := h.latest x hx
  exact ⟨i, Nat.le_trans hi hjk, hlatest⟩

theorem trans (h : Ages j t t') (h' : Ages k t' t'') : Ages (j + k) t t'' := by
  refine ⟨h'.sound, fun x hx => ?_⟩
  obtain ⟨i, hi, hlatest⟩ := h.latest x hx
  obtain ⟨i', hi', hlatest'⟩ := h'.latest _ hlatest
  exact ⟨i + i', Nat.add_le_add hi hi', by rwa [← Handle.later_later]⟩

/-- An operation frees a slot once at most. -/
theorem of_turnover (h : Turnover t t' hs) (ht : t.Sound) (ht' : t'.Sound) : Ages 1 t t' := by
  refine ⟨ht', fun x hx => ?_⟩
  rcases h.latest_or_next ht ht' hx with hl | ⟨-, -, hl⟩
  · exact ⟨0, Nat.zero_le 1, by rwa [Handle.later_zero]⟩
  · exact ⟨1, Nat.le_refl 1, hl⟩

theorem release (ht : t.Sound) (h : Handle) : Ages 1 t (t.release h) :=
  .of_turnover (.release ht h) ht (ht.release h)

end Ages

/-- Nothing has been freed. -/
structure Retains (t t' : Tree) : Prop where
  sound : t'.Sound
  live : ∀ h, t.contains h = true → t'.contains h = true
  latest : ∀ h, t.Latest h → t'.Latest h

namespace Retains

theorem refl (ht : t.Sound) : Retains t t := ⟨ht, fun _ => id, fun _ => id⟩

theorem trans (h : Retains t t') (h' : Retains t' t'') : Retains t t'' :=
  ⟨h'.sound, fun x hx => h'.live x (h.live x hx), fun x hx => h'.latest x (h.latest x hx)⟩

theorem ages (h : Retains t t') : Ages 0 t t' :=
  ⟨h.sound, fun x hx => ⟨0, Nat.le_refl 0, by rw [Handle.later_zero]; exact h.latest x hx⟩⟩

theorem of_turnover (h : Turnover t t' hs) (ht : t.Sound) (ht' : t'.Sound)
    (hlive : ∀ x, t.contains x = true → t'.contains x = true) : Retains t t' := by
  refine ⟨ht', hlive, fun x hx => ?_⟩
  rcases h.latest_or_next ht ht' hx with hl | ⟨hc, hnot, -⟩
  · exact hl
  · rw [hlive x hc] at hnot
    cases hnot

theorem createElement (ht : t.Sound) (tag : String) : Retains t (t.createElement tag).2 := by
  refine .of_turnover (.createElement ht tag) ht (ht.createElement tag) fun x hx => ?_
  rw [contains_iff] at hx ⊢
  simp [Tree.createElement, hx]

theorem parse (ht : t.Sound) (source : String) : Retains t (t.parse source).2 := by
  refine .of_turnover (.edit ht (.parse source)) ht (ht.parse source) fun x hx => ?_
  rw [contains_iff] at hx ⊢
  simp [Tree.parse, Node.handlesAll_append, hx]

theorem append (ht : t.Sound) {parent child : Handle} (ha : t.append parent child = .ok t') : Retains t t' := by
  refine .of_turnover (.append ht ha) ht (ht.append ha) fun x hx => ?_
  rw [contains_iff] at hx ⊢
  exact (ht.perm_append ha).1.mem_iff.1 hx

theorem update (ht : t.Sound) {h : Handle} {f : Node → Node} (hf : ∀ n, (f n).handles = n.handles) :
    Retains t (t.update h f) := by
  refine .of_turnover (.update hf) ht (ht.update hf) fun x hx => ?_
  rw [contains_iff] at hx ⊢
  rwa [Tree.update, Node.handlesAll_updateAmong hf]

theorem setAttributes (ht : t.Sound) {h : Handle} {f : Attributes → Attributes}
    (hs : t.setAttributes h f = .ok t') : Retains t t' := by
  obtain ⟨n, -, -, rfl⟩ := setAttributes_eq_ok_iff.1 hs
  exact .update ht fun n => Node.handles_congr (by simp) (by simp)

theorem addEvent (ht : t.Sound) {h : Handle} {event : String} (ha : t.addEvent h event = .ok t') : Retains t t' := by
  obtain ⟨n, -, rfl⟩ := addEvent_eq_ok_iff.1 ha
  exact .update ht fun n => Node.handles_congr (by simp) (by simp)

/-- A new element has nothing that its text could replace. -/
theorem setText_createElement (ht : t.Sound) {tag content : String}
    (hs : (t.createElement tag).2.setText (t.createElement tag).1 content = .ok t') : Retains t t' := by
  have ht₁ := ht.createElement tag
  refine (createElement ht tag).trans (.of_turnover (.setText ht₁ hs) ht₁ (ht₁.setText hs) fun x hx => ?_)
  obtain ⟨y, pool, heq⟩ := Tree.setText_createElement ht tag content
  rw [heq, Except.ok.injEq] at hs
  subst hs
  rw [contains_iff] at hx ⊢
  simp only [Tree.createElement, Node.handlesAll_cons, Node.handles, Node.handlesAll_nil, List.mem_append,
    List.mem_cons] at hx ⊢
  rcases hx with (hx | hx) | hx
  · exact .inl (.inl hx)
  · cases hx
  · exact .inr hx

end Retains

/-- A node that is released leaves its slot to the next generation. -/
theorem Sound.latest_release (ht : t.Sound) {x : Handle} (hx : t.contains x = true) (hne : x ≠ .root) :
    (t.release x).Latest (x.later 1) := by
  have hdead : (t.release x).contains x = false := by
    obtain ⟨n, hn⟩ := Node.exists_findAmong?_of_mem (contains_iff.1 hx)
    have hp := Node.handlesAll_removeAmong_perm ht.nodup hn
    have hd := List.nodup_append.1 (hp.symm.nodup ht.nodup)
    rw [Bool.eq_false_iff, ne_eq, contains_iff, Tree.release, if_neg hne, show t.find? x = some n from hn]
    intro hin
    refine hd.2.2 x ?_ x hin rfl
    rw [Node.handles_eq, Node.handle_of_findAmong? hn]
    exact List.mem_cons_self
  rcases (Turnover.release ht x).latest_or_next ht (ht.release x) (latest_iff.2 (.inl hx)) with hl | ⟨-, -, hl⟩
  · have hc := (Turnover.release ht x).contains_of_latest ht hl hx
    rw [hdead] at hc
    cases hc
  · exact hl

end

/-! ### The history of a tree -/

/-- The handles of the nodes that an operation frees: they were live and are not any more. -/
def freed (t : Tree) (x : Edit) : List Handle := (Node.handlesAll t.nodes).filter fun h => !(t.edit x).contains h

/-- All handles that a sequence of operations gives out, the last ones first. -/
def allMade (t : Tree) : List Edit → List Handle
  | [] => []
  | x :: xs => (t.edit x).allMade xs ++ t.made x

/-- All handles that a sequence of operations frees, the last ones first. -/
def allFreed (t : Tree) : List Edit → List Handle
  | [] => []
  | x :: xs => (t.edit x).allFreed xs ++ t.freed x

theorem mem_freed {t : Tree} {x : Edit} {h : Handle} :
    h ∈ t.freed x ↔ t.contains h = true ∧ (t.edit x).contains h = false := by
  simp [freed, contains_iff]

/-- The nodes that are left and those that were freed are the former nodes and those that were made. -/
theorem Sound.perm_made {t : Tree} (ht : t.Sound) (x : Edit) :
    (Node.handlesAll (t.edit x).nodes ++ t.freed x).Perm (Node.handlesAll t.nodes ++ t.made x) := by
  have hturn := Turnover.edit ht x
  have hleft : (Node.handlesAll (t.edit x).nodes ++ t.freed x).Nodup := by
    refine List.nodup_append.2 ⟨(ht.edit x).nodup, ht.nodup.filter _, ?_⟩
    rintro h hh _ hf rfl
    rw [← contains_iff, (mem_freed.1 hf).2] at hh
    cases hh
  have hright : (Node.handlesAll t.nodes ++ t.made x).Nodup := by
    refine List.nodup_append.2 ⟨ht.nodup, hturn.nodup, ?_⟩
    rintro h hh _ hm rfl
    rw [← contains_iff, ((hturn.mem_iff h).1 hm).2] at hh
    cases hh
  rw [List.perm_ext_iff_of_nodup hleft hright]
  intro h
  rw [List.mem_append, List.mem_append, mem_freed, hturn.mem_iff, ← contains_iff, ← contains_iff]
  cases t.contains h <;> cases (t.edit x).contains h <;> simp

/-- The handles, the last one first, have as their generations how often their slots occur before them. -/
def Dated : List Handle → Prop
  | [] => True
  | h :: hs => h.generation = .ofNat (hs.countP (·.slot = h.slot)) ∧ Dated hs

namespace Dated

variable {gone past : List Handle}

theorem append (hp : Dated past) (hone : ∀ i, gone.countP (·.slot = i) ≤ 1)
    (hgen : ∀ g ∈ gone, g.generation = .ofNat (past.countP (·.slot = g.slot))) : Dated (gone ++ past) := by
  induction gone with
  | nil => exact hp
  | cons g gone ih =>
    have hnone : gone.countP (·.slot = g.slot) = 0 := by
      have hle := hone g.slot
      rw [List.countP_cons_of_pos (by simp)] at hle
      omega
    refine ⟨?_, ih (fun i => ?_) fun x hx => hgen x (List.mem_cons_of_mem _ hx)⟩
    · change g.generation = .ofNat ((gone ++ past).countP (·.slot = g.slot))
      rw [hgen g List.mem_cons_self, List.countP_append, hnone, Nat.zero_add]
    · exact Nat.le_trans ((List.sublist_cons_self g gone).countP_le) (hone i)

variable (hfew : ∀ i, past.countP (·.slot = i) < UInt32.size)
include hfew

theorem generation_lt (hp : Dated past) {h : Handle} (hh : h ∈ past) :
    h.generation.toNat < past.countP (·.slot = h.slot) := by
  induction past with
  | nil => cases hh
  | cons g past ih =>
    obtain ⟨hgen, hp⟩ := hp
    have hle : ∀ i, past.countP (·.slot = i) ≤ (g :: past).countP (·.slot = i) :=
      fun i => (List.sublist_cons_self g past).countP_le
    rcases List.mem_cons.1 hh with rfl | hh
    · have hlt : past.countP (·.slot = h.slot) < UInt32.size := Nat.lt_of_le_of_lt (hle _) (hfew _)
      rw [hgen, UInt32.toNat_ofNat_of_lt' hlt, List.countP_cons_of_pos (by simp)]
      exact Nat.lt_succ_self _
    · exact Nat.lt_of_lt_of_le (ih (fun i => Nat.lt_of_le_of_lt (hle i) (hfew i)) hp hh) (hle _)

theorem nodup (hp : Dated past) : past.Nodup := by
  induction past with
  | nil => exact .nil
  | cons g past ih =>
    obtain ⟨hgen, hp⟩ := hp
    have hfew' : ∀ i, past.countP (·.slot = i) < UInt32.size :=
      fun i => Nat.lt_of_le_of_lt (List.sublist_cons_self g past).countP_le (hfew i)
    refine List.nodup_cons.2 ⟨fun hg => ?_, ih hfew' hp⟩
    have hlt := generation_lt hfew' hp hg
    rw [hgen, UInt32.toNat_ofNat_of_lt' (hfew' _)] at hlt
    exact Nat.lt_irrefl _ hlt

end Dated

/-- What a tree has to do with the handles given out and the handles freed so far, the last ones first: the
generation of a slot counts how often it has been freed. -/
structure Chronicle (t : Tree) (made freed : List Handle) : Prop where
  sound : t.Sound
  perm : made.Perm (Node.handlesAll t.nodes ++ freed)
  latest : ∀ h, t.Latest h → h.generation = .ofNat (freed.countP (·.slot = h.slot))
  dated : Dated freed
  slots : ∀ h ∈ freed, h.slot < t.pool.slots

theorem chronicle_new : Chronicle new [.root] [] where
  sound := sound_new
  perm := .refl _
  latest h hh := by
    obtain rfl : h = .root := by simpa [Latest, new, Node.handles] using hh
    rfl
  dated := trivial
  slots h hh := by cases hh

namespace Chronicle

variable {t : Tree} {made freed : List Handle}

/-- An operation frees a slot once at most, and it frees the slots of which the latest handle changes. -/
theorem edit (hc : Chronicle t made freed) (x : Edit) :
    Chronicle (t.edit x) (t.made x ++ made) (t.freed x ++ freed) := by
  have ht := hc.sound
  have ht' := ht.edit x
  have hturn := Turnover.edit ht x
  have hlive : ∀ {h}, h ∈ t.freed x → t.Latest h := fun hh => latest_iff.2 (.inl (mem_freed.1 hh).1)
  have hone : ∀ i, (t.freed x).countP (·.slot = i) ≤ 1 := fun i =>
    Nat.le_trans (List.filter_sublist.trans (List.sublist_append_left ..)).countP_le (ht.countP_latest_le i)
  refine ⟨ht', ?_, fun h hh => ?_, hc.dated.append hone fun g hg => hc.latest g (hlive hg), fun h hh => ?_⟩
  · have hstep := ht.perm_made x
    have hperm := hc.perm
    rw [List.perm_iff_count] at hstep hperm ⊢
    intro h
    have hstep := hstep h
    have hperm := hperm h
    simp only [List.count_append] at hstep hperm ⊢
    omega
  · -- the latest handle of a slot was the latest before, or it follows one that has been freed, or the slot is new
    rw [List.countP_append]
    rcases hturn.latest h hh with ⟨hl, hkept⟩ | ⟨g, hg, rfl⟩ | ⟨hslot, hgen⟩
    · have hnone : (t.freed x).countP (·.slot = h.slot) = 0 := by
        rw [List.countP_eq_zero]
        intro g hg hs
        obtain rfl := ht.latest_unique (hlive hg) hl (by simpa using hs)
        obtain ⟨hbefore, hafter⟩ := mem_freed.1 hg
        rw [hkept hbefore] at hafter
        cases hafter
      rw [hnone, Nat.zero_add, hc.latest h hl]
    · have hfreed : g ∈ t.freed x := by
        refine mem_freed.2 ⟨hg, Bool.eq_false_iff.2 fun hlive => ?_⟩
        exact g.next_ne (ht'.latest_unique hh (latest_iff.2 (.inl hlive)) rfl)
      have hpos : 0 < (t.freed x).countP (·.slot = g.slot) := List.countP_pos_iff.2 ⟨g, hfreed, by simp⟩
      have hcount : (t.freed x).countP (·.slot = g.slot) = 1 := Nat.le_antisymm (hone _) hpos
      change g.generation + 1 = _
      rw [Handle.slot_next, hcount, hc.latest g (latest_iff.2 (.inl hg)), Nat.add_comm, UInt32.ofNat_add]
      rfl
    · have hnone : ∀ hs : List Handle, (∀ g ∈ hs, g.slot < t.pool.slots) → hs.countP (·.slot = h.slot) = 0 := by
        intro hs hlt
        rw [List.countP_eq_zero]
        intro g hg hs
        have hlt := hlt g hg
        have hs : g.slot = h.slot := by simpa using hs
        omega
      rw [hnone _ fun g hg => ht.slot_lt (hlive hg), hnone _ hc.slots, hgen]
      rfl
  · refine Nat.lt_of_lt_of_le ?_ hturn.slots
    rcases List.mem_append.1 hh with hh | hh
    · exact ht.slot_lt (hlive hh)
    · exact hc.slots h hh

theorem edits (hc : Chronicle t made freed) (xs : List Edit) :
    Chronicle (t.edits xs) (t.allMade xs ++ made) (t.allFreed xs ++ freed) := by
  induction xs generalizing t made freed with
  | nil => exact hc
  | cons x xs ih =>
    rw [allMade, allFreed, List.append_assoc, List.append_assoc]
    exact ih (hc.edit x)

variable (hfew : ∀ i, freed.countP (·.slot = i) < UInt32.size)
include hfew

/-- The handle of a freed node is dead. -/
theorem not_contains (hc : Chronicle t made freed) {h : Handle} (hh : h ∈ freed) : t.contains h = false := by
  rw [Bool.eq_false_iff]
  intro hlive
  have hlt := hc.dated.generation_lt hfew hh
  rw [hc.latest h (latest_iff.2 (.inl hlive)), UInt32.toNat_ofNat_of_lt' (hfew _)] at hlt
  exact Nat.lt_irrefl _ hlt

/-- No handle has been given out twice. -/
theorem nodup (hc : Chronicle t made freed) : made.Nodup := by
  refine hc.perm.symm.nodup (List.nodup_append.2 ⟨hc.sound.nodup, hc.dated.nodup hfew, ?_⟩)
  rintro h hlive _ hh rfl
  rw [← contains_iff, hc.not_contains hfew hh] at hlive
  cases hlive

end Chronicle

/-! ### Calls with dead handles -/

/-- The handles that an operation is called with. -/
def Edit.handles : Edit → List Handle
  | .createElement _ | .createText _ | .parse _ => []
  | .append parent child => [parent, child]
  | .setAttribute node _ _ | .removeAttribute node _ | .setText node _ | .clear node | .release node
  | .addEvent node _ | .setInput node _ | .setChecked node _ => [node]

/-- What a call comes to: the changed tree, or the fault with which it is refused. -/
def outcome (t : Tree) : Edit → Except Fault Tree
  | .createElement tag => .ok (t.createElement tag).2
  | .createText content => .ok (t.createText content).2
  | .parse source => .ok (t.parse source).2
  | .append parent child => t.append parent child
  | .setAttribute node name value => t.setAttribute node name value
  | .removeAttribute node name => t.removeAttribute node name
  | .setText node content => t.setText node content
  | .clear node => t.clear node
  | .release node => .ok (t.release node)
  | .addEvent node event => t.addEvent node event
  | .setInput node value => t.setInput node value
  | .setChecked node on => t.setChecked node on

theorem edit_eq (t : Tree) (x : Edit) : t.edit x = t.after (t.outcome x) := by cases x <;> rfl

theorem contains_of_find? {t : Tree} {h : Handle} {n : Node} (hn : t.find? h = some n) : t.contains h = true := by
  rw [contains, hn, Option.isSome_some]

theorem contains_of_setAttributes {t t' : Tree} {h : Handle} {f : Attributes → Attributes}
    (hs : t.setAttributes h f = .ok t') : t.contains h = true := by
  obtain ⟨n, hn, -⟩ := setAttributes_eq_ok_iff.1 hs
  exact contains_of_find? hn

theorem contains_of_setChecked {t t' : Tree} {h : Handle} {on : Bool} (hs : t.setChecked h on = .ok t') :
    t.contains h = true := by
  unfold setChecked at hs
  split at hs
  · exact contains_of_setAttributes hs
  · exact contains_of_setAttributes hs

/-- A call that succeeds was made with live handles, unless it is a release. -/
theorem contains_of_outcome {t t' : Tree} {x : Edit} (hx : t.outcome x = .ok t') {h : Handle} (hh : h ∈ x.handles) :
    x = .release h ∨ t.contains h = true := by
  cases x with
  | createElement | createText | parse => cases hh
  | append parent child =>
    obtain ⟨p, hp, -, c, hc, -⟩ := append_eq_ok_iff.1 hx
    simp only [Edit.handles, List.mem_cons, List.not_mem_nil, or_false] at hh
    rcases hh with rfl | rfl
    · exact .inr (contains_of_find? hp)
    · exact .inr (contains_of_find? hc)
  | setAttribute | removeAttribute =>
    obtain rfl := List.mem_singleton.1 hh
    exact .inr (contains_of_setAttributes hx)
  | setText node content =>
    obtain rfl := List.mem_singleton.1 hh
    obtain ⟨n, hn, -⟩ := setText_eq_ok_iff.1 hx
    exact .inr (contains_of_find? hn)
  | clear node =>
    obtain rfl := List.mem_singleton.1 hh
    obtain ⟨n, hn, -⟩ := clear_eq_ok_iff.1 hx
    exact .inr (contains_of_find? hn)
  | release node =>
    obtain rfl := List.mem_singleton.1 hh
    exact .inl rfl
  | addEvent node event =>
    obtain rfl := List.mem_singleton.1 hh
    obtain ⟨n, hn, -⟩ := addEvent_eq_ok_iff.1 hx
    exact .inr (contains_of_find? hn)
  | setInput node value =>
    obtain rfl := List.mem_singleton.1 hh
    change t.setInput h value = .ok t' at hx
    unfold setInput at hx
    split at hx
    · exact .inr (contains_of_setChecked hx)
    · exact .inr (contains_of_setAttributes hx)
  | setChecked node on =>
    obtain rfl := List.mem_singleton.1 hh
    exact .inr (contains_of_setChecked hx)

theorem release_of_dead {t : Tree} {h : Handle} (hh : t.contains h = false) : t.release h = t := by
  have hn : t.find? h = none := by simpa [contains] using hh
  unfold release
  split
  · rfl
  · rw [hn]

/-- A call with a dead handle changes nothing, and it is refused unless it is a release. -/
theorem edit_of_dead {t : Tree} {h : Handle} (hdead : t.contains h = false) {x : Edit} (hh : h ∈ x.handles) :
    t.edit x = t ∧ (x = .release h ∨ ∃ fault, t.outcome x = .error fault) := by
  cases hx : t.outcome x with
  | error fault => exact ⟨by rw [edit_eq, hx, after], .inr ⟨fault, rfl⟩⟩
  | ok t' =>
    rcases contains_of_outcome hx hh with rfl | hlive
    · exact ⟨release_of_dead hdead, .inl rfl⟩
    · rw [hdead] at hlive
      cases hlive

/-- As long as no slot is freed 2³² times, no handle is given out twice, and the handle of a freed node is dead for
good: a call with it changes nothing and is refused, or is a release. -/
theorem handles_never_alias (xs : List Edit) (hfew : ∀ i, (new.allFreed xs).countP (·.slot = i) < UInt32.size) :
    (new.allMade xs ++ [Handle.root]).Nodup ∧
      ∀ h ∈ new.allFreed xs, (new.edits xs).contains h = false ∧
        ∀ x : Edit, h ∈ x.handles → (new.edits xs).edit x = new.edits xs ∧
          (x = .release h ∨ ∃ fault, (new.edits xs).outcome x = .error fault) := by
  have hc := chronicle_new.edits xs
  rw [List.append_nil] at hc
  refine ⟨hc.nodup hfew, fun h hh => ?_⟩
  have hdead := hc.not_contains hfew hh
  exact ⟨hdead, fun x hx => edit_of_dead hdead hx⟩

/-- A paragraph is freed, and the text made next has its slot. -/
theorem handles_never_alias_reused :
    new.allMade [.createElement "p", .release ⟨1, 0⟩, .createText "x"] = [⟨1, 1⟩, ⟨1, 0⟩] ∧
      new.allFreed [.createElement "p", .release ⟨1, 0⟩, .createText "x"] = [⟨1, 0⟩] ∧
      (new.edits [.createElement "p", .release ⟨1, 0⟩, .createText "x"]).contains ⟨1, 0⟩ = false ∧
      (new.edits [.createElement "p", .release ⟨1, 0⟩, .createText "x"]).edit (.append .root ⟨1, 0⟩) =
        new.edits [.createElement "p", .release ⟨1, 0⟩, .createText "x"] := by
  have hfreed : new.allFreed [.createElement "p", .release ⟨1, 0⟩, .createText "x"] = [⟨1, 0⟩] := by decide +kernel
  have hall := handles_never_alias [.createElement "p", .release ⟨1, 0⟩, .createText "x"] fun i => by
    rw [hfreed]
    exact Nat.lt_of_le_of_lt List.countP_le_length (by decide)
  obtain ⟨hdead, hcalls⟩ := hall.2 ⟨1, 0⟩ (by rw [hfreed]; exact List.mem_cons_self)
  exact ⟨by decide +kernel, hfreed, hdead, (hcalls (.append .root ⟨1, 0⟩) (by decide)).1⟩

end Trellis.Tree
