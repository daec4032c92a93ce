import Trellis.Proofs.Tree.Stored

/-!
# Operations on a stored tree

Every operation on an arena that stores a tree does what the operation on the tree does. It fails with the same fault,
and has written nothing in that case, or it leaves an arena that stores the new tree. While a link is being written the
arena stores no tree, so that each operation is compared as a whole.
-/
namespace Trellis.Tree.Arena

/-! ### New nodes and changed nodes -/

namespace Stores

variable {a a' : Arena} {t t' : Tree} {h x parent child : Handle} {n : Node}

/-- A new node at the top, which holds nothing, is stored in a new cell. -/
theorem alloc (hs : a.Stores t) (n : Node) (data : Data) (hhandle : n.handle = t.pool.take.1)
    (hchildren : n.children = []) (hcell : n.row.cell none = .new data) :
    (a.alloc data).1 = n.handle ∧ (a.alloc data).2.Stores ⟨n :: t.nodes, t.pool.take.2⟩ := by
  have hsound : (⟨n :: t.nodes, t.pool.take.2⟩ : Tree).Sound := by
    rw [Sound, Node.handlesAll_cons, Node.handles_eq, hchildren, hhandle]
    exact Pool.Covers.take hs.sound
  have hfresh : t.contains n.handle = false := by
    refine Bool.eq_false_iff.2 fun hin => ?_
    exact (Node.nodup_handlesAll_cons.1 hsound.nodup).2.1 (contains_iff.1 hin)
  have hfst : (a.alloc data).1 = n.handle := by rw [alloc_fst, hs.pool, hhandle]
  refine ⟨hfst, hsound, fun x => ?_, by rw [pool_alloc, hs.pool]⟩
  rw [cell?_alloc hs.free_lt, hfst, hs.sound.cell?_create hchildren hfresh, hcell, hs.cell]

theorem update (hs : a.Stores t) {f : Node → Node} {g : Cell → Cell} (hhandle : ∀ n, (f n).handle = n.handle)
    (hchildren : ∀ n, (f n).children = n.children) (hg : ∀ n parent, (f n).row.cell parent = g (n.row.cell parent))
    (h : Handle) : (a.modify h g).Stores (t.update h f) where
  sound := hs.sound.update fun n => Node.handles_congr (hhandle n) (hchildren n)
  cell x := by rw [cell?_modify, hs.sound.cell?_update hhandle hchildren hg, hs.cell]
  pool := (pool_modify a h g).trans hs.pool

end Stores

/-- An operation on an arena does what an operation on a tree does: both fail with the same fault, and nothing is
written, or both succeed, and the new arena stores the new tree. -/
inductive Follows (a : Arena) (x : Op Unit) : Except Fault Tree → Prop
  | done {a' : Arena} {t' : Tree} (hx : x.run a = .ok () a') (hs : a'.Stores t') : Follows a x (.ok t')
  | failed {fault : Fault} (hx : x.run a = .error fault a) : Follows a x (.error fault)

theorem Follows.congr {a : Arena} {x y : Op Unit} {r : Except Fault Tree} (hf : a.Follows x r)
    (hxy : y.run a = x.run a) : a.Follows y r := by
  cases hf with
  | done hx hs => exact .done (hxy.trans hx) hs
  | failed hx => exact .failed (hxy.trans hx)

theorem Follows.of_error {a : Arena} {x : Op Unit} {r : Except Fault Tree} {fault : Fault} (hf : a.Follows x r)
    (hr : r = .error fault) : x.run a = .error fault a := by
  cases hf with
  | done => cases hr
  | failed hx =>
    cases hr
    exact hx

theorem Follows.eq_error {a a' : Arena} {x : Op Unit} {r : Except Fault Tree} {fault : Fault} (hf : a.Follows x r)
    (hx : x.run a = .error fault a') : r = .error fault := by
  cases hf with
  | done hx' => cases hx'.symm.trans hx
  | failed hx' =>
    cases hx'.symm.trans hx
    rfl

theorem Follows.of_ok {a : Arena} {x : Op Unit} {r : Except Fault Tree} {t' : Tree} (hf : a.Follows x r)
    (hr : r = .ok t') : ∃ a', x.run a = .ok () a' ∧ a'.Stores t' := by
  cases hf with
  | done hx hs => exact ⟨_, hx, Except.ok.inj hr ▸ hs⟩
  | failed => cases hr

namespace Stores

variable {a a' : Arena} {t t' : Tree} {h x parent child : Handle} {n : Node}

theorem cell_of_not_contains (hs : a.Stores t) (hh : t.contains h = false) : a.cell? h = none := by
  rw [hs.cell, cell?_eq_none_iff.2 hh]

theorem data_isText (n : Node) (parent : Option Handle) : (n.row.cell parent).data.isText = n.isText := by
  cases n <;> rfl

/-- Both sides fail at a node that is not live. -/
theorem follows_of_dead (hs : a.Stores t) (hh : t.contains h = false) (f : Cell → Op Unit)
    (g : Node → Except Fault Tree) : a.Follows (node h >>= f) (t.node h >>= g) := by
  rw [node_eq_error_iff.2 ⟨hh, rfl⟩]
  exact .failed (run_bind_error (node_run_of_none (hs.cell_of_not_contains hh)) f)

theorem setAttributes (hs : a.Stores t) (h : Handle) (f : Attributes → Attributes) :
    a.Follows (setAttributes h f) (t.setAttributes h f) := by
  cases hn : t.find? h with
  | none => exact hs.follows_of_dead (contains_eq_false_iff.2 hn) _ _
  | some n =>
    have hc := hs.cell_of_find? hn
    cases htext : n.isText with
    | true =>
      have htree : t.setAttributes h f = .error (.textNode .attributes) := by
        rw [Tree.setAttributes, node_eq_ok_iff.2 hn]
        simp [bind, Except.bind, htext, throw, throwThe, MonadExceptOf.throw]
      rw [htree]
      refine .failed ?_
      rw [Arena.setAttributes, run_bind_ok (node_run_of_some hc), if_pos (by rw [data_isText, htext])]
      rfl
    | false =>
      rw [setAttributes_eq_ok_iff.2 ⟨n, hn, htext, rfl⟩]
      have hrun : (Arena.setAttributes h f).run a = .ok () (a.modify h (.setData (.setAttributes f))) := by
        rw [Arena.setAttributes, run_bind_ok (node_run_of_some hc), if_neg (by simp [data_isText, htext])]
        exact change_run hc _
      refine .done hrun (hs.update (fun n => by simp) (fun n => by simp) (fun n _ => ?_) h)
      cases n <;> rfl

theorem addEvent (hs : a.Stores t) (h : Handle) (event : String) :
    a.Follows (addEvent h event) (t.addEvent h event) := by
  cases hn : t.find? h with
  | none => exact hs.follows_of_dead (contains_eq_false_iff.2 hn) _ _
  | some n =>
    rw [addEvent_eq_ok_iff.2 ⟨n, hn, rfl⟩]
    refine .done (change_run (hs.cell_of_find? hn) _)
      (hs.update (fun n => by simp) (fun n => by simp) (fun n _ => ?_) h)
    cases n <;> rfl

theorem setChecked (hs : a.Stores t) (h : Handle) (on : Bool) :
    a.Follows (setChecked h on) (t.setChecked h on) := by
  rw [Arena.setChecked, Tree.setChecked]
  split
  · exact hs.setAttributes h _
  · exact hs.setAttributes h _

theorem setInput (hs : a.Stores t) (h : Handle) (value : String) :
    a.Follows (setInput h value) (t.setInput h value) := by
  have htype : (a.cell? h).bind (·.data.attribute? "type") = t.attribute? h "type" := by
    rw [hs.cell, Tree.attribute?]
    cases hn : t.find? h with
    | none => rw [cell?_eq_none_iff.2 (contains_eq_false_iff.2 hn)]; rfl
    | some n => rw [cell?_of_find? hn]; cases n <;> rfl
  have hrun : (Arena.setInput h value).run a =
      (if t.attribute? h "type" = some "checkbox" then Arena.setChecked h (["true", "on", "1"].contains value)
        else Arena.setAttributes h (.set "value" value)).run a := by
    rw [Arena.setInput, run_get_bind, htype]
  rw [Tree.setInput]
  split at hrun <;> rename_i hbox
  · rw [if_pos hbox]
    exact (hs.setChecked h _).congr hrun
  · rw [if_neg hbox]
    exact (hs.setAttributes h _).congr hrun

/-! ### Moving -/

/-- A node is taken from its parent, and nothing else changes. -/
theorem detach (hs : a.Stores t) (hn : t.find? child = some n) :
    ∃ a', (detach child).run a = .ok () a' ∧ a'.pool = t.pool ∧
      ∀ x, a'.cell? x = (t.cell? x).map (Cell.detached child x) := by
  have hc := hs.cell_of_find? hn
  -- only a node that is the parent has the child among its children
  have hkeep : ∀ x d, t.cell? x = some d → t.parent? child ≠ some x → child ∉ d.children := by
    intro x d hd hne hin
    obtain ⟨m, hm, rfl⟩ := exists_find?_of_cell? hd
    exact hne (hs.sound.parent?_iff_find?.2 ⟨m, hm, hin⟩)
  cases hp : t.parent? child with
  | none =>
    refine ⟨a, ?_, hs.pool, fun x => ?_⟩
    · rw [Arena.detach, run_bind_ok (node_run_of_some hc), Row.cell, hp]
      rfl
    · rw [hs.cell]
      cases hd : t.cell? x with
      | none => rfl
      | some d =>
        refine congrArg some (Cell.detached_eq_self ?_ (hkeep x d hd (by simp [hp]))).symm
        rintro rfl
        obtain ⟨m, -, rfl⟩ := exists_find?_of_cell? hd
        exact hp
  | some p =>
    have hlive : (a.modify p (.setChildren (·.filter (· ≠ child)))).cell? child ≠ none := by
      rw [cell?_modify, hc]
      split <;> simp
    obtain ⟨c', hc'⟩ := Option.ne_none_iff_exists'.1 hlive
    have hrun : (Arena.detach child).run a =
        .ok () ((a.modify p (.setChildren (·.filter (· ≠ child)))).modify child (.setParent none)) := by
      rw [Arena.detach, run_bind_ok (node_run_of_some hc), Row.cell, hp]
      exact change_run hc' _
    refine ⟨_, hrun, by rw [pool_modify, pool_modify, hs.pool], fun x => ?_⟩
    rw [cell?_modify, cell?_modify, hs.cell]
    cases hd : t.cell? x with
    | none => simp
    | some d =>
      have hkids : d.children.filter (· ≠ child) = if x = p then d.children.filter (· ≠ child) else d.children := by
        split
        · rfl
        · next hx =>
          refine List.filter_eq_self.2 fun y hy => decide_eq_true fun he => ?_
          exact hkeep x d hd (by simpa [hp] using Ne.symm hx) (he ▸ hy)
      simp only [Option.map_some, Cell.detached]
      rw [hkids]
      by_cases hx : x = child
      · rw [if_pos hx, if_pos hx]
        split <;> rfl
      · rw [if_neg hx, if_neg hx]
        split <;> rfl

theorem move (hs : a.Stores t) (ha : t.append parent child = .ok t') :
    ∃ a', (move parent child).run a = .ok () a' ∧ a'.Stores t' := by
  obtain ⟨p, hp, -, c, hc, -⟩ := append_eq_ok_iff.1 ha
  have hne := ne_of_append ha
  obtain ⟨a₁, hdetach, hpool, hcell⟩ := hs.detach hc
  have hp₁ := hcell parent
  rw [cell?_of_find? hp, Option.map_some] at hp₁
  have hc₁ := hcell child
  rw [cell?_of_find? hc, Option.map_some] at hc₁
  obtain ⟨d, hc₂⟩ : ∃ d, (a₁.modify parent (.setChildren (· ++ [child]))).cell? child = some d :=
    ⟨_, by rw [cell?_modify, if_neg hne.symm, hc₁]⟩
  have hrun : (Arena.move parent child).run a =
      .ok () ((a₁.modify parent (.setChildren (· ++ [child]))).modify child (.setParent (some parent))) := by
    rw [Arena.move, run_bind_ok hdetach, run_bind_ok (change_run hp₁ _), change_run hc₂]
  refine ⟨_, hrun, hs.sound.append ha, fun x => ?_, ?_⟩
  · rw [cell?_modify, cell?_modify, hcell, hs.sound.cell?_append ha]
    cases t.cell? x with
    | none => simp
    | some d =>
      by_cases hx : x = child
      · subst hx
        simp [hne.symm, Cell.moved, Cell.detached, Cell.setParent]
      · by_cases hxp : x = parent
        · subst hxp
          simp [hx, Cell.moved, Cell.detached, Cell.setChildren]
        · simp [hx, hxp, Cell.moved, Cell.detached]
  · rw [pool_modify, pool_modify, hpool, (hs.sound.perm_append ha).2]

theorem append (hs : a.Stores t) (parent child : Handle) :
    a.Follows (append parent child) (t.append parent child) := by
  cases hp : t.find? parent with
  | none => exact hs.follows_of_dead (contains_eq_false_iff.2 hp) _ _
  | some p =>
    have hcp := hs.cell_of_find? hp
    cases htext : p.isText with
    | true =>
      rw [append_eq_error_iff.2 (.inr ⟨p, hp, .inl ⟨htext, rfl⟩⟩)]
      refine .failed ?_
      rw [Arena.append, run_bind_ok (node_run_of_some hcp), if_pos (by rw [data_isText, htext])]
      rfl
    | false =>
      have hpass : (Row.cell (t.parent? parent) p.row).data.isText = false := by rw [data_isText, htext]
      cases hc : t.find? child with
      | none =>
        have hdead := contains_eq_false_iff.2 hc
        rw [append_eq_error_iff.2 (.inr ⟨p, hp, .inr ⟨htext, .inl ⟨hdead, rfl⟩⟩⟩)]
        exact .failed (append_run_of_dead hcp hpass (hs.cell_of_not_contains hdead))
      | some c =>
        have hrun := append_run hcp hpass (hs.cell_of_find? hc)
        have hunder : a.isAncestor child parent = true ↔ (c.find? parent).isSome = true := by
          rw [hs.isAncestor_iff, hs.sound.under_iff hc, mem_handles_iff]
        cases hin : (c.find? parent).isSome with
        | true =>
          rw [append_eq_error_iff.2 (.inr ⟨p, hp, .inr ⟨htext, .inr ⟨c, hc, hin, rfl⟩⟩⟩)]
          exact .failed (hrun.trans (if_pos (hunder.2 hin)))
        | false =>
          have ha := append_eq_ok_iff.2 ⟨p, hp, htext, c, hc, hin, rfl⟩
          obtain ⟨a', hmove, hs'⟩ := hs.move ha
          have hnot : ¬a.isAncestor child parent = true := by simp [hunder, hin]
          rw [ha]
          exact .done ((hrun.trans (if_neg hnot)).trans hmove) hs'

/-! ### Freeing -/

theorem holds (hs : a.Stores t) {hs' : List Handle} (hlive : ∀ x ∈ hs', t.contains x = true) : a.Holds t hs' := by
  intro x hx
  obtain ⟨m, hm⟩ := Option.isSome_iff_exists.1 (hlive x hx)
  refine ⟨_, hs.cell_of_find? hm, ?_⟩
  rw [childrenOf, hm]
  rfl

/-- The nodes that have gone from a tree are freed in an arena in which only they differ from what the tree has become.
-/
theorem of_frees {freed : List Handle} (ht : t.Sound) (ht' : t'.Sound) (hf : t.Frees t' freed) (hpool : a.pool = t.pool)
    (hlive : ∀ x ∈ freed, ∃ c, a.cell? x = some c) (hcell : ∀ x, x ∉ freed → a.cell? x = t'.cell? x) :
    (a.retireAll freed).Stores t' := by
  have hfree : a.free = t.pool.free.map Handle.slot := by
    rw [← hpool, Arena.pool, List.map_map]
    exact (List.map_id _).symm
  refine ⟨ht', fun x => ?_, ?_⟩
  · rw [cell?_retireAll]
    split
    · next hin =>
      obtain ⟨y, hy, he⟩ := List.mem_map.1 hin
      have hwaits : x.slot ∈ t'.pool.free.map Handle.slot := by
        rw [← he, ← List.count_pos_iff, (hf.slots y hy).2]
        exact Nat.one_pos
      refine (cell?_eq_none_iff.2 (Bool.eq_false_iff.2 fun hx => ?_)).symm
      exact ((ht'.wellFormed.free_iff x.slot).1 hwaits).2 x hx rfl
    · next hout => exact hcell x fun hx => hout (List.mem_map_of_mem hx)
  · have hslots : (freed.map Handle.slot).Nodup :=
      hf.once.map_on fun x hx y hy he => ht.slot_injective (hf.live x hx) (hf.live y hy) he
    rw [pool_retireAll hlive hslots fun x hx => hfree ▸ (hf.slots x hx).1, hpool, hf.pool]

/-- What a node holds is still there when its list of children has been emptied. -/
theorem holds_emptied (hs : a.Stores t) (hn : t.find? h = some n) :
    (a.modify h (.setChildren fun _ => [])).Holds t (Node.handlesAll n.children) := by
  intro x hx
  rw [cell?_modify, if_neg ((hs.sound.mem_below_iff hn).1 hx).2]
  exact hs.holds (fun x hx => (hs.sound.stands hn).children.contains hx) x hx

theorem clear (hs : a.Stores t) (h : Handle) : a.Follows (clear h) (t.clear h) := by
  cases hn : t.find? h with
  | none => exact hs.follows_of_dead (contains_eq_false_iff.2 hn) _ _
  | some n =>
    have ht := hs.sound
    have hc := clear_eq_ok_iff.2 ⟨n, hn, rfl⟩
    have hcell := hs.cell_of_find? hn
    have hholds := hs.holds_emptied hn
    have hrun : (Arena.clear h).run a = .ok ()
        ((n.children.map Node.handle).foldl freeSubtree (a.modify h (.setChildren fun _ => []))) := by
      rw [Arena.clear, run_bind_ok (node_run_of_some hcell), run_bind_ok (change_run hcell _)]
      rfl
    have hsize := hs.size_le_of_pool ((pool_modify a h (.setChildren fun _ => [])).trans hs.pool)
    rw [foldl_freeSubtree_eq ht (ht.stands hn).children hholds hsize] at hrun
    have hfreed : ∀ x, x ∈ n.children.flatMap Node.freeOrder ↔ x ∈ Node.handlesAll n.children := fun x =>
      (Node.flatMap_freeOrder_perm n.children).mem_iff
    rw [hc]
    refine .done hrun (of_frees ht (ht.clear hc) (ht.frees_clear hc hn) (by rw [pool_modify, hs.pool]) ?_ ?_)
    · intro x hx
      obtain ⟨c, hc, -⟩ := hholds x ((hfreed x).1 hx)
      exact ⟨c, hc⟩
    · intro x hx
      rw [cell?_modify, hs.cell, ht.cell?_clear hc hn fun hin => hx ((hfreed x).2 hin)]
      split
      · rfl
      · exact Option.map_id'.symm

/-- A node that has been taken from its parent still has all that it holds. -/
theorem holds_detached (hs : a.Stores t) (hn : t.find? h = some n)
    (hcell : ∀ x, a'.cell? x = (t.cell? x).map (Cell.detached h x)) : a'.Holds t n.handles := by
  intro x hx
  have hlive : t.contains x = true := (hs.sound.stands hn).contains (by simpa using hx)
  obtain ⟨m, hm⟩ := Option.isSome_iff_exists.1 hlive
  refine ⟨_, by rw [hcell, cell?_of_find? hm, Option.map_some], ?_⟩
  have hout := hs.sound.not_mem_children_of_under hn hx hm
  rw [childrenOf, hm]
  exact List.filter_eq_self.2 fun y hy => decide_eq_true fun he => hout (he ▸ hy)

theorem release (hs : a.Stores t) (h : Handle) : (a.release h).Stores (t.release h) := by
  rw [Arena.release]
  split
  · next hroot =>
    rw [Tree.release, if_pos hroot]
    exact hs
  · next hroot =>
    have ht := hs.sound
    cases hn : t.find? h with
    | none =>
      have hrun : (Arena.detach h).run a = .error (.unknownNode h.label) a :=
        run_bind_error (node_run_of_none (hs.cell_of_not_contains (contains_eq_false_iff.2 hn))) _
      rw [Tree.release, if_neg hroot, hn, hrun]
      exact hs
    | some n =>
      obtain ⟨a₁, hdetach, hpool, hcell⟩ := hs.detach hn
      have hholds := hs.holds_detached hn hcell
      have hfreed : ∀ x, x ∈ n.freeOrder ↔ x ∈ n.handles := fun x => (Node.freeOrder_perm n).mem_iff
      rw [hdetach]
      change (a₁.freeSubtree h).Stores _
      rw [freeSubtree_eq ht hn hholds (hs.size_le_of_pool hpool)]
      refine of_frees ht (ht.release h) (ht.frees_release hroot hn) hpool ?_ ?_
      · intro x hx
        obtain ⟨c, hc, -⟩ := hholds x ((hfreed x).1 hx)
        exact ⟨c, hc⟩
      · intro x hx
        rw [hcell, ht.cell?_release hroot hn fun hin => hx ((hfreed x).2 hin)]

theorem setText (hs : a.Stores t) (h : Handle) (content : String) :
    a.Follows (setText h content) (t.setText h content) := by
  cases hn : t.find? h with
  | none => exact hs.follows_of_dead (contains_eq_false_iff.2 hn) _ _
  | some n =>
    have hcell := hs.cell_of_find? hn
    cases htext : n.isText with
    | true =>
      have htree : t.setText h content = .ok (t.update h (.setContent content)) :=
        setText_eq_ok_iff.2 ⟨n, hn, by rw [if_pos htext]⟩
      have hrun : (Arena.setText h content).run a = .ok () (a.modify h (.setData (.setContent content))) := by
        rw [Arena.setText, run_bind_ok (node_run_of_some hcell), if_pos (by rw [data_isText, htext])]
        exact change_run hcell _
      rw [htree]
      refine .done hrun (hs.update (fun n => by simp) (fun n => by simp) (fun n _ => ?_) h)
      cases n <;> rfl
    | false =>
      have hclear := clear_eq_ok_iff.2 ⟨n, hn, rfl⟩
      have hfollows := hs.clear h
      generalize hcleared : ({ t.update h (.setChildren fun _ => []) with
        pool := t.pool.give (n.children.flatMap Node.freeOrder) } : Tree) = cleared at hclear
      rw [hclear] at hfollows
      cases hfollows with
      | @done a₁ _ hrun₁ hs₁ =>
        have hfind : cleared.find? h = some (n.setChildren fun _ => []) := by
          rw [← hcleared]
          change Node.findAmong? h (Node.updateAmong h _ _) = _
          rw [Node.findAmong?_updateAmong_self (Node.handle_setChildren _),
            show Node.findAmong? h t.nodes = some n from hn]
          rfl
        obtain ⟨hfst, hs₂⟩ := hs₁.alloc (.text cleared.pool.take.1 content []) (.text content) rfl rfl rfl
        obtain ⟨t', happend⟩ : ∃ t', (cleared.createText content).2.append h cleared.pool.take.1 = .ok t' :=
          ⟨_, @append_top (cleared.createText content).2 [] cleared.nodes (.text cleared.pool.take.1 content []) _ h []
            (hs₁.sound.createText content) rfl hfind (by rw [Node.isText_setChildren, htext])⟩
        obtain ⟨a₃, hrun₃, hs₃⟩ := (hs₂.append h cleared.pool.take.1).of_ok happend
        rw [setText_eq_ok_iff.2 ⟨n, hn, by rw [if_neg (by simp [htext])]; exact ⟨cleared, hclear, happend⟩⟩]
        refine .done ?_ hs₃
        rw [Arena.setText, run_bind_ok (node_run_of_some hcell), if_neg (by simp [data_isText, htext]),
          run_bind_ok hrun₁]
        change (Arena.append h (a₁.alloc (.text content)).1).run (a₁.alloc (.text content)).2 = _
        rw [hfst]
        exact hrun₃

/-! ### Building -/

/-- A node at the top is linked to another. -/
theorem link (hs : a.Stores t) (htop : t.parent? child = none) (ha : t.append parent child = .ok t') :
    (a.link parent child).Stores t' := by
  have hne := ne_of_append ha
  refine ⟨hs.sound.append ha, fun x => ?_, ?_⟩
  · rw [Arena.link, cell?_modify, cell?_modify, hs.cell, hs.sound.cell?_append ha]
    cases hd : t.cell? x with
    | none => simp
    | some d =>
      -- no node has it among its children so far
      have hkids : d.children.filter (· ≠ child) = d.children := by
        obtain ⟨m, hm, rfl⟩ := exists_find?_of_cell? hd
        refine List.filter_eq_self.2 fun y hy => decide_eq_true fun he => ?_
        have hparent := hs.sound.parent?_iff_find?.2 ⟨m, hm, he ▸ hy⟩
        rw [htop] at hparent
        cases hparent
      simp only [Option.map_some, Cell.moved]
      rw [hkids]
      by_cases hx : x = child
      · subst hx
        simp [hne.symm, Cell.setParent]
      · by_cases hxp : x = parent
        · subst hxp
          simp [hx, Cell.setChildren]
        · simp [hx, hxp]
  · rw [Arena.link, pool_modify, pool_modify, hs.pool, (hs.sound.perm_append ha).2]

/-- A node that has just been built is linked to the element before it. -/
theorem link_top {tag : String} {attributes : Attributes} {events : List String} {cs ns : List Node} {pool : Pool}
    (hs : a.Stores ⟨n :: .element h tag attributes events cs :: ns, pool⟩) :
    (a.link h n.handle).Stores ⟨.element h tag attributes events (cs ++ [n]) :: ns, pool⟩ := by
  have hd := (Node.nodup_handlesAll_cons.1 hs.sound.nodup).2.2.2.1
  have hfind := @Node.findAmong?_middle [] ns (.element h tag attributes events cs) hd
  have happend := @append_top _ [] _ n _ h [] hs.sound rfl hfind rfl
  have hupdate : Node.updateAmong h (.setChildren (· ++ [n])) (.element h tag attributes events cs :: ns) =
      .element h tag attributes events (cs ++ [n]) :: ns :=
    @Node.updateAmong_middle [] ns (.element h tag attributes events cs) _ hd
  rw [hupdate] at happend
  exact hs.link (Node.parentAmong?_of_top hs.sound.nodup (by simp)) happend

/-- The nodes for some pieces of markup come to stand below an element that has just been made. -/
theorem buildUnder (ms : List Markup) {a : Arena} {h : Handle} {tag : String} {attributes : Attributes}
    {cs ns : List Node} {pool : Pool} (hs : a.Stores ⟨.element h tag attributes [] cs :: ns, pool⟩) :
    (buildUnder h a ms).Stores
      ⟨.element h tag attributes [] (cs ++ (Node.ofMarkupAll pool ms).1) :: ns, (Node.ofMarkupAll pool ms).2⟩ := by
  induction ms using Markup.forestInduction generalizing a h tag attributes cs ns pool with
  | nil => simpa [Arena.buildUnder, Node.ofMarkupAll] using hs
  | text content ms ih =>
    obtain ⟨hfst, hs₁⟩ := hs.alloc (.text pool.take.1 content []) (.text content) rfl rfl rfl
    have hs₂ := ih hs₁.link_top
    rw [List.append_assoc] at hs₂
    rw [Arena.buildUnder, Arena.build, Node.ofMarkupAll, Node.ofMarkup]
    exact hfst ▸ hs₂
  | element tag' attributes' children ms ihc ihs =>
    obtain ⟨hfst, hs₁⟩ :=
      hs.alloc (.element pool.take.1 tag' (.ofList attributes') [] []) (.element tag' (.ofList attributes')) rfl rfl rfl
    have hs₂ := ihs (ihc hs₁).link_top
    rw [List.append_assoc] at hs₂
    simp only [Arena.buildUnder, Arena.build, Node.ofMarkupAll, Node.ofMarkup, hfst]
    exact hs₂

theorem build (hs : a.Stores t) (m : Markup) :
    (a.build m).1 = (Node.ofMarkup t.pool m).1.handle ∧
      (a.build m).2.Stores ⟨(Node.ofMarkup t.pool m).1 :: t.nodes, (Node.ofMarkup t.pool m).2⟩ := by
  cases m with
  | text content =>
    rw [Arena.build, Node.ofMarkup]
    exact hs.alloc (.text t.pool.take.1 content []) (.text content) rfl rfl rfl
  | element tag attributes children =>
    obtain ⟨hfst, hs₁⟩ :=
      hs.alloc (.element t.pool.take.1 tag (.ofList attributes) [] []) (.element tag (.ofList attributes)) rfl rfl rfl
    simp only [Arena.build, Node.ofMarkup, hfst]
    exact ⟨rfl, buildUnder children hs₁⟩

/-- In which order the nodes at the top stand does not matter. -/
theorem perm {ns ns' : List Node} {pool : Pool} (hs : a.Stores ⟨ns, pool⟩) (hp : ns.Perm ns') :
    a.Stores ⟨ns', pool⟩ := by
  have hsound : (⟨ns', pool⟩ : Tree).Sound := Pool.Covers.perm hs.sound (Node.handlesAll_perm hp)
  have hfind : ∀ x, (⟨ns', pool⟩ : Tree).find? x = (⟨ns, pool⟩ : Tree).find? x := fun x =>
    (Node.findAmong?_perm hp hs.sound.nodup).symm
  refine ⟨hsound, fun x => ?_, hs.pool⟩
  have hparent : (⟨ns', pool⟩ : Tree).parent? x = (⟨ns, pool⟩ : Tree).parent? x := by
    ext p
    rw [hsound.parent?_iff_find?, hs.sound.parent?_iff_find?, hfind]
  rw [hs.cell, Tree.cell?, Tree.cell?, row?, row?, hfind, hparent]

theorem buildAll (hs : a.Stores t) (ms : List Markup) :
    (a.buildAll ms).1 = (Node.ofMarkupAll t.pool ms).1.map Node.handle ∧
      (a.buildAll ms).2.Stores ⟨(Node.ofMarkupAll t.pool ms).1 ++ t.nodes, (Node.ofMarkupAll t.pool ms).2⟩ := by
  induction ms generalizing a t with
  | nil => simpa [Arena.buildAll, Node.ofMarkupAll] using hs
  | cons m ms ih =>
    obtain ⟨hfst, hs₁⟩ := hs.build m
    obtain ⟨hrest, hs₂⟩ := ih hs₁
    simp only [Arena.buildAll, Node.ofMarkupAll, List.map_cons, hfst, hrest]
    exact ⟨trivial, hs₂.perm List.perm_middle⟩

theorem parse (hs : a.Stores t) (source : String) :
    (a.parse source).1 = (t.parse source).1 ∧ (a.parse source).2.Stores (t.parse source).2 :=
  hs.buildAll (Markup.parse source)

/-! ### Sequences of operations -/

theorem after {x : Op Unit} {r : Except Fault Tree} (hs : a.Stores t) (hf : a.Follows x r) :
    (a.after x).Stores (t.after r) := by
  cases hf with
  | done hx hs' =>
    rw [Arena.after, hx]
    exact hs'
  | failed hx =>
    rw [Arena.after, hx]
    exact hs

theorem edit (hs : a.Stores t) (e : Edit) : (a.edit e).Stores (t.edit e) := by
  cases e with
  | createElement tag => exact (hs.alloc (.element t.pool.take.1 tag.toLower [] [] []) _ rfl rfl rfl).2
  | createText content => exact (hs.alloc (.text t.pool.take.1 content []) _ rfl rfl rfl).2
  | parse source => exact (hs.parse source).2
  | append parent child => exact hs.after (hs.append parent child)
  | setAttribute node name value => exact hs.after (hs.setAttributes node _)
  | removeAttribute node name => exact hs.after (hs.setAttributes node _)
  | setText node content => exact hs.after (hs.setText node content)
  | clear node => exact hs.after (hs.clear node)
  | release node => exact hs.release node
  | addEvent node event => exact hs.after (hs.addEvent node event)
  | setInput node value => exact hs.after (hs.setInput node value)
  | setChecked node on => exact hs.after (hs.setChecked node on)

theorem edits (hs : a.Stores t) (es : List Edit) : (a.edits es).Stores (t.edits es) := by
  induction es generalizing a t with
  | nil => exact hs
  | cons e es ih => exact ih (hs.edit e)

end Stores

theorem stores_new : new.Stores Tree.new := by
  have hempty : (⟨[], []⟩ : Arena).Stores ⟨[], ⟨[], 0⟩⟩ := ⟨fun i => by simp, fun _ => rfl, rfl⟩
  exact (hempty.alloc (.element .root "div" [("id", "root")] [] []) _ rfl rfl rfl).2

/-- What the same operations have made of a new arena and of a new tree. -/
theorem stores_edits (es : List Edit) : (new.edits es).Stores (Tree.new.edits es) := stores_new.edits es

end Trellis.Tree.Arena
