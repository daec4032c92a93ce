import Trellis.Proofs.Engine.Safe
import Trellis.Proofs.Engine.Settled
import Trellis.Proofs.Scheduling.Turn
import Trellis.Proofs.Tree.Generations

/-!
# The faults that a run can end with

Some faults would be the engine's own: that there is no frame, or that an edit of the tree is refused. A host that
mounts programs on live elements, delivers events to live nodes and changes nothing in the tree but attributes never
meets one of them, whatever the program does. Code always has a frame whose target is a live element. The node in
focus is live as well, because code only adds to the tree. The one thing that the tree refuses to a program is to read
an input of a type that has no value.
-/
namespace Trellis

open Tree (Handle Node Edit)

/-! ### Attributes of live elements -/

namespace Tree

/-- Growing at a live element takes nothing away. -/
theorem Grown.contains {t t' : Tree} {h x : Handle} {n : Node} {ns : List Node} {events : List String}
    (hg : Grown h t t' ns events) (ht : t.Sound) (hn : t.find? h = some n) (hnt : n.isText = false)
    (hx : t.contains x = true) : t'.contains x = true := by
  obtain ⟨stray, -, hnodes⟩ := hg.nodes
  have hcount := (Node.handlesAll_updateAmong_perm (.extend ns events) ht.nodup hn).count_eq x
  have hpos := List.count_pos_iff.2 (contains_iff.1 hx)
  simp only [Node.handles_eq, Node.handle_extend, Node.children_extend hnt, Node.handlesAll_append,
    List.count_append, List.count_cons] at hcount
  rw [contains_iff, hnodes, Node.handlesAll_append, List.mem_append]
  exact .inr (List.count_pos_iff.1 (by omega))

theorem read_eq_error {t : Tree} {h : Handle} {fault : Fault} (hh : t.contains h = true)
    (hr : t.read h = .error fault) : ∃ type, fault = .unsupportedInput type := by
  obtain ⟨n, hn⟩ := Option.isSome_iff_exists.1 hh
  have hnode : t.node h = .ok n := by rw [node, hn]
  unfold read at hr
  rw [hnode] at hr
  simp only [bind, Except.bind, pure, Except.pure, throw, throwThe, MonadExceptOf.throw] at hr
  split at hr
  · cases hr
  · split at hr
    · cases hr
    · split at hr
      · cases hr
      · cases hr
        exact ⟨_, rfl⟩

/-- The node whose attributes a call changes. -/
def Edit.attributesOf? : Edit → Option Handle
  | .setAttribute node _ _ | .removeAttribute node _ | .setInput node _ | .setChecked node _ => some node
  | _ => none

theorem exists_setChecked_eq (t : Tree) (h : Handle) (on : Bool) :
    ∃ f, t.setChecked h on = t.setAttributes h f := by
  cases on with
  | true => exact ⟨_, rfl⟩
  | false => exact ⟨_, rfl⟩

theorem exists_outcome_eq (t : Tree) {x : Edit} {h : Handle} (hx : x.attributesOf? = some h) :
    ∃ f, t.outcome x = t.setAttributes h f := by
  cases x with
  | setAttribute | removeAttribute =>
    cases hx
    exact ⟨_, rfl⟩
  | setChecked node on =>
    cases hx
    exact exists_setChecked_eq t h on
  | setInput node value =>
    cases hx
    change ∃ f, t.setInput h value = t.setAttributes h f
    unfold setInput
    split
    · exact exists_setChecked_eq t h _
    · exact ⟨_, rfl⟩
  | _ => cases hx

/-- Attributes of a live element can be changed. -/
theorem outcome_attributes {t : Tree} {x : Edit} {h : Handle} {n : Node} (hx : x.attributesOf? = some h)
    (hn : t.find? h = some n) (hnt : n.isText = false) :
    ∃ f, t.outcome x = .ok (t.update h (.setAttributes f)) := by
  obtain ⟨f, hf⟩ := exists_outcome_eq t hx
  exact ⟨f, hf.trans (setAttributes_eq_ok_iff.mpr ⟨n, hn, hnt, rfl⟩)⟩

/-- Changing attributes makes no text out of an element. -/
theorem Node.isText_findAmong?_updateAmong (h x : Handle) (f : Attributes → Attributes) (ns : List Node) :
    (findAmong? x (updateAmong h (.setAttributes f) ns)).map isText = (findAmong? x ns).map isText := by
  have hkind : ∀ n : Node, (n.setAttributes f).isText = n.isText := fun n => by cases n <;> rfl
  induction ns using forestInduction with
  | nil => simp
  | cons n ns ihc ihs =>
    rw [updateAmong_cons, findAmong?_cons, findAmong?_cons, Option.map_or, Option.map_or, ihs, update_eq]
    by_cases hn : n.handle = h
    · rw [if_pos hn, find?_eq, find?_eq, handle_setAttributes, children_setAttributes]
      by_cases hx : n.handle = x <;> simp [hx, hkind]
    · rw [if_neg hn, find?_eq, find?_eq, handle_setChildren, children_setChildren (updateAmong_nil _ _)]
      by_cases hx : n.handle = x <;> simp [hx, ihc]

end Tree

/-! ### Internal faults -/

/-- The messages of the faults of a tree begin with different letters. -/
theorem Tree.Fault.of_message {f : Tree.Fault} {type : String} (h : f.message = (unsupportedInput type).message) :
    ∃ type', f = .unsupportedInput type' := by
  have hunsupported : (unsupportedInput type).message = "unsupported input type `" ++ type ++ "`" := rfl
  have hhead : f.message.toList.head? = some 'u' := by
    rw [h, hunsupported]
    simp
  cases f with
  | unsupportedInput type' => exact ⟨type', rfl⟩
  | unknownNode node =>
    have hm : (unknownNode node).message = "node " ++ node ++ " does not exist" := rfl
    simp [hm] at hhead
  | invalidAppend parent child =>
    have hm : (invalidAppend parent child).message =
      "cannot append node " ++ child ++ " to " ++ parent ++ ": the child contains the parent" := rfl
    simp [hm] at hhead
  | textNode part =>
    have hm : (textNode part).message = "text nodes cannot have " ++ part.name := rfl
    simp [hm] at hhead

namespace Fault

/-- A fault that is not the program's: there is no frame, or the tree refuses something other than to read an input. -/
def Internal : Fault → Prop
  | .noFrame => True
  | .tree fault => ∀ type, fault ≠ .unsupportedInput type
  | _ => False

theorem not_internal_iff {fault : Fault} :
    ¬ fault.Internal ↔ fault ≠ .noFrame ∧ ∀ f, fault = .tree f → ∃ type, f = .unsupportedInput type := by
  cases fault <;> simp [Internal]

theorem not_internal_of_isOperand (fault : Fault) (h : fault.IsOperand) : ¬ fault.Internal := by
  cases fault with
  | noFrame | tree => cases h
  | _ => exact id

theorem not_internal_of_isLookup {fault : Fault} (h : fault.isLookup = true) : ¬ fault.Internal := by
  cases fault with
  | noFrame | tree => cases h
  | _ => exact id

/-- The report of an internal fault is not the report of another fault. -/
theorem Internal.of_report {fault fault' : Fault} (h : fault.Internal) (hr : Report.ofFault fault = .ofFault fault') :
    fault'.Internal := by
  have hkind : fault.kind = fault'.kind := congrArg Report.kind hr
  have hmessage : fault.message = fault'.message := congrArg Report.message hr
  cases fault with
  | noFrame =>
    cases fault' with
    | noFrame => trivial
    | _ => simp [Fault.kind] at hkind
  | tree f =>
    cases fault' with
    | tree f' =>
      rintro type rfl
      obtain ⟨type', rfl⟩ := Tree.Fault.of_message hmessage
      exact h type' rfl
    | _ => simp [Fault.kind] at hkind
  | _ => cases h

end Fault

/-! ### Code -/

/-- There is a live element to write to, and the node in focus is live. -/
structure Engine.Fit (e : Engine) : Prop where
  writable : ∃ h, e.Writable h
  focus : ∀ x, e.focus = some x → e.tree.contains x = true

/-- Fitness is a matter of the tree, the frames and the focus. -/
theorem Engine.Fit.of_eq {e e' : Engine} (he : e.Fit) (ht : e'.tree = e.tree) (hf : e'.frames = e.frames)
    (hx : e'.focus = e.focus) : e'.Fit := by
  obtain ⟨⟨h, hw⟩, hfocus⟩ := he
  refine ⟨⟨h, ht ▸ hw.sound, by rw [hf, hw.target], ht ▸ hw.element⟩, ?_⟩
  rw [ht, hx]
  exact hfocus

namespace Action

variable {α β : Type}

theorem Grows.fit {e e' : Engine} (hg : Grows e e') (he : e.Fit) : e'.Fit := by
  obtain ⟨⟨h, hw⟩, hfocus⟩ := he
  obtain ⟨ns, events, hgrown⟩ := hg.tree h hw
  obtain ⟨n, hn, hnt⟩ := hw.element
  refine ⟨⟨h, hg.writable hw⟩, fun x hx => ?_⟩
  rw [hg.focus] at hx
  exact hgrown.contains hw.sound hn hnt (hfocus x hx)

/-- The action only adds to the node that output goes to, and on a fit engine it has no internal fault. -/
structure Proper (x : Action α) : Prop where
  grows : Keeps Grows x
  safe : Safe Engine.Fit (¬ ·.Internal) x

namespace Proper

/-- What only adds to the tree leaves a fit engine, so that it is enough to look at the faults. -/
theorem of_faults {x : Action α} (hx : Keeps Grows x)
    (hf : ∀ e, e.Fit → ∀ fault e' journal, x e = .failed fault e' journal → ¬ fault.Internal) : Proper x := by
  refine ⟨hx, fun e he => ?_⟩
  have hgrows := hx e
  cases hr : x e with
  | done a e' journal =>
    rw [hr] at hgrows
    exact hgrows.fit he
  | failed fault e' journal =>
    rw [hr] at hgrows
    exact ⟨hgrows.fit he, hf e he fault e' journal hr⟩
  | tooDeep => trivial

theorem pure (a : α) : Proper (Pure.pure a : Action α) := ⟨quiet_grows.pure a, .pure a⟩

theorem bind {x : Action α} {f : α → Action β} (hx : Proper x) (hf : ∀ a, Proper (f a)) : Proper (x >>= f) :=
  ⟨quiet_grows.bind hx.grows fun a => (hf a).grows, .bind hx.safe fun a => (hf a).safe⟩

theorem fit_stack (e : Engine) (stack : Operands) (he : e.Fit) : Engine.Fit { e with stack } := he.of_eq rfl rfl rfl

/-- Instructions that only move operands fail for want of operands, which is no internal fault. -/
theorem operative : Operative @Proper where
  pure := pure
  bind := bind
  get _ := ⟨quiet_grows.get _, .get _⟩
  log _ := ⟨quiet_grows.log _, .log _⟩
  tell g _ _ := bind ⟨quiet_grows.get g, .get g⟩ fun _ => ⟨quiet_grows.log _, .log _⟩
  raise h := ⟨quiet_grows.fail _, .fail (Fault.not_internal_of_isOperand _ h)⟩
  onStack hf := ⟨quiet_grows.onStack hf, .onStack fit_stack Fault.not_internal_of_isOperand hf⟩

theorem load (site : Nat) (source : Source) : Proper (load site source) := by
  refine ⟨quiet_grows.inward.load site source, ?_⟩
  cases source with
  | string key =>
    refine .bind (.get _) fun resources => .ofExcept_bind (fun fault h => ?_) fun s _ => .pure _
    exact Fault.not_internal_of_isLookup (Resources.isLookup_of_string h)
  | constant key =>
    refine .bind (.get _) fun resources => .ofExcept_bind (fun fault h => ?_) fun x _ => .pure _
    exact Fault.not_internal_of_isLookup (Resources.isLookup_of_constant h)
  | stack offset => exact (operative.peek site _).safe

/-- The node in focus can be read, unless it is an input that has no value. -/
theorem read (site : Nat) : Proper (read site) := by
  refine ⟨quiet_grows.inward.read site, .get_bind fun e he => ?_⟩
  cases hfocus : e.focus with
  | none => exact ⟨he, id⟩
  | some node =>
    dsimp only
    cases hr : e.tree.read node with
    | ok reading =>
      rw [bind_of_done (x := ofTree _) (e := e) (by rw [ofTree, hr]), Outcome.meets_after]
      cases reading with
      | text s => exact (operative.push site _).safe e he
      | toggle on => exact (operative.push site _).safe e he
    | error fault =>
      rw [bind_of_failed (x := ofTree _) (e := e) (by rw [ofTree, hr])]
      obtain ⟨type, rfl⟩ := Tree.read_eq_error (he.focus node hfocus) hr
      exact ⟨he, fun h => h type rfl⟩

/-- There always is a frame to compare the section with. -/
theorem discipline (callee : Section) (mode : Mode) : Proper (discipline callee mode) := by
  have hend : ∀ allowed : Bool, Safe Engine.Fit (¬ ·.Internal)
      (if (!allowed) = true then fail (.callDiscipline callee.label mode) else Pure.pure ()) :=
    fun allowed => .ite (.fail id) (.pure ())
  refine ⟨quiet_grows.inward.discipline callee mode, ?_⟩
  unfold Action.discipline
  cases mode with
  | any => exact .bind (.pure _) hend
  | callable => exact .bind (.pure _) hend
  | renderable =>
    refine .get_bind fun e he => ?_
    obtain ⟨h, hw⟩ := he.writable
    obtain ⟨frame, hframe, -⟩ := Option.map_eq_some_iff.1 hw.target
    rw [hframe]
    exact Safe.bind (.pure _) hend e he

theorem call {run : List Instruction → Action Unit} (hrun : ∀ code, Proper (run code)) (site : Nat) (label : String)
    (mode : Mode) : Proper (call run site label mode) := by
  refine ⟨quiet_grows.inward.call (fun code => (hrun code).grows) site label mode, ?_⟩
  refine .bind (.get _) fun sections => .ofExcept_bind (fun fault h => ?_) fun callee _ => ?_
  · exact Fault.not_internal_of_isLookup (Sections.isLookup_of_find h)
  · refine .bind (discipline callee mode).safe fun _ => .bind (.get _) fun name => .bind (.log _) fun _ => ?_
    cases callee.body with
    | none => exact .pure ()
    | some body =>
      exact .bracket (hrun body).safe (fun _ he => he.of_eq rfl rfl rfl) fun _ _ he => he.of_eq rfl rfl rfl

theorem leaf (site : Nat) (tag : String) : Proper (leaf site tag) := by
  refine .of_faults (closed_grows.leaf site tag) fun e he fault e' journal hr => ?_
  obtain ⟨h, hw⟩ := he.writable
  obtain ⟨t, ns, hrun, -⟩ := leaf_adds hw site tag
  rw [hrun] at hr
  cases hr

theorem value (site : Nat) (raw : Bool) (content : Value) : Proper (value site raw content) := by
  refine .of_faults (closed_grows.value site raw content) fun e he fault e' journal hr => ?_
  obtain ⟨h, hw⟩ := he.writable
  obtain ⟨t, ns, hrun, -⟩ := value_adds hw site raw content
  rw [hrun] at hr
  cases hr

theorem listen (site : Nat) (event handler : String) : Proper (listen site event handler) := by
  refine .of_faults (closed_grows.listen site event handler) fun e he fault e' journal hr => ?_
  obtain ⟨h, hw⟩ := he.writable
  obtain ⟨t, journal', hrun, -⟩ := listen_of_writable hw site event handler
  rw [hrun] at hr
  cases hr

/-- The element of a container is a live one to write to, and it is in focus. -/
theorem fit_opened {e : Engine} (he : e.Fit) (site : Nat) (enclosure : Enclosure) :
    (e.opened site enclosure).Fit := by
  obtain ⟨h, hw⟩ := he.writable
  refine ⟨⟨_, opened_writable hw.sound site enclosure⟩, fun x hx => ?_⟩
  cases hx
  exact (opened_writable hw.sound site enclosure).contains

/-- A container fails only where its code fails: its element can always be appended or flattened. -/
theorem container (site : Nat) (enclosure : Enclosure) {body : Action Unit} (hb : Proper body) :
    Proper (container site enclosure body) := by
  refine .of_faults (closed_grows.container site enclosure hb.grows) fun e he fault e' journal hr => ?_
  by_cases hplain : (!e.context.code.renderable || e.context.mode = .callable) = true
  · have hbody := hb.safe e he
    rw [container_of_plain hplain] at hr
    rw [hr] at hbody
    exact hbody.2
  · simp only [Bool.or_eq_true, Bool.not_eq_true', decide_eq_true_eq, not_or, Bool.not_eq_false] at hplain
    obtain ⟨h, hw⟩ := he.writable
    have hbody := hb.safe _ (fit_opened he site enclosure)
    have hgrows := hb.grows (e.opened site enclosure)
    cases hbo : body (e.opened site enclosure) with
    | done a e₁ j =>
      rw [hbo] at hgrows
      obtain ⟨ns, events, hg⟩ := hgrows.tree _ (opened_writable hw.sound site enclosure)
      obtain ⟨t, journal', made, hrun, -⟩ := container_of_done hw hplain.1 hplain.2 hbo
        (congrArg List.tail hgrows.frames) hg
      rw [hrun] at hr
      cases hr
    | failed fault' e₁ j =>
      obtain ⟨journal', hrun⟩ := @container_eq site enclosure body e hw.sound hplain.1 hplain.2
      rw [hbo] at hbody hrun
      rw [hrun] at hr
      cases hr
      exact hbody.2
    | tooDeep =>
      obtain ⟨journal', hrun⟩ := @container_eq site enclosure body e hw.sound hplain.1 hplain.2
      rw [hrun, hbo] at hr
      cases hr

/-- The code of a conditional writes to the same node. -/
theorem conditional (site : Nat) {body : Action Unit} (hb : Proper body) : Proper (conditional site body) := by
  refine .of_faults (closed_grows.conditional site hb.grows) fun e he fault e' journal hr => ?_
  obtain ⟨h, hw⟩ := he.writable
  obtain ⟨journal', hrun⟩ := conditional_eq site body hw.target
  rw [hrun] at hr
  cases hs : e.stack with
  | nil =>
    rw [hs] at hr
    cases hr
    exact id
  | cons v stack =>
    rw [hs] at hr
    by_cases hv : v.isTrue = true
    · have hbody := hb.safe { e with stack, frames := ⟨site, e.context.code, h, .conditional⟩ :: e.frames }
        ⟨⟨h, hw.sound, rfl, hw.element⟩, he.focus⟩
      simp only [hv, if_true] at hr
      cases hbo : body { e with stack, frames := ⟨site, e.context.code, h, .conditional⟩ :: e.frames } with
      | failed fault' e₁ j =>
        rw [hbo] at hbody hr
        cases hr
        exact hbody.2
      | done | tooDeep =>
        rw [hbo] at hr
        cases hr
    · simp only [hv] at hr
      cases hr

theorem rerender (site : Nat) : Proper (rerender site) :=
  ⟨quiet_grows.rerender site, .rerender (fun _ _ _ he => he.of_eq rfl rfl rfl) site⟩

theorem perform {run : List Instruction → Action Unit} (hrun : ∀ code, Proper (run code)) (site : Nat)
    (operation : Operation) : Proper (perform run site operation) := by
  cases operation with
  | element tag => exact leaf site tag
  | value raw source => exact .bind (load site source) fun v => value site raw v
  | call label mode => exact call hrun site label mode
  | listen event handler => exact listen site event handler
  | _ => exact operative.quiet rfl run (fun source _ => load site source) (read site) (rerender site)

theorem hereditary : Hereditary Proper where
  pure := pure ()
  tooDeep := ⟨fun _ => trivial, fun _ _ => trivial⟩
  seq hx hy := bind hx fun _ => hy
  resolve key _ hf := bind ⟨fun e => closed_grows.site e key, fun _ he => he.of_eq rfl rfl rfl⟩ hf
  container site enclosure _ hb := container site enclosure hb
  conditional site _ hb := conditional site hb
  perform hrun site operation := perform hrun site operation

end Proper
end Action

/-! ### Requests -/

namespace Engine

theorem Ready.fit {e : Engine} (he : e.Ready) (hf : ∀ x, e.focus = some x → e.tree.contains x = true) : e.Fit :=
  ⟨⟨e.mount, he.writable⟩, hf⟩

/-- A program can be run, nothing is in focus, and the failure on display, if there is one, is not internal. -/
structure Blameless (e : Engine) : Prop extends Ready e where
  focus : e.focus = none
  report : ∀ r, e.report = some r → ∃ fault, r = .ofFault fault ∧ ¬ fault.Internal

theorem Blameless.of_eq {e e' : Engine} (he : e.Blameless) (ht : e'.tree = e.tree) (hm : e'.mount = e.mount)
    (hf : e'.frames = e.frames) (hc : e'.context = e.context) (hx : e'.focus = e.focus)
    (hr : e'.report = e.report) : e'.Blameless :=
  ⟨he.toReady.of_eq ht hm hf hc, hx.trans he.focus, hr ▸ he.report⟩

end Engine

namespace Action

variable {e : Engine}

theorem failed_of_withFocus {node : Handle} {body : Action Unit} {fault : Fault} {e' : Engine}
    {journal : List Diagnostic} (h : withFocus node body e = .failed fault e' journal) :
    ∃ e₁, body { e with focus := some node } = .failed fault e₁ journal := by
  unfold withFocus bracket at h
  cases hb : body { e with focus := some node } with
  | failed fault' e₁ j =>
    rw [hb] at h
    cases h
    exact ⟨e₁, rfl⟩
  | done | tooDeep =>
    rw [hb] at h
    cases h

theorem recover_blameless (he : e.Ready) {fault : Fault} (hf : ¬ fault.Internal) :
    (recover fault e).Meets Engine.Blameless fun _ => False := by
  have hends := recover_ends he fault
  obtain ⟨t, n, journal, hrun, -⟩ := recover_of_mounted he.sound he.mounted fault
  rw [hrun] at hends ⊢
  exact ⟨hends.ready, rfl, fun r hr => ⟨fault, (Option.some.inj hr).symm, hf⟩⟩

theorem render_blameless (he : e.Ready) (n : Nat) : (render n e).Meets Engine.Blameless fun _ => False := by
  have hends := render_ends he n
  have hmain := Proper.hereditary.invoke n Engine.rootSite mainLabel .renderable
  have hfit : (e.started.emptied e.blank).Fit := he.emptied.1.fit nofun
  rcases renderPass_cases he n with ⟨a, e', j, hi, hpass⟩ | ⟨fault, e', j, hpass, hstays, hcause⟩ | hpass
  · have hgrows := hmain.grows (e.started.emptied e.blank)
    obtain ⟨clock, deadline, journal, hrun⟩ := render_of_done hpass
    rw [hi] at hgrows
    rw [hrun] at hends ⊢
    exact ⟨hends.ready, hgrows.focus, nofun⟩
  · have hfault : ¬ fault.Internal := by
      cases hcause with
      | inl hi =>
        have hsafe := hmain.safe _ hfit
        rw [hi] at hsafe
        exact hsafe.2
      | inr hstorm =>
        obtain ⟨quota, rfl⟩ := hstorm
        exact id
    obtain ⟨t, m, clock, deadline, journal, hrun, -⟩ :=
      render_of_failed hpass hstays.ready.sound hstays.ready.mounted
    rw [hrun] at hends ⊢
    exact ⟨hends.ready, rfl, fun r hr => ⟨fault, (Option.some.inj hr).symm, hfault⟩⟩
  · rw [render_of_tooDeep hpass]
    trivial

theorem boot_blameless (n : Nat) {target : Handle} (he : e.AtRest) (hf : e.focus = none)
    (ht : ∃ m, e.tree.find? target = some m ∧ m.isText = false) :
    (boot n target e).Meets Engine.Blameless fun _ => False := by
  have hready : (mounted target e).Ready := ⟨⟨he.sound, rfl, he.context⟩, ht⟩
  cases hi : e.sections.contains initLabel with
  | false =>
    rw [boot_without_init n target hi, Outcome.meets_after]
    exact render_blameless hready n
  | true =>
    have hinit := Proper.hereditary.invoke n Engine.rootSite initLabel .callable
    have hgrows := hinit.grows (mounted target e)
    have hsafe := hinit.safe (mounted target e) (hready.fit fun x hx => nomatch hx.symm.trans hf)
    rw [boot_with_init n target hi, Outcome.meets_after]
    cases hrun : invoke n Engine.rootSite initLabel .callable (mounted target e) with
    | done a e' j =>
      rw [hrun] at hgrows
      rw [attempt_of_done hrun, Outcome.meets_after]
      exact render_blameless (hready.grows hgrows).ready n
    | failed fault e' j =>
      rw [hrun] at hgrows hsafe
      rw [attempt_of_failed hrun, Outcome.meets_after]
      exact recover_blameless (hready.grows hgrows).ready hsafe.2
    | tooDeep =>
      rw [attempt_of_tooDeep hrun]
      trivial

theorem poll_blameless (n : Nat) (he : e.Blameless) : (poll n e).Meets Engine.Blameless fun _ => False := by
  cases hd : e.isDue with
  | true =>
    rw [poll_of_due n hd]
    exact Safe.bind_pure (render_blameless (e := disarmed e) (he.toReady.of_eq rfl rfl rfl rfl) n)
  | false =>
    rw [poll_of_early n hd]
    exact he.of_eq rfl rfl rfl rfl rfl rfl

/-- The target of an event stays live from handler to handler: a handler that ends has only added to the tree. -/
theorem deliver_blameless (n : Nat) (target : Handle) (ls : List Listener) (he : e.Blameless)
    (ht : e.tree.contains target = true) : (deliver n target ls e).Meets Engine.Blameless fun _ => False := by
  induction ls generalizing e with
  | nil => exact he
  | cons l ls ih =>
    have hhandler := Proper.hereditary.invoke n l.site l.handler .callable
    have hgrows := quiet_grows.withFocus target hhandler.grows e
    have hready : Engine.Ready { e with focus := some target } := he.toReady.of_eq rfl rfl rfl rfl
    have hsafe := hhandler.safe { e with focus := some target } (hready.fit fun x hx => Option.some.inj hx ▸ ht)
    unfold deliver
    cases hrun : withFocus target (invoke n l.site l.handler .callable) e with
    | done a e' j =>
      rw [hrun] at hgrows
      obtain ⟨ns, events, hgrown⟩ := hgrows.tree e.mount he.writable
      obtain ⟨m, hm, hmt⟩ := he.mounted
      rw [attempt_of_done hrun, Outcome.meets_after]
      refine Safe.bind_pure (ih ⟨(he.grows hgrows).ready, hgrows.focus.trans he.focus, ?_⟩ ?_)
      · rw [hgrows.report]
        exact he.report
      · exact hgrown.contains he.sound hm hmt ht
    | failed fault e' j =>
      rw [hrun] at hgrows
      obtain ⟨e₁, hfailed⟩ := failed_of_withFocus hrun
      rw [hfailed] at hsafe
      rw [attempt_of_failed hrun, Outcome.meets_after]
      exact Safe.bind_pure (recover_blameless (he.grows hgrows).ready hsafe.2)
    | tooDeep =>
      rw [attempt_of_tooDeep hrun]
      trivial

theorem dispatch_blameless (n : Nat) (target : Handle) (event : String) (he : e.Blameless)
    (ht : e.tree.contains target = true) : (dispatch n target event e).Meets Engine.Blameless fun _ => False := by
  rw [dispatch_eq, Outcome.meets_after]
  exact deliver_blameless n target _ he ht

end Action

/-! ### Runs -/

/-- Requests that name only live nodes. Of the tree a host changes nothing but the attributes of elements. -/
def Request.Careful (e : Engine) : Request → Prop
  | .boot target => ∃ n, e.tree.find? target = some n ∧ n.isText = false
  | .dispatch target _ => e.tree.contains target = true
  | .edit x => ∃ node n, x.attributesOf? = some node ∧ e.tree.find? node = some n ∧ n.isText = false
  | .load _ | .define _ | .strings _ | .constants _ | .trust _ | .advance _ | .lapse _ | .register _ => True
  | .render | .poll => True
  | _ => False

namespace Engine

theorem Blameless.edit {e : Engine} (he : e.Blameless) {x : Edit} (hx : (Request.edit x).Careful e) :
    Blameless { e with tree := e.tree.edit x } := by
  obtain ⟨node, n, hx, hn, hnt⟩ := hx
  obtain ⟨f, hf⟩ := Tree.outcome_attributes hx hn hnt
  have hedit : e.tree.edit x = e.tree.update node (.setAttributes f) := by
    rw [Tree.edit_eq, hf]
    rfl
  obtain ⟨m, hm, hmt⟩ := he.mounted
  have hkind := Tree.Node.isText_findAmong?_updateAmong node e.mount f e.tree.nodes
  rw [show Node.findAmong? e.mount e.tree.nodes = some m from hm, Option.map_some, hmt,
    Option.map_eq_some_iff] at hkind
  refine ⟨⟨⟨he.sound.edit x, he.frames, he.context⟩, ?_⟩, he.focus, he.report⟩
  rw [Mounted, hedit]
  exact hkind

theorem Blameless.request {e : Engine} (he : e.Blameless) (n : Nat) {r : Request} (hc : r.Careful e) :
    (r.run n e).Meets Blameless fun _ => False := by
  have hprepares (hp : r.Prepares) : (r.run n e).Meets Blameless fun _ => False := by
    obtain ⟨e₁, journal, hrun, hsame⟩ := hp.run n e
    rw [hrun]
    exact he.of_eq hsame.tree hsame.mount hsame.frames hsame.context hsame.focus hsame.report
  cases r with
  | load | define | strings | constants | trust | advance | lapse | register => exact hprepares trivial
  | edit x => exact he.edit hc
  | boot target => exact Action.boot_blameless n he.toAtRest he.focus hc
  | render => exact Action.render_blameless he.toReady n
  | poll => exact Action.Safe.bind_pure (Action.poll_blameless n he)
  | dispatch target event => exact Action.Safe.bind_pure (Action.dispatch_blameless n target event he hc)
  | _ => cases hc

/-- An engine with which a host has done anything at all, over a tree that it has prepared in any way. The host has put
nothing in focus. -/
structure Prepared (e : Engine) : Prop where
  reachable : e.Reachable
  focus : e.focus = none

/-- The engines of the runs in which a host is careful. Such a run starts with an engine that nothing has failed on yet
and whose mounted node is a live element, or by mounting a live element. -/
inductive Careful : Engine → Prop
  | ready {e : Engine} (he : e.Prepared) (hm : e.Mounted) (hr : e.report = none) : Careful e
  | boot {e e' : Engine} (n : Nat) {target : Handle} (he : e.Prepared) (hc : (Request.boot target).Careful e)
      (hr : ((Request.boot target).run n e).engine? = some e') : Careful e'
  | request {e e' : Engine} (n : Nat) (r : Request) (he : Careful e) (hc : r.Careful e)
      (hr : (r.run n e).engine? = some e') : Careful e'

theorem Prepared.boot {e : Engine} (he : e.Prepared) (n : Nat) {target : Handle}
    (hc : (Request.boot target).Careful e) :
    ((Request.boot target).run n e).Meets Blameless fun _ => False :=
  Action.boot_blameless n he.reachable.atRest he.focus hc

theorem Careful.blameless {e : Engine} (he : e.Careful) : e.Blameless := by
  induction he with
  | ready he hm hr => exact ⟨⟨he.reachable.atRest, hm⟩, he.focus, fun r h => nomatch hr.symm.trans h⟩
  | boot n he hc hr => exact (he.boot n hc).leaves.engine hr
  | request n r _ hc hr ih => exact (ih.request n hc).leaves.engine hr

/-- A request that renders or fails has left its failure on display; any other leaves the report and the count of
renders as they were. -/
def Displays (e e' : Engine) : Prop :=
  ∀ r, e'.report = some r → e'.Failed r ∨ e'.report = e.report ∧ e'.schedule.renders = e.schedule.renders

theorem Ends.displays {h : Handle} {e₀ e e' : Engine} (he : Ends h e₀ e') : Displays e e' := by
  intro r hr
  cases he.situation with
  | inl hc => cases hc.report.symm.trans hr
  | inr hf =>
    obtain ⟨r', hf⟩ := hf
    cases hf.report.symm.trans hr
    exact .inl hf

theorem displays_of_eq {e e' : Engine} (hr : e'.report = e.report)
    (hn : e'.schedule.renders = e.schedule.renders) : Displays e e' := fun _ _ => .inr ⟨hr, hn⟩

end Engine

namespace Action

open Engine (Displays displays_of_eq)

variable {e : Engine}

theorem dispatch_displays (n : Nat) (target : Handle) (event : String) (he : e.Ready) :
    (dispatch n target event e).Leaves (Displays e) := by
  rw [dispatch_eq, Outcome.leaves_after]
  refine deliver_leaves (fun _ _ => displays_of_eq rfl rfl) (fun _ hg h r hr => ?_) (fun _ _ h => h.displays)
    n target _ he
  rw [← hg.report, ← hg.renders]
  exact h r hr

theorem poll_displays (n : Nat) (he : e.Ready) : (poll n e).Leaves (Displays e) := by
  cases hd : e.isDue with
  | true =>
    have hready : (disarmed e).Ready := he.of_eq rfl rfl rfl rfl
    rw [poll_of_due n hd]
    exact leaves_bind_pure ((render_ends hready n).mono fun _ h => h.displays)
  | false =>
    rw [poll_of_early n hd]
    exact displays_of_eq rfl rfl

end Action

namespace Engine

theorem Ready.displays {e e' : Engine} (he : e.Ready) {n : Nat} {r : Request} (hc : r.Careful e)
    (hr : (r.run n e).engine? = some e') : Displays e e' := by
  have hprepares (hp : r.Prepares) : Displays e e' := by
    obtain ⟨e₁, journal, hrun, hsame⟩ := hp.run n e
    rw [hrun] at hr
    cases hr
    exact displays_of_eq hsame.report (congrArg Schedule.renders hsame.schedule)
  cases r with
  | load | define | strings | constants | trust | advance | lapse | register => exact hprepares trivial
  | edit =>
    cases hr
    exact displays_of_eq rfl rfl
  | boot target => exact ((Action.boot_ends n he.toAtRest hc).engine hr).displays
  | render => exact ((Action.render_ends he n).engine hr).displays
  | poll => exact (Action.leaves_bind_pure (Action.poll_displays n he)).engine hr
  | dispatch target event => exact (Action.leaves_bind_pure (Action.dispatch_displays n target event he)).engine hr
  | _ => cases hc

/-- The request does not fail in its own right, and a failure with which it ends is on display. -/
structure Answers (e : Engine) (r : Request) : Prop where
  ends : ∀ n fault e' journal, r.run n e ≠ .failed fault e' journal
  shown : ∀ n e', (r.run n e).engine? = some e' → Displays e e'

/-- However a careful host uses an engine over a tree of its own, no failure is internal: there always is a frame, and
all that the tree ever refuses is to read an input of a type without a value. No request fails in its own right, from
the first mounting on, and the attributes of live elements can be changed. -/
theorem internal_faults_unreachable :
    (∀ e : Engine, e.Prepared → ∀ target, (Request.boot target).Careful e → e.Answers (.boot target)) ∧
      ∀ e : Engine, e.Careful →
        (∀ fault, e.report = some (.ofFault fault) →
          fault ≠ .noFrame ∧ ∀ f, fault = .tree f → ∃ type, f = .unsupportedInput type) ∧
        (∀ r : Request, r.Careful e → e.Answers r) ∧
        ∀ x, (Request.edit x).Careful e → ∃ t, e.tree.outcome x = .ok t := by
  have hends {e : Engine} {n : Nat} {r : Request} (h : (r.run n e).Meets Blameless fun _ => False) (fault : Fault)
      (e' : Engine) (journal : List Diagnostic) : r.run n e ≠ .failed fault e' journal := by
    intro hr
    rw [hr] at h
    exact h.2
  refine ⟨fun e he target hc => ⟨fun n => hends (he.boot n hc), fun n e' hr => ?_⟩, fun e he => ?_⟩
  · exact ((Action.boot_ends n he.reachable.atRest hc).engine hr).displays
  have hb := he.blameless
  refine ⟨fun fault hf => ?_, fun r hc => ⟨fun n => hends (hb.request n hc), fun n e' => hb.toReady.displays hc⟩, ?_⟩
  · obtain ⟨fault', hr, hown⟩ := hb.report _ hf
    exact Fault.not_internal_iff.1 fun h => hown (h.of_report hr)
  · rintro x ⟨node, n, hx, hn, hnt⟩
    obtain ⟨f, hf⟩ := Tree.outcome_attributes hx hn hnt
    exact ⟨_, hf⟩

/-- A main section that shows an input, and a handler that reads the target of an event. -/
def form : Program where
  sections :=
    [⟨mainLabel, true, [.single (.symbol "field") (.value true (.string 1)),
      .single (.symbol "on") (.listen "click" "take")]⟩,
    ⟨"take", false, [.single (.symbol "taken") .read]⟩]
  strings := [(1, "<input>")]

/-- An element below the root, made before the program is loaded. -/
def formed : Engine :=
  ({ Engine.new {} with tree := Tree.new.edits [.createElement "main", .append .root ⟨1, 0⟩] } : Engine).loaded form

theorem prepared_formed : formed.Prepared := by
  have hmade := (Reachable.new {}).request 0 (.edit (.createElement "main")) rfl
  have hplaced := hmade.request 0 (.edit (.append .root ⟨1, 0⟩)) rfl
  obtain ⟨journal, hload⟩ := Action.loadProgram_eq form
    { Engine.new {} with tree := Tree.new.edits [.createElement "main", .append .root ⟨1, 0⟩] }
  exact ⟨hplaced.request 0 (.load form) (congrArg Outcome.engine? hload), rfl⟩

/-- The host mounts the program on the element and makes the input one that has no value. The next event fails, and the
failure is the program's. -/
theorem internal_faults_unreachable_form :
    ∃ e : Engine, e.Careful ∧ e.report = some (.ofFault (.tree (.unsupportedInput "reset"))) ∧
      Fault.tree (.unsupportedInput "reset") ≠ .noFrame ∧
      ∀ f, Fault.tree (.unsupportedInput "reset") = .tree f → ∃ type, f = .unsupportedInput type := by
  have hlive : (formed.tree.find? ⟨1, 0⟩).map Node.isText = some false := by decide +kernel
  have hrun : (((Request.boot ⟨1, 0⟩).run 2 formed).engine?.bind fun e =>
      ((Request.dispatch ⟨2, 0⟩ "click").run 2
        { e with tree := e.tree.edit (.setAttribute ⟨2, 0⟩ "type" "reset") }).engine?.map fun e' =>
          ((e.tree.find? ⟨2, 0⟩).map Node.isText,
            (e.tree.edit (.setAttribute ⟨2, 0⟩ "type" "reset")).contains ⟨2, 0⟩, e'.report)) =
      some (some false, true, some (.ofFault (.tree (.unsupportedInput "reset")))) := by decide +kernel
  obtain ⟨e₁, hboot, hrun⟩ := Option.bind_eq_some_iff.1 hrun
  obtain ⟨e, hdispatch, hstate⟩ := Option.map_eq_some_iff.1 hrun
  simp only [Prod.mk.injEq] at hstate
  obtain ⟨hkind, hkept, hreport⟩ := hstate
  obtain ⟨m, hm, hmt⟩ := Option.map_eq_some_iff.1 hkind
  have hmounted : Careful e₁ := .boot 2 prepared_formed (Option.map_eq_some_iff.1 hlive) hboot
  have hedited : Careful { e₁ with tree := e₁.tree.edit (.setAttribute ⟨2, 0⟩ "type" "reset") } :=
    hmounted.request 2 (.edit (.setAttribute ⟨2, 0⟩ "type" "reset")) ⟨⟨2, 0⟩, m, rfl, hm, hmt⟩ rfl
  have hcareful := hedited.request 2 (.dispatch ⟨2, 0⟩ "click") hkept hdispatch
  exact ⟨e, hcareful, hreport, (internal_faults_unreachable.2 e hcareful).1 _ hreport⟩

end Engine
end Trellis
