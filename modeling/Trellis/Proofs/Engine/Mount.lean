import Trellis.Proofs.Engine.Reachable
import Trellis.Proofs.Rendering.Simulation
import Trellis.Proofs.Tree.Within

/-!
# The mounted node

A render starts by emptying the mounted node, and a failure ends by putting the error display on it. Each is a
series of edits none of which can fail as long as the node is a live element. This is what they come to, and what a
render comes to once it is known how its pass ends.
-/
namespace Trellis

open Tree (Handle Node Grown Within Inside)

/-- The error display of a report. -/
def Report.display (r : Report) : List Markup :=
  [.element "h1" [] [.text "An error occurred"], .element "pre" [] [.text r.text]]

/-- The node is an element without the marks of an error. -/
structure Tree.Node.Unmarked (n : Node) : Prop where
  element : n.isText = false
  noClass : n.attribute? "class" = none
  noStyle : n.attribute? "style" = none

theorem Tree.Node.Unmarked.extend {n : Node} (hn : n.Unmarked) (ns : List Node) (events : List String) :
    (n.extend ns events).Unmarked :=
  ⟨by rw [Node.isText_extend, hn.element], by rw [Node.attribute?_extend, hn.noClass],
    by rw [Node.attribute?_extend, hn.noStyle]⟩

/-- The node is an element that is marked and shows a report. No events are recorded below it. -/
structure Tree.Node.Shows (r : Report) (n : Node) : Prop where
  element : n.isText = false
  hasClass : n.attribute? "class" = some Action.errorClass
  hasStyle : n.attribute? "style" = some "color: red"
  contents : Node.toMarkupAll n.children = r.display
  silent : Node.recordedAll n.children = []

/-- What a node holds, as markup. -/
def Tree.contents? (t : Tree) (h : Handle) : Option (List Markup) :=
  (t.find? h).map fun n => Node.toMarkupAll n.children

namespace Engine

/-- The mounted node is a live element. -/
def Mounted (e : Engine) : Prop := ∃ n, e.tree.find? e.mount = some n ∧ n.isText = false

/-- The engine once it has given up what was running. -/
def stopped (e : Engine) : Engine :=
  { e with
    frames := e.frames.truncate 1
    focus := none
    listeners := []
    schedule := { e.schedule with phase := .failed } }

/-- The engine when a render has begun. The clock is read first. -/
def started (e : Engine) : Engine :=
  { e.timed with
    schedule := { e.schedule with phase := .rendering, pending := false, renders := e.schedule.renders + 1 } }

/-- The tree once the mounted node has been emptied and has lost the marks of an error. -/
def blank (e : Engine) : Tree :=
  e.tree.edits [.clear e.mount, .removeAttribute e.mount "style", .removeAttribute e.mount "class"]

/-- The engine on which the main section runs. -/
def emptied (e : Engine) (t : Tree) : Engine :=
  { e with tree := t, stack := [], frames := e.frames.truncate 1, listeners := [], focus := none }

/-- The engine with a deadline if another render has been asked for. -/
def rearmed (e : Engine) : Engine :=
  if e.schedule.pending then { e.timed with schedule := e.schedule.arm (e.timed.now + e.config.settle) } else e

/-- The engine when a render has ended. The clock is read last of all. -/
def ended (e : Engine) : Engine := e.rearmed.timed

end Engine

theorem Engine.blank_started (e : Engine) : e.started.blank = e.blank := rfl

theorem Engine.ended_eq (e : Engine) :
    ∃ clock deadline, e.ended = { e with clock, schedule := { e.schedule with deadline } } := by
  unfold ended rearmed
  split
  · obtain ⟨deadline, h⟩ := e.schedule.arm_eq (e.timed.now + e.config.settle)
    exact ⟨_, deadline, by rw [h]; rfl⟩
  · exact ⟨_, e.schedule.deadline, rfl⟩

/-- Before the main section runs, the engine is where the evaluator begins. -/
theorem Engine.AtRest.follows_emptied {e : Engine} {t : Tree} {m : Node} (he : e.AtRest) (ht : t.Sound)
    (hm : t.find? e.mount = some m) (hu : m.Unmarked) (hc : m.children = []) :
    Follows ⟨e.resources, e.sections⟩ ⟨.any, true, true, none⟩ ⟨[], []⟩ e.mount (e.started.emptied t) where
  sound := ht
  target := by
    change (e.frames.truncate 1).head?.map _ = _
    rw [he.frames]
    rfl
  owner := by
    change (e.frames.truncate 1).head?.map _ = _
    rw [he.frames]
    rfl
  mode := congrArg Context.mode he.context
  renderable := congrArg (fun c => c.code.renderable) he.context
  resources := rfl
  sections := rfl
  stack := rfl
  node := ⟨m, hm, hu.element, by rw [hc]; rfl, rfl⟩

namespace Action

variable {e : Engine}

/-- Code that writes to the mounted node leaves it in place. -/
theorem Grows.mounted {e' : Engine} (hg : Grows e e') (hw : e.Writable e.mount) : e'.tree.Sound ∧ e'.Mounted := by
  have hw' := hg.writable hw
  refine ⟨hw'.sound, ?_⟩
  rw [Engine.Mounted, hg.mount]
  exact hw'.element

/-! ### Failures -/

theorem showError_of_mounted (ht : e.tree.Sound) (hm : e.Mounted) (r : Report) :
    ∃ t n, showError r e = .done () { e with tree := t } [] ∧ t.Sound ∧ t.find? e.mount = some n ∧ n.Shows r ∧
      Inside e.mount e.tree t := by
  obtain ⟨n, hn, hnt⟩ := hm
  cases n with
  | text => cases hnt
  | element m tag attributes events children =>
    obtain ⟨t₁, t₂, t₃, hclear, hstyle, hclass, hw, hn₃⟩ := Tree.exists_reset ht hn rfl
      (.set "style" "color: red") (.set "class" errorClass)
    obtain ⟨t₄, t₅, x, hheading, happend, hg⟩ :=
      Grown.append_text hw.sound hn₃ rfl "h1" "An error occurred"
    obtain ⟨t₆, t₇, y, hdetail, happend', hg'⟩ :=
      Grown.append_text hg.sound (hg.find? hn₃) (by rw [Node.isText_extend]; rfl) "pre" r.text
    have hgrown := hg.trans hg' (by rw [Tree.contains, hn₃]; rfl)
    refine ⟨t₇, _, ?_, hgrown.sound, hgrown.find? hn₃, ⟨?_, ?_, ?_, ?_, ?_⟩, ?_⟩
    · unfold showError
      rw [bind_of_done (x := get _) rfl, bind_of_done (onTree_of_ok hclear), bind_of_done (onTree_of_ok hstyle),
        bind_of_done (onTree_of_ok hclass), bind_of_done (x := make _) rfl, bind_of_done (onTree_of_ok hheading),
        bind_of_done (onTree_of_ok happend), bind_of_done (x := make _) rfl, bind_of_done (onTree_of_ok hdetail),
        onTree_of_ok happend']
      rfl
    · rw [Node.isText_extend]
      rfl
    · rw [Node.attribute?_extend]
      exact (Tree.Attributes.get?_set ..).trans (if_pos rfl)
    · rw [Node.attribute?_extend]
      refine (Tree.Attributes.get?_set ..).trans ?_
      rw [if_neg (by decide)]
      exact (Tree.Attributes.get?_set ..).trans (if_pos rfl)
    · have hh1 : "h1".toLower = "h1" := toLower_eq_of_toList (by decide)
      have hpre : "pre".toLower = "pre" := toLower_eq_of_toList (by decide)
      rw [Node.children_extend rfl]
      simp [Node.setAttributes, Node.setChildren, Node.children, Node.toMarkup, Report.display, hh1, hpre]
    · rw [Node.children_extend rfl]
      simp [Node.setAttributes, Node.setChildren, Node.children, Node.recorded]
    · exact hw.inside.trans hgrown.inside hn

/-- A failure stops what was running and leaves the error display on the mounted node. -/
theorem recover_of_mounted (ht : e.tree.Sound) (hm : e.Mounted) (fault : Fault) :
    ∃ t n journal, recover fault e =
        .done () { e.stopped with tree := t, report := some (.ofFault fault) } journal ∧
      t.Sound ∧ t.find? e.mount = some n ∧ n.Shows (.ofFault fault) ∧ Inside e.mount e.tree t := by
  obtain ⟨t, n, hshow, ht', hn, hshows, hi⟩ := @showError_of_mounted e.stopped ht hm (.ofFault fault)
  have hattempt : attempt (showError (.ofFault fault)) e.stopped =
      .done (.ok ()) { e.stopped with tree := t } [] := by
    rw [attempt, hshow]
  have hrun : ∃ journal, recover fault e =
      .done () { e.stopped with tree := t, report := some (.ofFault fault) } journal := by
    unfold recover
    rw [bind_of_done (x := log _) rfl, bind_of_done (x := modify _) rfl]
    exact ⟨_, congrArg (fun o => Outcome.after _ (Outcome.after [] o)) (bind_of_done hattempt)⟩
  obtain ⟨journal, hrun⟩ := hrun
  exact ⟨t, n, journal, hrun, ht', hn, hshows, hi⟩

/-! ### Rendering -/

/-- A render pass runs the main section on an emptied node, and then asks whether too many re-renders have been
asked for. -/
theorem renderPass_of_blank (n : Nat) (ht : e.tree.Sound) (hm : e.Mounted) :
    ∃ m, e.blank.Sound ∧ e.blank.find? e.mount = some m ∧ m.Unmarked ∧ m.children = [] ∧
      Within e.mount e.tree e.blank ∧
      renderPass n e =
        match invoke n Engine.rootSite mainLabel .renderable (e.emptied e.blank) with
        | .done _ e' j =>
          if !e'.config.trusted && e'.schedule.storm.exceeded then
            .failed (.storm e'.schedule.storm.quota)
              { e' with schedule := { e'.schedule with pending := false } } j
          else .done () e' j
        | .failed fault e' j => .failed fault e' j
        | .tooDeep => .tooDeep := by
  obtain ⟨m, hm, hmt⟩ := hm
  cases m with
  | text => cases hmt
  | element h tag attributes events children =>
    obtain ⟨t₁, t₂, t, hclear, hstyle, hclass, hw, hn⟩ := Tree.exists_reset ht hm rfl
      (.erase "style") (.erase "class")
    have hblank : e.blank = t := by
      simp only [Engine.blank, Tree.edits, List.foldl_cons, List.foldl_nil, Tree.edit, Tree.removeAttribute,
        Tree.after, hclear, hstyle, hclass]
    rw [hblank]
    refine ⟨_, hw.sound, hn, ⟨rfl, ?_, ?_⟩, rfl, hw, ?_⟩
    · exact (Tree.Attributes.get?_erase ..).trans (if_pos rfl)
    · refine (Tree.Attributes.get?_erase ..).trans ?_
      rw [if_neg (by decide)]
      exact (Tree.Attributes.get?_erase ..).trans (if_pos rfl)
    · unfold renderPass
      rw [bind_of_done (x := get _) rfl, bind_of_done (onTree_of_ok hclear), bind_of_done (onTree_of_ok hstyle),
        bind_of_done (onTree_of_ok hclass), bind_of_done (x := modify _) rfl]
      simp only [Outcome.after_nil]
      cases hi : invoke n Engine.rootSite mainLabel .renderable (e.emptied t) with
      | done a e' j =>
        refine (bind_of_done hi).trans ?_
        rw [bind_of_done (x := get id) rfl]
        dsimp only [id]
        by_cases hs : (!e'.config.trusted && e'.schedule.storm.exceeded) = true
        · rw [if_pos hs, if_pos hs]
          exact congrArg (Outcome.failed _ _) (List.append_nil j)
        · rw [if_neg hs, if_neg hs]
          exact congrArg (Outcome.done () e') (List.append_nil j)
      | failed fault e' j => exact bind_of_failed hi
      | tooDeep => exact bind_of_tooDeep hi

theorem rearm_eq (e : Engine) : rearm e = .done () e.rearmed [] := by
  unfold rearm Engine.rearmed
  rw [bind_of_done (x := get _) rfl]
  cases e.schedule.pending with
  | false => rfl
  | true => rfl

/-- What a render tells when it has ended. -/
def finished (started : Nat) (e : Engine) : Diagnostic :=
  .renderFinished e.schedule.renders ((e.now - started) / 1000 % UInt64.size) e.schedule.phase
    e.schedule.deadline.isSome

theorem finish_eq (started : Nat) (e : Engine) :
    finish started e = .done () e.ended (if e.config.trusted then [] else [finished started e.ended]) := by
  have htrusted : e.ended.config.trusted = e.config.trusted := by
    obtain ⟨_, _, h⟩ := e.ended_eq
    rw [h]
  unfold finish
  rw [bind_of_done (rearm_eq e), bind_of_done (x := time) rfl, bind_of_done (x := get _) rfl, ← htrusted]
  simp only [Outcome.after_nil]
  rfl

/-- A render is its pass, what is done about a fault, and what comes last. -/
theorem render_eq (n : Nat) (e : Engine) :
    render n e = (attempt (renderPass n) >>= fun passed => do
      match passed with
      | .ok () => modify fun e => { e with schedule := { e.schedule with phase := .idle }, report := none }
      | .error fault => recover fault
      finish e.timed.now) e.started := by
  unfold render
  rw [bind_of_done (x := time) rfl, bind_of_done (x := modify _) rfl]
  simp only [Outcome.after_nil]
  rfl

/-- A render whose pass ends leaves the output as it is. -/
theorem render_of_done {n : Nat} {e' : Engine} {j : List Diagnostic}
    (hp : renderPass n e.started = .done () e' j) :
    ∃ clock deadline journal, render n e = .done ()
      { e' with clock, schedule := { e'.schedule with phase := .idle, deadline }, report := none } journal := by
  have hattempt : attempt (renderPass n) e.started = .done (.ok ()) e' j := by rw [attempt, hp]
  obtain ⟨clock, deadline, hd⟩ := Engine.ended_eq
    { e' with schedule := { e'.schedule with phase := .idle }, report := none }
  rw [render_eq, bind_of_done hattempt]
  dsimp only
  rw [bind_of_done (x := modify _) rfl, finish_eq, hd]
  exact ⟨clock, deadline, _, rfl⟩

/-- A render whose pass fails leaves the error display. -/
theorem render_of_failed {n : Nat} {fault : Fault} {e' : Engine} {j : List Diagnostic}
    (hp : renderPass n e.started = .failed fault e' j) (ht : e'.tree.Sound) (hm : e'.Mounted) :
    ∃ t m clock deadline journal, render n e =
        .done ()
          { e'.stopped with
            clock
            tree := t
            schedule := { e'.stopped.schedule with deadline }
            report := some (.ofFault fault) } journal ∧
      t.Sound ∧ t.find? e'.mount = some m ∧ m.Shows (.ofFault fault) ∧ Inside e'.mount e'.tree t := by
  have hattempt : attempt (renderPass n) e.started = .done (.error fault) e' j := by rw [attempt, hp]
  obtain ⟨t, m, j', hr, ht', hm', hshows, hi⟩ := recover_of_mounted ht hm fault
  obtain ⟨clock, deadline, hd⟩ := Engine.ended_eq { e'.stopped with tree := t, report := some (.ofFault fault) }
  rw [render_eq, bind_of_done hattempt]
  dsimp only
  rw [bind_of_done hr, finish_eq, hd]
  exact ⟨t, m, clock, deadline, _, rfl, ht', hm', hshows, hi⟩

theorem render_of_tooDeep {n : Nat} (hp : renderPass n e.started = .tooDeep) : render n e = .tooDeep := by
  have hattempt : attempt (renderPass n) e.started = .tooDeep := by rw [attempt, hp]
  rw [render_eq, bind_of_tooDeep hattempt]

theorem follows_blank (he : e.AtRest) (hm : e.Mounted) :
    Follows ⟨e.resources, e.sections⟩ ⟨.any, true, true, none⟩ ⟨[], []⟩ e.mount (e.started.emptied e.blank) := by
  obtain ⟨m, ht, hm, hu, hc, -, -⟩ := @renderPass_of_blank e.started 0 he.sound hm
  exact he.follows_emptied ht hm hu hc

/-- How a render ends, by how the evaluator ends on the main section. That a render is refused although its code has
ended is not the evaluator's business. -/
inductive Rendered (n : Nat) (e : Engine) : Evaluation.Result → Prop
  | shown {p : Evaluation.Page} {e₁ : Engine} {clock : Clock} {deadline : Option Nat} {j journal : List Diagnostic}
    (hmain : invoke n Engine.rootSite mainLabel .renderable (e.started.emptied e.blank) = .done () e₁ j)
    (hcalm : (!e.config.trusted && e₁.schedule.storm.exceeded) = false)
    (hrender : render n e =
      .done () { e₁ with clock, schedule := { e₁.schedule with phase := .idle, deadline }, report := none } journal)
    (hmount : e₁.mount = e.mount) (hstack : e₁.stack = p.stack)
    (hcontents : e₁.tree.contents? e.mount = some p.nodes) : Rendered n e (.done p)
  | refused {p : Evaluation.Page} {e' : Engine} {journal : List Diagnostic}
    (hrender : render n e = .done () e' journal)
    (hstorm : (!e.config.trusted && e'.schedule.storm.exceeded) = true) (hmount : e'.mount = e.mount)
    (hstack : e'.stack = p.stack) (hphase : e'.schedule.phase = .failed)
    (hreport : e'.report = some (.ofFault (.storm e'.schedule.storm.quota))) : Rendered n e (.done p)
  | failed {fault : Fault} {stack : Operands} {e' : Engine} {journal : List Diagnostic}
    (hrender : render n e = .done () e' journal) (hmount : e'.mount = e.mount) (hstack : e'.stack = stack)
    (hphase : e'.schedule.phase = .failed) (hreport : e'.report = some (.ofFault fault))
    (hcontents : e'.tree.contents? e.mount = some (Report.ofFault fault).display) (hlisteners : e'.listeners = []) :
    Rendered n e (.failed fault stack)
  | tooDeep (hrender : render n e = .tooDeep) : Rendered n e .tooDeep

theorem rendered (n : Nat) (he : e.AtRest) (hm : e.Mounted) :
    Rendered n e (Evaluation.main ⟨e.resources, e.sections⟩ n) := by
  have hfollows := follows_blank he hm
  have hagrees := invoke_main_agrees hfollows n
  have hgrows := closed_grows.invoke n Engine.rootSite mainLabel .renderable (e.started.emptied e.blank)
  obtain ⟨-, -, -, -, -, -, hpass⟩ := @renderPass_of_blank e.started n he.sound hm
  rw [Engine.blank_started] at hpass
  generalize Evaluation.main ⟨e.resources, e.sections⟩ n = r at hagrees ⊢
  cases hmain : invoke n Engine.rootSite mainLabel .renderable (e.started.emptied e.blank) with
  | done a e₁ j =>
    rw [hmain] at hpass hagrees hgrows
    cases r with
    | failed | tooDeep => exact hagrees.elim
    | done p =>
      obtain ⟨m', hm', hmt', hnodes, -⟩ := hagrees.node
      have hconfig : e₁.config = e.config := hgrows.config
      have hmount : e₁.mount = e.mount := hgrows.mount
      dsimp only at hpass
      rw [hconfig] at hpass
      cases hs : !e.config.trusted && e₁.schedule.storm.exceeded with
      | true =>
        rw [hs, if_pos rfl] at hpass
        obtain ⟨t', -, clock, deadline, journal, hrender, -⟩ :=
          render_of_failed hpass hagrees.sound ⟨m', hmount ▸ hm', hmt'⟩
        exact .refused hrender hs hmount hagrees.stack rfl rfl
      | false =>
        rw [hs, if_neg Bool.false_ne_true] at hpass
        obtain ⟨clock, deadline, journal, hrender⟩ := render_of_done hpass
        have hcontents : e₁.tree.contents? e.mount = some p.nodes := by
          rw [Tree.contents?, hm', Option.map_some, hnodes]
        exact .shown hmain hs hrender hmount hagrees.stack hcontents
  | failed fault e₁ j =>
    rw [hmain] at hpass hagrees hgrows
    cases r with
    | done | tooDeep => exact hagrees.elim
    | failed fault' stack =>
      obtain ⟨rfl, hstack⟩ := hagrees
      obtain ⟨hsound, hmounted⟩ := hgrows.mounted hfollows.writable
      have hmount : e₁.mount = e.mount := hgrows.mount
      obtain ⟨t', m', clock, deadline, journal, hrender, -, hm', hshows, -⟩ := render_of_failed hpass hsound hmounted
      have hcontents : t'.contents? e.mount = some (Report.ofFault fault).display := by
        rw [Tree.contents?, ← hmount, hm', Option.map_some, hshows.contents]
      exact .failed hrender hmount hstack rfl rfl hcontents rfl
  | tooDeep =>
    rw [hmain] at hpass hagrees
    cases r with
    | done | failed => exact hagrees.elim
    | tooDeep => exact .tooDeep (render_of_tooDeep hpass)

end Action

end Trellis
