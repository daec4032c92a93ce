import Trellis.Proofs.Engine.Mount

/-!
# A failure is shown and nothing else is left of it

A host mounts a program on an element and then drives it: it has it rendered, polls it, delivers events to it, lets
time pass, and may mount it anew. A failure can strike at any instruction of any section. Between two requests there
are nevertheless only two situations. Either all is calm, or the last failure is on display: then nothing listens and
the mounted node holds the display and nothing else. Whatever a request does to the tree happens within the mounted
node, so that nothing of what failed is kept outside it either.
-/
namespace Trellis

open Tree (Handle Node Within Inside)

/-! ### The two situations -/

namespace Report

theorem writeAll_display (r : Report) :
    Markup.writeAll r.display =
      "<h1>An error occurred</h1><pre>".toList ++ (Markup.escapeText r.text.toList ++ "</pre>".toList) := by
  have hh1 : Markup.isVoid "h1" = false := by decide
  have hpre : Markup.isVoid "pre" = false := by decide
  have htext : Markup.escapeText "An error occurred".toList = "An error occurred".toList := by decide
  simp only [display, Markup.writeAll, Markup.write, Markup.writeOpening, Markup.writeClosing, hh1, hpre, htext,
    Bool.false_and, Bool.false_eq_true, if_false, List.flatMap_nil, List.append_nil, List.append_assoc]
  rfl

/-- The error display as markup text. -/
def markup (r : Report) : String :=
  "<h1>An error occurred</h1><pre>" ++ String.ofList (Markup.escapeText r.text.toList) ++ "</pre>"

theorem toList_markup (r : Report) : r.markup.toList = Markup.writeAll r.display := by
  have htext : (String.ofList (Markup.escapeText r.text.toList)).toList = Markup.escapeText r.text.toList :=
    String.toList_ofList
  unfold markup
  rw [writeAll_display, String.toList_append, String.toList_append, htext, List.append_assoc]

theorem markup_eq (r : Report) : r.markup = String.ofList (Markup.writeAll r.display) := by
  rw [← toList_markup]
  exact String.ofList_toList.symm

end Report

namespace Engine

/-- Nothing has failed since the last render. -/
structure Calm (e : Engine) : Prop where
  phase : e.schedule.phase = .idle
  report : e.report = none
  noClass : e.tree.attribute? e.mount "class" = none
  noStyle : e.tree.attribute? e.mount "style" = none

/-- A failure is on display. -/
structure Failed (e : Engine) (r : Report) : Prop where
  phase : e.schedule.phase = .failed
  report : e.report = some r
  focus : e.focus = none
  listeners : e.listeners = []
  hasClass : e.tree.attribute? e.mount "class" = some "arbor-error"
  hasStyle : e.tree.attribute? e.mount "style" = some "color: red"
  contents : e.tree.innerMarkup e.mount = r.markup

theorem Calm.of_unmarked {e : Engine} {m : Node} (hp : e.schedule.phase = .idle) (hr : e.report = none)
    (hm : e.tree.find? e.mount = some m) (hu : m.Unmarked) : e.Calm := by
  refine ⟨hp, hr, ?_, ?_⟩
  · rw [Tree.attribute?, hm]
    exact hu.noClass
  · rw [Tree.attribute?, hm]
    exact hu.noStyle

theorem Failed.of_shows {e : Engine} {m : Node} {r : Report} (hp : e.schedule.phase = .failed)
    (hr : e.report = some r) (hf : e.focus = none) (hl : e.listeners = [])
    (hm : e.tree.find? e.mount = some m) (hs : m.Shows r) : e.Failed r := by
  refine ⟨hp, hr, hf, hl, ?_, ?_, ?_⟩
  · rw [Tree.attribute?, hm]
    exact hs.hasClass
  · rw [Tree.attribute?, hm]
    exact hs.hasStyle
  · rw [Tree.innerMarkup, hm, Report.markup_eq, ← hs.contents]

theorem Calm.not_failed {e : Engine} {r : Report} (hc : e.Calm) (hf : e.Failed r) : False := by
  have h := hc.phase.symm.trans hf.phase
  cases h

/-- A program can be run on the mounted node. -/
structure Ready (e : Engine) : Prop extends AtRest e where
  mounted : e.Mounted

structure Settled (e : Engine) : Prop extends Ready e where
  situation : e.Calm ∨ ∃ r, e.Failed r

/-- A program can be run on the node of a handle, and the tree has changed only inside that node. -/
structure Stays (h : Handle) (e e' : Engine) : Prop where
  ready : e'.Ready
  mount : e'.mount = h
  inside : Inside h e.tree e'.tree

/-- What a request may come to that leaves the program mounted on a node. -/
structure Ends (h : Handle) (e e' : Engine) : Prop extends Stays h e e' where
  situation : e'.Calm ∨ ∃ r, e'.Failed r

theorem Ends.settled {e e' : Engine} {h : Handle} (he : Ends h e e') : e'.Settled := ⟨he.ready, he.situation⟩

theorem Ends.within {e e' : Engine} {h : Handle} (he : Ends h e e') (hr : e.tree.Rooted) :
    Within h e.tree e'.tree := he.inside.within hr

theorem Ready.stays {e : Engine} (he : e.Ready) : Stays e.mount e e := ⟨he, rfl, .refl he.sound _⟩

/-- What is not about the tree, the frames or the context may change. -/
theorem Ready.of_eq {e e' : Engine} (he : e.Ready) (ht : e'.tree = e.tree) (hm : e'.mount = e.mount)
    (hf : e'.frames = e.frames) (hc : e'.context = e.context) : e'.Ready := by
  refine ⟨⟨ht ▸ he.sound, by rw [hf, hm, he.frames], hc.trans he.context⟩, ?_⟩
  rw [Mounted, ht, hm]
  exact he.mounted

theorem Stays.of_eq {e e' e'' : Engine} {h : Handle} (hs : Stays h e e') (ht : e''.tree = e'.tree)
    (hm : e''.mount = e'.mount) (hf : e''.frames = e'.frames) (hc : e''.context = e'.context) : Stays h e e'' :=
  ⟨hs.ready.of_eq ht hm hf hc, hm.trans hs.mount, ht ▸ hs.inside⟩

theorem Stays.trans {e e' e'' : Engine} {h : Handle} (ha : Stays h e e') (hn : ∃ n, e.tree.find? h = some n)
    (hb : Stays e'.mount e' e'') : Stays h e e'' := by
  obtain ⟨n, hn⟩ := hn
  obtain ⟨-, rfl, hi⟩ := ha
  exact ⟨hb.ready, hb.mount, hi.trans hb.inside hn⟩

theorem Ready.found {e : Engine} (he : e.Ready) : ∃ n, e.tree.find? e.mount = some n :=
  he.mounted.imp fun _ h => h.1

theorem Ready.writable {e : Engine} (he : e.Ready) : e.Writable e.mount :=
  ⟨he.sound, by rw [he.frames]; rfl, he.mounted⟩

/-- Code leaves an engine on which a program can be run, and changes the tree only inside the mounted node. -/
theorem Ready.grows {e e' : Engine} (he : e.Ready) (hg : Action.Grows e e') : Stays e.mount e e' := by
  obtain ⟨ns, events, hgrown⟩ := hg.tree e.mount he.writable
  obtain ⟨hsound, hmounted⟩ := hg.mounted he.writable
  refine ⟨⟨⟨hsound, ?_, hg.context.trans he.context⟩, hmounted⟩, hg.mount, hgrown.inside⟩
  rw [hg.frames, hg.mount, he.frames]

/-- A render begins on an emptied node. -/
theorem Ready.emptied {e : Engine} (he : e.Ready) :
    (e.started.emptied e.blank).Ready ∧ Within e.mount e.tree e.blank ∧
      ∃ m, e.blank.find? e.mount = some m ∧ m.Unmarked ∧ m.children = [] := by
  obtain ⟨m, ht, hm, hu, hc, hw, -⟩ := @Action.renderPass_of_blank e.started 0 he.sound he.mounted
  refine ⟨⟨⟨ht, ?_, he.context⟩, ⟨m, hm, hu.element⟩⟩, hw, m, hm, hu, hc⟩
  change Frames.truncate 1 e.frames = _
  rw [he.frames]
  rfl

/-- Code that ends without a fault leaves a calm engine calm. -/
theorem Calm.grows {e e' : Engine} (hc : e.Calm) (he : e.Ready) (hg : Action.Grows e e') : e'.Calm := by
  obtain ⟨ns, events, hgrown⟩ := hg.tree e.mount he.writable
  obtain ⟨m, hm, -⟩ := he.mounted
  have hattribute : e'.tree.attribute? e'.mount = e.tree.attribute? e.mount := by
    funext name
    rw [hg.mount, Tree.attribute?, hgrown.find? hm, Tree.attribute?, hm]
    simp
  exact ⟨hg.phase.trans hc.phase, hg.report.trans hc.report, by rw [hattribute, hc.noClass],
    by rw [hattribute, hc.noStyle]⟩

theorem Stays.ends {e e' e'' : Engine} {h : Handle} (ha : Stays h e e') (hn : ∃ n, e.tree.find? h = some n)
    (hb : Ends e'.mount e' e'') : Ends h e e'' := ⟨ha.trans hn hb.toStays, hb.situation⟩

/-- Time passes and deadlines move: the situation stays what it was. -/
theorem Settled.ends {e : Engine} (he : e.Settled) (clock : Clock) {schedule : Schedule}
    (hs : schedule.phase = e.schedule.phase) : Ends e.mount e { e with clock, schedule } := by
  refine ⟨he.stays.of_eq rfl rfl rfl rfl, ?_⟩
  cases he.situation with
  | inl hc => exact .inl ⟨hs.trans hc.phase, hc.report, hc.noClass, hc.noStyle⟩
  | inr hf =>
    obtain ⟨r, hf⟩ := hf
    exact .inr ⟨r, hs.trans hf.phase, hf.report, hf.focus, hf.listeners, hf.hasClass, hf.hasStyle, hf.contents⟩

end Engine

namespace Action

open Engine (Ready Stays Settled Ends Calm Failed)

variable {e : Engine}

/-! ### Failures and renders -/

/-- Whatever has failed, the engine ends up with the failure on display. -/
theorem recover_ends (he : e.Ready) (fault : Fault) : (recover fault e).Leaves (Ends e.mount e) := by
  obtain ⟨t, m, journal, hrun, ht, hm, hshows, hi⟩ := recover_of_mounted he.sound he.mounted fault
  have hrest := hosted_rests.staged.recover fault e
  rw [hrun] at hrest ⊢
  refine ⟨⟨⟨hrest he.toAtRest, ⟨m, hm, hshows.element⟩⟩, rfl, hi⟩, .inr ⟨.ofFault fault, ?_⟩⟩
  exact .of_shows rfl rfl rfl rfl hm hshows

/-- A render pass ends as the main section does, or fails although that has ended without a fault. -/
theorem renderPass_cases (he : e.Ready) (n : Nat) :
    (∃ a e' j, invoke n Engine.rootSite mainLabel .renderable (e.started.emptied e.blank) = .done a e' j ∧
      renderPass n e.started = .done () e' j) ∨
    (∃ fault e' j, renderPass n e.started = .failed fault e' j ∧ Stays e.mount e e' ∧
      (invoke n Engine.rootSite mainLabel .renderable (e.started.emptied e.blank) = .failed fault e' j ∨
        ∃ quota, fault = .storm quota)) ∨
    renderPass n e.started = .tooDeep := by
  obtain ⟨hready, hw, -⟩ := he.emptied
  have hemptied : Stays e.mount e (e.started.emptied e.blank) := ⟨hready, rfl, hw.inside⟩
  obtain ⟨-, -, -, -, -, -, hpass⟩ := @renderPass_of_blank e.started n he.sound he.mounted
  have hgrows := closed_grows.invoke n Engine.rootSite mainLabel .renderable (e.started.emptied e.blank)
  rw [Engine.blank_started] at hpass
  cases hi : invoke n Engine.rootSite mainLabel .renderable (e.started.emptied e.blank) with
  | done a e' j =>
    rw [hi] at hgrows hpass
    have hstays := hemptied.trans he.found (hready.grows hgrows)
    dsimp only at hpass
    by_cases hs : (!e'.config.trusted && e'.schedule.storm.exceeded) = true
    · rw [if_pos hs] at hpass
      exact .inr (.inl ⟨_, _, _, hpass, hstays.of_eq rfl rfl rfl rfl, .inr ⟨_, rfl⟩⟩)
    · rw [if_neg hs] at hpass
      exact .inl ⟨a, e', j, rfl, hpass⟩
  | failed fault e' j =>
    rw [hi] at hgrows hpass
    exact .inr (.inl ⟨fault, e', j, hpass, hemptied.trans he.found (hready.grows hgrows), .inl rfl⟩)
  | tooDeep =>
    rw [hi] at hpass
    exact .inr (.inr hpass)

theorem render_ends (he : e.Ready) (n : Nat) : (render n e).Leaves (Ends e.mount e) := by
  have hrest := hosted_rests.staged.render n e
  rcases renderPass_cases he n with ⟨a, e', j, hi, hpass⟩ | ⟨fault, e', j, hpass, hstays, -⟩ | hpass
  · obtain ⟨hready, hw, m, hm, hu, -⟩ := he.emptied
    have hgrows := closed_grows.invoke n Engine.rootSite mainLabel .renderable (e.started.emptied e.blank)
    rw [hi] at hgrows
    have hemptied : Stays e.mount e (e.started.emptied e.blank) := ⟨hready, rfl, hw.inside⟩
    have hstays := hemptied.trans he.found (hready.grows hgrows)
    obtain ⟨ns, events, hgrown⟩ := hgrows.tree _ hready.writable
    obtain ⟨clock, deadline, journal, hrun⟩ := render_of_done hpass
    have hm' := hgrown.find? hm
    rw [hrun] at hrest ⊢
    refine ⟨hstays.of_eq rfl rfl rfl rfl, .inl ?_⟩
    exact .of_unmarked rfl rfl (hstays.mount ▸ hm') (hu.extend ns events)
  · obtain ⟨t, m, clock, deadline, journal, hrun, -, hm, hshows, hi⟩ :=
      render_of_failed hpass hstays.ready.sound hstays.ready.mounted
    rw [hrun] at hrest ⊢
    have hshown : Stays e'.mount e' _ := ⟨⟨hrest he.toAtRest, ⟨m, hm, hshows.element⟩⟩, rfl, hi⟩
    refine ⟨hstays.trans he.found hshown, .inr ⟨.ofFault fault, ?_⟩⟩
    exact .of_shows rfl rfl rfl rfl hm hshows
  · rw [render_of_tooDeep hpass]
    trivial

/-! ### Requests -/

theorem boot_of_not_init (n : Nat) (target : Handle) (hi : e.sections.contains initLabel = false) :
    ∃ journal, boot n target e =
      (render n { e with frames := [Engine.rootFrame target], mount := target }).after journal := by
  unfold boot
  rw [bind_of_done (x := modify _) rfl, bind_of_done (x := log _) rfl, bind_of_done (x := get _) rfl]
  dsimp only
  rw [hi, if_neg Bool.false_ne_true, bind_of_done (x := pure _) rfl]
  simp only [Outcome.after_after]
  exact ⟨_, rfl⟩

/-- Mounting does not ask what came before: `init` and the first render end in one of the two situations. -/
theorem boot_ends (n : Nat) {target : Handle} (he : e.AtRest)
    (ht : ∃ m, e.tree.find? target = some m ∧ m.isText = false) : (boot n target e).Leaves (Ends target e) := by
  have hready : ({ e with frames := [Engine.rootFrame target], mount := target } : Engine).Ready :=
    ⟨⟨he.sound, rfl, he.context⟩, ht⟩
  have hfound : ∃ m, e.tree.find? target = some m := ht.imp fun _ h => h.1
  have hstart : Stays target e { e with frames := [Engine.rootFrame target], mount := target } :=
    ⟨hready, rfl, .refl he.sound _⟩
  have hinit := closed_grows.invoke n Engine.rootSite initLabel .callable
    { e with frames := [Engine.rootFrame target], mount := target }
  cases hi : e.sections.contains initLabel with
  | false =>
    obtain ⟨journal, hrun⟩ := boot_of_not_init n target hi
    rw [hrun, Outcome.leaves_after]
    exact (render_ends hready n).mono fun _ h => hstart.ends hfound h
  | true =>
    unfold boot
    rw [bind_of_done (x := modify _) rfl, bind_of_done (x := log _) rfl, bind_of_done (x := get _) rfl]
    simp only [Outcome.leaves_after, hi, if_true]
    apply leaves_attempt
    · intro a e' journal hrun
      rw [hrun] at hinit
      have hstays := hstart.trans hfound (hready.grows hinit)
      exact (render_ends hstays.ready n).mono fun _ h => hstays.ends hfound h
    · intro fault e' journal hrun
      rw [hrun] at hinit
      have hstays := hstart.trans hfound (hready.grows hinit)
      exact (recover_ends hstays.ready fault).mono fun _ h => hstays.ends hfound h

/-- Handlers run one after the other until one of them fails, and the failure is then on display. What holds of no
handler, and of one more handler in front in either case, holds of them all. -/
theorem deliver_leaves {P : Engine → Engine → Prop} (hnil : ∀ e : Engine, e.Ready → P e e)
    (hdone : ∀ {e e' e''}, e.Ready → Grows e e' → P e' e'' → P e e'')
    (hfailed : ∀ {e e' e''}, e.Ready → Grows e e' → Ends e'.mount e' e'' → P e e'')
    (n : Nat) (target : Handle) (ls : List Listener) (he : e.Ready) : (deliver n target ls e).Leaves (P e) := by
  induction ls generalizing e with
  | nil => exact hnil e he
  | cons l ls ih =>
    have hhandler := quiet_grows.withFocus target (closed_grows.invoke n l.site l.handler .callable) e
    unfold deliver
    apply leaves_attempt
    · intro a e' journal hrun
      rw [hrun] at hhandler
      exact leaves_bind_pure ((ih (he.grows hhandler).ready).mono fun _ h => hdone he hhandler h)
    · intro fault e' journal hrun
      rw [hrun] at hhandler
      exact leaves_bind_pure
        ((recover_ends (he.grows hhandler).ready fault).mono fun _ h => hfailed he hhandler h)

theorem deliver_ends (n : Nat) (target : Handle) (ls : List Listener) (he : e.Ready) (hc : e.Calm) :
    (deliver n target ls e).Leaves (Ends e.mount e) := by
  have hdeliver : (deliver n target ls e).Leaves fun e' => e.Calm → Ends e.mount e e' :=
    deliver_leaves (P := fun e e' => e.Calm → Ends e.mount e e') (fun _ he hc => ⟨he.stays, .inl hc⟩)
      (fun he hg h hc => (he.grows hg).ends he.found (h (hc.grows he hg)))
      (fun he hg h _ => (he.grows hg).ends he.found h) n target ls he
  exact hdeliver.mono fun _ h => h hc

/-- An event finds no listener while a failure is on display. -/
theorem dispatch_ends (n : Nat) (target : Handle) (event : String) (he : e.Settled) :
    (dispatch n target event e).Leaves (Ends e.mount e) := by
  unfold dispatch
  rw [bind_of_done (x := get _) rfl, bind_of_done (x := log _) rfl]
  simp only [Outcome.leaves_after]
  cases he.situation with
  | inl hc => exact deliver_ends n target _ he.toReady hc
  | inr hf =>
    obtain ⟨r, hf⟩ := hf
    have hnone : listenersOn (e.tree.lineage target) event e.listeners = [] := by
      simp [listenersOn, hf.listeners]
    simp only [id, hnone]
    exact ⟨he.stays, he.situation⟩

theorem poll_ends (n : Nat) (he : e.Settled) : (poll n e).Leaves (Ends e.mount e) := by
  unfold poll
  rw [bind_of_done (x := time) rfl, bind_of_done (x := modify _) rfl, bind_of_done (x := get _) rfl]
  simp only [Outcome.leaves_after, id]
  split
  · rw [bind_of_done (x := modify _) rfl, Outcome.leaves_after]
    have hstart := @Settled.ends e he e.clock.read
      { e.schedule with storm := e.schedule.storm.tick e.timed.now, deadline := none } rfl
    apply leaves_bind_pure
    exact (render_ends hstart.ready n).mono fun _ h => hstart.toStays.ends he.found h
  · exact he.ends e.clock.read rfl

end Action

/-! ### Runs -/

/-- The requests by which a host drives a program. It mounts programs on live elements only. -/
def Request.Drives (e : Engine) : Request → Prop
  | .boot target => ∃ m, e.tree.find? target = some m ∧ m.isText = false
  | .render | .poll | .dispatch _ _ | .advance _ | .lapse _ => True
  | _ => False

namespace Engine

/-- Runs that mount a program on an engine and then drive it. The last request took `e` to `e'`. -/
inductive Driven (start : Engine) : Engine → Engine → Prop
  | mount {e' : Engine} (n : Nat) (target : Handle) (hd : (Request.boot target).Drives start)
      (hr : ((Request.boot target).run n start).engine? = some e') : Driven start start e'
  | request {e e' e'' : Engine} (n : Nat) (r : Request) (h : Driven start e e') (hd : r.Drives e')
      (hr : (r.run n e').engine? = some e'') : Driven start e' e''

theorem Settled.request {e e' : Engine} {n : Nat} {r : Request} (he : e.Settled) (hd : r.Drives e)
    (hr : (r.run n e).engine? = some e') : Ends e'.mount e e' := by
  have hmount : ∀ {h : Handle}, Ends h e e' → Ends e'.mount e e' := fun h => h.mount ▸ h
  cases r with
  | boot target => exact hmount ((Action.boot_ends n he.toAtRest hd).engine hr)
  | render => exact hmount ((Action.render_ends he.toReady n).engine hr)
  | poll => exact hmount ((Action.leaves_bind_pure (Action.poll_ends n he)).engine hr)
  | dispatch target event =>
    exact hmount ((Action.leaves_bind_pure (Action.dispatch_ends n target event he)).engine hr)
  | advance | lapse =>
    cases hr
    exact he.ends _ rfl
  | _ => cases hd

/-- Every request of a run leaves one of the two situations, and has changed the tree only within the node on which
the program is then mounted. -/
theorem Driven.ends {start e e' : Engine} (h : Driven start e e') (hs : start.AtRest) :
    Ends e'.mount e e' ∧ (start.tree.Rooted → e.tree.Rooted) := by
  induction h with
  | mount n target hd hr =>
    have hends := (Action.boot_ends n hs hd).engine hr
    exact ⟨hends.mount ▸ hends, id⟩
  | request n r _ hd hr ih =>
    obtain ⟨hends, hrooted⟩ := ih
    exact ⟨hends.settled.request hd hr, fun h => (hends.within (hrooted h)).rooted (hrooted h)⟩

/-- Between any two requests of a run the engine is at rest on a live element, and it is either calm or has the last
failure on display. If the root stood at the top when the run began, as it does unless the host itself has put it
below another node, then no request leaves anything in the tree outside the node on which the program is mounted. -/
theorem driven_settled {start e e' : Engine} (hs : start.Reachable) (h : Driven start e e') :
    e'.frames = [rootFrame e'.mount] ∧ e'.context = ⟨.any, .root⟩ ∧
      (∃ m, e'.tree.find? e'.mount = some m ∧ m.isText = false) ∧
      ((e'.Calm ∧ ¬ ∃ r, e'.Failed r) ∨ (¬ e'.Calm ∧ ∃ r, e'.Failed r)) ∧
      (start.tree.Rooted → Within e'.mount e.tree e'.tree) := by
  obtain ⟨hends, hrooted⟩ := h.ends hs.atRest
  have he := hends.settled
  refine ⟨he.frames, he.context, he.mounted, ?_, fun hr => hends.within (hrooted hr)⟩
  cases he.situation with
  | inl hc => exact .inl ⟨hc, fun ⟨_, hf⟩ => hc.not_failed hf⟩
  | inr hf =>
    obtain ⟨r, hf⟩ := hf
    exact .inr ⟨fun hc => hc.not_failed hf, r, hf⟩

/-- A main section that fails inside a container, when an item has been made. -/
def halting : Definition where
  label := mainLabel
  renderable := true
  body := [.container (.symbol "list") (.named "ul")
    [.single (.symbol "item") (.element "li"), .single (.symbol "gone") .pop]]

/-- An engine into which only that section has been loaded. -/
def halted : Engine := { new {} with sections := Sections.define .empty (.ofDefinition halting) }

theorem main_halted : Evaluation.main ⟨halted.resources, halted.sections⟩ 2 = .failed (.underflow .pop) [] := by
  simp [Evaluation.main, Evaluation.call, Evaluation.allowed, Evaluation.evaluate, Evaluation.sequence,
    Evaluation.step, Evaluation.perform, Evaluation.onStack, Evaluation.Page.add, halted, halting, Sections.find,
    Sections.define, Section.ofDefinition, mainLabel, Operands.pop]

/-- Mounted on the root, it leaves the failure on display and nothing else. -/
theorem driven_settled_halted :
    halted.Reachable ∧ ∃ e, Driven halted halted e ∧ e.Failed (.ofFault (.underflow .pop)) ∧
      Within e.mount .new e.tree := by
  have hreach : halted.Reachable := .request 0 (.define halting) (.new {}) rfl
  have hrendered := Action.rendered 2 hreach.atRest ⟨_, rfl, rfl⟩
  rw [main_halted] at hrendered
  cases hrendered with
  | failed hrun _ _ _ hreport =>
    obtain ⟨journal', hboot⟩ := @Action.boot_of_not_init halted 2 .root rfl
    rw [show ({ halted with frames := [rootFrame .root], mount := .root } : Engine) = halted from rfl, hrun] at hboot
    have hdriven : Driven halted halted _ := .mount 2 .root ⟨_, rfl, rfl⟩ (congrArg Outcome.engine? hboot)
    obtain ⟨-, -, -, hsituation, hwithin⟩ := driven_settled hreach hdriven
    refine ⟨hreach, _, hdriven, ?_, hwithin (List.mem_singleton_self _)⟩
    cases hsituation with
    | inl hc => exact nomatch hc.1.report.symm.trans hreport
    | inr hf =>
      obtain ⟨r, hf⟩ := hf.2
      cases hf.report.symm.trans hreport
      exact hf

end Engine
end Trellis
