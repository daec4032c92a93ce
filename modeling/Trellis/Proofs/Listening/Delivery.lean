import Trellis.Proofs.Listening.Ledger

/-!
# How an event is delivered

An event climbs from its target to the top of the tree, one parent after the other. The handlers that are bound to it on
this path when it is dispatched run in that order, and on one node in the order in which they were bound; what handlers
bind meanwhile waits for the next event. Each handler finds the focus on the target, and leaves the frames, the context
and the focus as they were. The first one that fails is the last one that runs, and its failure is shown on the mounted
node, if that is a live element.
-/
namespace Trellis

open Tree (Handle Node)

/-! ### The way up -/

namespace Tree.Climbs

variable {t : Tree} {h x : Handle} {path path' : List Handle}

/-- There is one way up. -/
theorem unique (hc : t.Climbs h path) (hc' : t.Climbs h path') : path' = path := by
  induction hc generalizing path' with
  | top hp =>
    cases hc' with
    | top => rfl
    | up hp' => simp [hp] at hp'
  | up hp _ ih =>
    cases hc' with
    | top hp' => simp [hp] at hp'
    | up hp' hpath' =>
      obtain rfl : _ = _ := Option.some.inj (hp.symm.trans hp')
      rw [ih hpath']

/-- From any node on the way the rest of it leads on. -/
theorem rest (hc : t.Climbs h path) (hx : x ∈ path) : ∃ below above, path = below ++ above ∧ t.Climbs x above := by
  induction hc with
  | top hp =>
    obtain rfl := List.mem_singleton.mp hx
    exact ⟨[], _, rfl, .top hp⟩
  | @up h p path hp hpath ih =>
    rcases List.mem_cons.mp hx with rfl | hx
    · exact ⟨[], _, rfl, .up hp hpath⟩
    · obtain ⟨below, above, rfl, habove⟩ := ih hx
      exact ⟨h :: below, above, rfl, habove⟩

/-- No node is met twice: the way up from it would be as long as a part of itself. -/
theorem nodup (hc : t.Climbs h path) : path.Nodup := by
  induction hc with
  | top => simp
  | @up h p path hp hpath ih =>
    refine List.nodup_cons.mpr ⟨fun hh => ?_, ih⟩
    obtain ⟨below, above, heq, habove⟩ := hpath.rest hh
    have hsame := congrArg List.length ((Climbs.up hp hpath).unique habove)
    rw [heq, List.length_cons, List.length_append] at hsame
    omega

end Tree.Climbs

namespace Action

variable {n : Nat} {target : Handle} {l : Listener} {ls before : List Listener} {e e' e₁ : Engine}

/-- On a way on which no node is met twice, each listener for the event is found once. -/
theorem listenersOn_perm {path : List Handle} (hd : path.Nodup) (event : String) (listeners : List Listener) :
    (listenersOn path event listeners).Perm (listeners.filter fun l => l.node ∈ path ∧ l.event = event) := by
  induction path with
  | nil => simp [listenersOn]
  | cons node path ih =>
    obtain ⟨hnode, hd⟩ := List.nodup_cons.mp hd
    -- Those of the first node are split off from the rest, none of which is on it.
    have hsplit := List.filter_append_perm (fun l : Listener => decide (l.node = node))
      (listeners.filter fun l => l.node ∈ node :: path ∧ l.event = event)
    rw [List.filter_filter, List.filter_filter] at hsplit
    have hfirst : (listeners.filter fun l =>
          decide (l.node = node) && decide (l.node ∈ node :: path ∧ l.event = event)) =
        listeners.filter fun l => l.node = node ∧ l.event = event := by
      apply List.filter_congr
      intro l _
      by_cases hl : l.node = node <;> simp [hl]
    have hrest : (listeners.filter fun l =>
          !decide (l.node = node) && decide (l.node ∈ node :: path ∧ l.event = event)) =
        listeners.filter fun l => l.node ∈ path ∧ l.event = event := by
      apply List.filter_congr
      intro l _
      by_cases hl : l.node = node
      · simp [hl, hnode]
      · simp [hl]
    rw [hfirst, hrest] at hsplit
    exact ((ih hd).append_left _).trans hsplit

/-! ### One handler after the other -/

/-- The handlers run one after the other and none of them fails. -/
inductive Served (n : Nat) (target : Handle) : List Listener → Engine → Engine → Prop
  | nil {e : Engine} : Served n target [] e e
  | cons {l : Listener} {ls : List Listener} {e e₁ e' : Engine} {j : List Diagnostic}
    (h : invoke n l.site l.handler .callable { e with focus := some target } = .done () e₁ j)
    (hrest : Served n target ls { e₁ with focus := e.focus } e') :
    Served n target (l :: ls) e e'

/-- What holds of all code holds of handlers that run one after the other. -/
theorem Served.keeps {R : Engine → Engine → Prop} (hR : Closed R) (h : Served n target ls e e') : R e e' := by
  induction h with
  | nil => exact hR.refl _
  | @cons l ls e e₁ e' j hrun _ ih =>
    have hkept := hR.invoke n l.site l.handler .callable { e with focus := some target }
    rw [hrun] at hkept
    exact hR.trans (hR.focus (some target) hkept) ih

/-- The handler of `l` is the next one, after those of `before`. -/
structure Reaches (n : Nat) (target : Handle) (ls : List Listener) (e : Engine) (before : List Listener) (l : Listener)
    (e₁ : Engine) : Prop where
  split : ∃ after, ls = before ++ l :: after
  served : Served n target before e e₁

theorem Reaches.first (l : Listener) (ls : List Listener) (e : Engine) : Reaches n target (l :: ls) e [] l e :=
  ⟨⟨ls, rfl⟩, .nil⟩

theorem Reaches.later {l' : Listener} {e₂ : Engine} {j : List Diagnostic}
    (h : invoke n l'.site l'.handler .callable { e with focus := some target } = .done () e₂ j)
    (hr : Reaches n target ls { e₂ with focus := e.focus } before l e₁) :
    Reaches n target (l' :: ls) e (l' :: before) l e₁ := by
  obtain ⟨after, rfl⟩ := hr.split
  exact ⟨⟨after, rfl⟩, .cons h hr.served⟩

/-- Handlers run up to the first that fails, whose fault is then dealt with, or that is too deep. -/
theorem deliver_cases (n : Nat) (target : Handle) (ls : List Listener) (e : Engine) :
    (∃ e' j, Served n target ls e e' ∧ deliver n target ls e = .done ls.length e' j) ∨
      (∃ before l e₁ fault e₂ e' j j₁ j₂, Reaches n target ls e before l e₁ ∧
        invoke n l.site l.handler .callable { e₁ with focus := some target } = .failed fault e₂ j ∧
        recover fault { e₂ with focus := e₁.focus } = .done () e' j₁ ∧
        deliver n target ls e = .done (before.length + 1) e' j₂) ∨
      ∃ before l e₁, Reaches n target ls e before l e₁ ∧
        invoke n l.site l.handler .callable { e₁ with focus := some target } = .tooDeep ∧
        deliver n target ls e = .tooDeep := by
  induction ls generalizing e with
  | nil => exact .inl ⟨e, [], .nil, rfl⟩
  | cons l ls ih =>
    have hfocus : withFocus target (invoke n l.site l.handler .callable) e =
        (invoke n l.site l.handler .callable { e with focus := some target }).mapEngine
          fun e₁ => { e₁ with focus := e.focus } := rfl
    unfold deliver
    cases hrun : invoke n l.site l.handler .callable { e with focus := some target } with
    | done _ e₁ j =>
      rw [hrun] at hfocus
      rw [attempt_of_done hfocus]
      rcases ih { e₁ with focus := e.focus } with
        ⟨e', j', hserved, hrest⟩ | ⟨before, l', e₂, fault, e₃, e', j', j₁, j₂, hr, hfails, hrec, hrest⟩ |
          ⟨before, l', e₂, hr, hdeep, hrest⟩
      · exact .inl ⟨e', _, .cons hrun hserved, congrArg (Outcome.after j) (bind_of_done hrest)⟩
      · exact .inr (.inl ⟨l :: before, l', e₂, fault, e₃, e', j', j₁, _, .later hrun hr, hfails, hrec,
          congrArg (Outcome.after j) (bind_of_done hrest)⟩)
      · exact .inr (.inr ⟨l :: before, l', e₂, .later hrun hr, hdeep,
          congrArg (Outcome.after j) (bind_of_tooDeep hrest)⟩)
    | failed fault e₁ j =>
      rw [hrun] at hfocus
      obtain ⟨e', j', -, hrec, -⟩ := recover_done fault { e₁ with focus := e.focus }
      rw [attempt_of_failed hfocus]
      exact .inr (.inl ⟨[], l, e, fault, e₁, e', j, j', _, .first l ls e, hrun, hrec,
        congrArg (Outcome.after j) (bind_of_done hrec)⟩)
    | tooDeep =>
      rw [hrun] at hfocus
      exact .inr (.inr ⟨[], l, e, .first l ls e, hrun, attempt_of_tooDeep hfocus⟩)

/-! ### The failure that ends a delivery -/

/-- Where the mounted node is not a live element, the error display is given up before anything is put there. -/
theorem showError_of_unmounted (hm : ¬e.Mounted) (r : Report) :
    ∃ fault t, showError r e = .failed fault { e with tree := t } [] ∧ t.innerMarkup e.mount = "" := by
  unfold showError
  rw [bind_of_done (x := get _) rfl, Outcome.after_nil]
  cases hn : e.tree.find? e.mount with
  | none =>
    have hclear : e.tree.clear e.mount = .error (.unknownNode e.mount.label) := by
      rw [Tree.clear, Tree.node, hn]
      rfl
    exact ⟨_, e.tree, bind_of_failed (onTree_of_error hclear), by rw [Tree.innerMarkup, hn]⟩
  | some n =>
    cases n with
    | element => exact absurd ⟨_, hn, rfl⟩ hm
    | text h content events =>
      -- A text can be emptied, which does nothing, but takes no attributes.
      obtain ⟨t, hclear⟩ : ∃ t, e.tree.clear e.mount = .ok t := ⟨_, Tree.clear_eq_ok_iff.mpr ⟨_, hn, rfl⟩⟩
      have hkept : t.find? e.mount = some (.text h content events) := by
        obtain ⟨_, -, rfl⟩ := Tree.clear_eq_ok_iff.mp hclear
        exact (Node.findAmong?_updateAmong_self (Node.handle_setChildren _) _).trans (congrArg (Option.map _) hn)
      have hstyle : t.setAttribute e.mount "style" "color: red" = .error (.textNode .attributes) := by
        rw [Tree.setAttribute, Tree.setAttributes, Tree.node, hkept]
        rfl
      have hnothing : t.innerMarkup e.mount = "" := by
        rw [Tree.innerMarkup, hkept]
        rfl
      rw [bind_of_done (onTree_of_ok hclear), Outcome.after_nil]
      exact ⟨_, t, bind_of_failed (onTree_of_error hstyle), hnothing⟩

/-- The report of a fault is kept in any case, and no listener. The mounted node shows the report if it is a live
element, and nothing otherwise. -/
theorem recover_reports (ht : e.tree.Sound) {fault : Fault} {j : List Diagnostic}
    (hr : recover fault e = .done () e' j) :
    e'.schedule.phase = .failed ∧ e'.report = some (.ofFault fault) ∧ e'.listeners = [] ∧
      (e.Mounted → e'.Failed (.ofFault fault)) ∧ (¬e.Mounted → e'.tree.innerMarkup e'.mount = "") := by
  by_cases hm : e.Mounted
  · obtain ⟨t, n, j', hrun, -, hn, hshows, -⟩ := recover_of_mounted ht hm fault
    cases hr.symm.trans hrun
    exact ⟨rfl, rfl, rfl, fun _ => .of_shows rfl rfl rfl rfl hn hshows, fun h => absurd hm h⟩
  · obtain ⟨shown, t, hshow, hempty⟩ := @showError_of_unmounted e.stopped hm (.ofFault fault)
    cases hr.symm.trans (recover_of_unshown hshow)
    exact ⟨rfl, rfl, rfl, fun h => absurd h hm, fun _ => hempty⟩

/-- A handler that fails leaves a sound tree, and the mounted node in its place. -/
theorem Reaches.failed {fault : Fault} {e₂ : Engine} {j : List Diagnostic} (he : e.AtRest)
    (hr : Reaches n target ls e before l e₁)
    (hf : invoke n l.site l.handler .callable { e₁ with focus := some target } = .failed fault e₂ j) :
    e₂.tree.Sound ∧ (e.Mounted → e₂.Mounted) := by
  have hsteady := stable_steady.closed.invoke n l.site l.handler .callable { e₁ with focus := some target }
  have hgrows := closed_grows.invoke n l.site l.handler .callable { e₁ with focus := some target }
  rw [hf] at hsteady hgrows
  refine ⟨hsteady.sound ((hr.served.keeps stable_steady.closed).sound he.sound), fun hm => ?_⟩
  have hready : e₁.Ready := ((⟨he, hm⟩ : e.Ready).grows (hr.served.keeps closed_grows)).ready
  have hstarted : ({ e₁ with focus := some target } : Engine).Ready := hready.of_eq rfl rfl rfl rfl
  exact (hstarted.grows hgrows).ready.mounted

/-- **Delivery of an event.** The listeners for it on the way from its target to the top are taken node by node, those
of one node in the order in which they were bound, and each of them once. Their handlers run in this order, with the
focus on the target. Either all of them run, and nothing of what the code runs in has changed; or they run up to one
that fails, which is the last one to run and to be counted, and its failure is reported, on the mounted node if that is
a live element; or they run up to one that is too deep. -/
theorem dispatch_delivers (he : e.Reachable) (n : Nat) (target : Handle) (event : String) :
    ∃ path ls, e.tree.Climbs target path ∧ path.Nodup ∧
      ls = (path.flatMap fun node => e.listeners.filter fun l => l.node = node ∧ l.event = event) ∧
      ls.Perm (e.listeners.filter fun l => l.node ∈ path ∧ l.event = event) ∧
      ((∃ e' j, Served n target ls e e' ∧ dispatch n target event e = .done ls.length e' j ∧
          e'.context = e.context ∧ e'.frames = e.frames ∧ e'.focus = e.focus ∧ e.listeners <+: e'.listeners) ∨
        (∃ before l after e₁ fault e₂ e' j j₁ j₂, ls = before ++ l :: after ∧ Served n target before e e₁ ∧
          invoke n l.site l.handler .callable { e₁ with focus := some target } = .failed fault e₂ j ∧
          recover fault { e₂ with focus := e₁.focus } = .done () e' j₁ ∧
          dispatch n target event e = .done (before.length + 1) e' j₂ ∧
          e'.schedule.phase = .failed ∧ e'.report = some (.ofFault fault) ∧ e'.listeners = [] ∧
          (e₂.Mounted → e'.Failed (.ofFault fault)) ∧ (¬e₂.Mounted → e'.tree.innerMarkup e'.mount = "") ∧
          (e.Mounted → e₂.Mounted)) ∨
        ∃ before l after e₁, ls = before ++ l :: after ∧ Served n target before e e₁ ∧
          invoke n l.site l.handler .callable { e₁ with focus := some target } = .tooDeep ∧
          dispatch n target event e = .tooDeep) := by
  have hclimbs := he.atRest.sound.climbs_lineage target
  refine ⟨_, _, hclimbs, hclimbs.nodup, rfl, listenersOn_perm hclimbs.nodup event e.listeners, ?_⟩
  rw [dispatch_eq]
  rcases deliver_cases n target (listenersOn (e.tree.lineage target) event e.listeners) e with
    ⟨e', j, hserved, hrun⟩ | ⟨before, l, e₁, fault, e₂, e', j, j₁, j₂, hreach, hfails, hrec, hrun⟩ |
      ⟨before, l, e₁, hreach, hdeep, hrun⟩
  · have hgrows := hserved.keeps closed_grows
    obtain ⟨more, hmore⟩ := hgrows.listeners
    exact .inl ⟨e', _, hserved, congrArg (Outcome.after _) hrun, hgrows.context, hgrows.frames, hgrows.focus,
      more, hmore.symm⟩
  · obtain ⟨hsound, hmounted⟩ := hreach.failed he.atRest hfails
    obtain ⟨hphase, hreport, hnone, hshown, hunshown⟩ := recover_reports hsound hrec
    obtain ⟨after, hsplit⟩ := hreach.split
    exact .inr (.inl ⟨before, l, after, e₁, fault, e₂, e', j, j₁, _, hsplit, hreach.served, hfails, hrec,
      congrArg (Outcome.after _) hrun, hphase, hreport, hnone, hshown, hunshown, hmounted⟩)
  · obtain ⟨after, hsplit⟩ := hreach.split
    exact .inr (.inr ⟨before, l, after, e₁, hsplit, hreach.served, hdeep, congrArg (Outcome.after _) hrun⟩)

/-- A list on which a click is handled twice, the first time by a handler that fails, with an item on which it is
handled as well. -/
def alarm : Program where
  sections := [
    ⟨mainLabel, true, [
      .container (.symbol "list") (.named "ul") [
        .single (.symbol "first") (.listen "click" "drop"),
        .single (.symbol "second") (.listen "click" "ring"),
        .container (.symbol "item") (.named "li") [.single (.symbol "click") (.listen "click" "ring")]]]⟩,
    ⟨"ring", false, [.single (.symbol "again") .render]⟩,
    ⟨"drop", false, [.single (.symbol "none") .pop]⟩]

/-- How many handlers an event started, what is reported after it, and what is then on the mounted node. -/
structure Effect where
  started : Nat
  report : Option String
  marked : Option String
  contents : String
deriving DecidableEq

def clicked (target : Handle) (e : Engine) : Option Effect :=
  match dispatch 4 target "click" e with
  | .done started e' _ =>
    some ⟨started, e'.report.map (·.kind), e'.tree.attribute? e'.mount "class", e'.tree.innerMarkup e'.mount⟩
  | _ => none

theorem exists_of_clicked {started : Nat} {kind : String} {marked : Option String} {contents : String}
    (h : clicked target e = some ⟨started, some kind, marked, contents⟩) :
    ∃ e' r j, dispatch 4 target "click" e = .done started e' j ∧ e'.report = some r ∧ r.kind = kind ∧
      e'.tree.attribute? e'.mount "class" = marked ∧ e'.tree.innerMarkup e'.mount = contents := by
  unfold clicked at h
  split at h
  · simp only [Option.some.injEq, Effect.mk.injEq, Option.map_eq_some_iff] at h
    obtain ⟨rfl, ⟨r, hr, hkind⟩, hmarked, hcontents⟩ := h
    exact ⟨_, r, _, ‹_›, hr, hkind, hmarked, hcontents⟩
  · cases h

/-- Of the three handlers the second one fails. -/
theorem dispatch_delivers_alarm :
    ∃ e, e.Reachable ∧ e.Mounted ∧ e.listeners.map (·.handler) = ["drop", "ring", "ring"] ∧
      ∃ e' r j, dispatch 4 ⟨2, 0⟩ "click" e = .done 2 e' j ∧ e'.Failed r ∧ r.kind = "StackUnderflowError" := by
  have hboot : ((Request.boot .root).run 4 ((Engine.new {}).loaded alarm)).engine?.map (fun e =>
      (e.listeners.map (·.handler), (e.tree.find? e.mount).map (·.isText),
        (listenersOn (e.tree.lineage ⟨2, 0⟩) "click" e.listeners).length, clicked ⟨2, 0⟩ e)) =
      some (["drop", "ring", "ring"], some false, 3,
        some ⟨2, some "StackUnderflowError", some errorClass, (Report.ofFault (.underflow .pop)).markup⟩) := by
    decide +kernel
  obtain ⟨e, hrun, hstate⟩ := Option.map_eq_some_iff.1 hboot
  simp only [Prod.mk.injEq, Option.map_eq_some_iff] at hstate
  obtain ⟨hhandlers, hmounted, hthree, hclicked⟩ := hstate
  have he : e.Reachable := (Engine.reachable_loaded {} alarm).request 4 (.boot .root) hrun
  obtain ⟨e', r, j, hdispatch, hreport, hkind, -⟩ := exists_of_clicked hclicked
  refine ⟨e, he, hmounted, hhandlers, e', r, j, hdispatch, ?_, hkind⟩
  obtain ⟨path, ls, hclimbs, -, hls, -, hcases⟩ := dispatch_delivers he 4 ⟨2, 0⟩ "click"
  obtain rfl := (he.atRest.sound.climbs_lineage _).unique hclimbs
  rw [hdispatch] at hcases
  simp only [Outcome.done.injEq, reduceCtorEq, and_false, exists_false, or_false] at hcases
  rcases hcases with
    ⟨_, _, -, ⟨hcount, -⟩, -⟩ |
      ⟨_, _, _, _, _, _, _, _, _, _, -, -, -, -, ⟨-, rfl, -⟩, -, hfault, -, hshown, -, hkept⟩
  · exact absurd ((hcount.trans (congrArg List.length hls)).trans hthree) (by decide)
  · cases hreport.symm.trans hfault
    exact hshown (hkept hmounted)

/-- The host mounts the program on an element of its own, takes the list out of it and releases the element. -/
def evicted : List Request :=
  [.load alarm, .edit (.createElement "section"), .boot ⟨1, 0⟩, .edit (.append .root ⟨2, 0⟩), .edit (.release ⟨1, 0⟩)]

/-- The list is still in the tree, and a click on its item is handled as before, but the failure is on display
nowhere. -/
theorem failure_of_released_mount_not_shown :
    ∃ e, e.Reachable ∧ e.tree.contains ⟨3, 0⟩ = true ∧
      ∃ e' r j, dispatch 4 ⟨3, 0⟩ "click" e = .done 2 e' j ∧ e'.report = some r ∧ ¬e'.Failed r ∧
        e'.tree.innerMarkup e'.mount = "" := by
  have hruns : (evicted.foldlM (fun e r => (Request.run 4 r e).engine?) (Engine.new {})).map (fun e =>
        (e.tree.contains ⟨3, 0⟩, clicked ⟨3, 0⟩ e)) =
      some (true, some ⟨2, some "StackUnderflowError", none, ""⟩) := by
    decide +kernel
  obtain ⟨e, hrun, hstate⟩ := Option.map_eq_some_iff.1 hruns
  simp only [Prod.mk.injEq] at hstate
  obtain ⟨hlive, hclicked⟩ := hstate
  have he : e.Reachable := (Engine.Reachable.new {}).requests 4 hrun
  obtain ⟨e', r, j, hdispatch, hreport, -, hmarked, hempty⟩ := exists_of_clicked hclicked
  refine ⟨e, he, hlive, e', r, j, hdispatch, hreport, fun hf => ?_, hempty⟩
  cases hmarked.symm.trans hf.hasClass

end Action
end Trellis
