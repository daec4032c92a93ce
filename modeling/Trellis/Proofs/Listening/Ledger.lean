import Trellis.Proofs.Engine.Settled
import Trellis.Proofs.Listening.Marks
import Trellis.Proofs.Scheduling.Turn

/-!
# Two registries of listeners

An engine keeps a list of its listeners, and every node of the tree keeps the events that listeners have been
registered for. A render starts both anew, but in different ways: the list is emptied, while the tree loses the nodes
that the mounted node holds, with what is recorded on them. The mounted node itself stays, and so do its events. Here
the marks of code are carried over to the requests of a host. They tell, between any two requests of a run, what the
list holds, which of its entries are on live nodes, and what is recorded on the mounted node and below it. From this it
is read off when a listener can be reached by its event, and when the two registries agree.
-/
namespace Trellis

open Tree (Handle Node)
open Action (renderPass invoke withFocus listenersOn deliver dispatch)

/-! ### The marks of a run -/

namespace Engine

/-- The marks of a render. The listeners of one that fails are discarded. -/
def renderMarks (n : Nat) (e : Engine) : List Mark :=
  match renderPass n e.started with
  | .done .. => callTrace (marks n) mainLabel .renderable (e.started.emptied e.blank)
  | _ => []

/-- A mount ends with a render, unless its `init` section fails. -/
def bootMarks (n : Nat) (target : Handle) (e : Engine) : List Mark :=
  if e.sections.contains initLabel then
    match invoke n rootSite initLabel .callable (Action.mounted target e) with
    | .done _ e' _ => e'.renderMarks n
    | _ => []
  else (Action.mounted target e).renderMarks n

/-- The marks when handlers have run, up to the first fault, by which all listeners are discarded. -/
def deliverMarks (n : Nat) (target : Handle) : List Listener → Engine → List Mark → List Mark
  | [], _, ms => ms
  | l :: ls, e, ms =>
    match withFocus target (invoke n l.site l.handler .callable) e with
    | .done _ e' _ =>
      deliverMarks n target ls e' (ms ++ callTrace (marks n) l.handler .callable { e with focus := some target })
    | _ => []

end Engine

/-- The marks since the last render began, once a request has been made. -/
def Request.marks (n : Nat) (e : Engine) (ms : List Mark) : Request → List Mark
  | .boot target => e.bootMarks n target
  | .render => e.renderMarks n
  | .poll => if e.isDue then (Action.disarmed e).renderMarks n else ms
  | .dispatch target event => Engine.deliverMarks n target (listenersOn (e.tree.lineage target) event e.listeners) e ms
  | _ => ms

/-- The requests with which a run can start: those that end with a render. -/
def Request.Renders (e : Engine) : Request → Prop
  | .boot target => ∃ m, e.tree.find? target = some m ∧ m.isText = false
  | .render => e.Mounted
  | .poll => e.Mounted ∧ e.isDue = true
  | _ => False

/-- The requests by which a host leaves the tree to the program: it neither edits it nor runs code by itself, and it
mounts programs on live elements only. -/
def Request.Orderly (e : Engine) : Request → Prop
  | .boot target => ∃ m, e.tree.find? target = some m ∧ m.isText = false
  | .edit _ | .execute _ | .container .. | .conditional .. | .perform .. | .value .. => False
  | _ => True

namespace Engine

/-- Runs that start with a render and then leave the tree to the program, with the marks since the last render
began. -/
inductive Listened (start : Engine) : Engine → List Mark → Prop
  | first {e : Engine} (n : Nat) (r : Request) (hs : r.Renders start) (hr : (r.run n start).engine? = some e) :
    Listened start e (r.marks n start [])
  | next {e e' : Engine} {ms : List Mark} (n : Nat) (r : Request) (h : Listened start e ms) (ho : r.Orderly e)
      (hr : (r.run n e).engine? = some e') : Listened start e' (r.marks n e ms)

/-- The list of listeners, and what is recorded on the mounted node and below it, are as the marks say. The element
of a lost listener has been released. -/
structure Ledger (e : Engine) (ms : List Mark) (m : Node) : Prop extends Ready e where
  rooted : e.tree.Rooted
  node : e.tree.find? e.mount = some m
  listeners : e.listeners = ms.filterMap Mark.listener?
  here : ∀ l, Mark.bound .here l ∈ ms → l.node = e.mount ∧ l.event ∈ m.events
  held : ∀ x event, (x, event) ∈ Node.recordedAll m.children ↔
    ∃ l, Mark.bound .held l ∈ ms ∧ l.node = x ∧ l.event = event
  lost : ∀ l, Mark.bound .lost l ∈ ms → ∃ k, 0 < k ∧ k ≤ ms.count .released ∧ e.tree.Latest (l.node.later k)

namespace Ledger

variable {e e' : Engine} {ms ms' : List Mark} {m : Node}

/-- Nothing listens yet, and nothing is recorded below the mounted node. -/
theorem nil (he : e.Ready) (hr : e.tree.Rooted) (hm : e.tree.find? e.mount = some m) (hl : e.listeners = [])
    (hs : Node.recordedAll m.children = []) : Ledger e [] m where
  toReady := he
  rooted := hr
  node := hm
  listeners := hl
  here _ hm := by cases hm
  held x event := by simp [hs]
  lost _ hm := by cases hm

theorem congr (he : Ledger e ms m) (hready : e'.Ready) (ha : Action.Aside e e') : Ledger e' ms m where
  toReady := hready
  rooted := ha.tree ▸ he.rooted
  node := by rw [ha.tree, ha.mount, he.node]
  listeners := ha.listeners.trans he.listeners
  here := by
    rw [ha.mount]
    exact he.here
  held := he.held
  lost := by
    rw [ha.tree]
    exact he.lost

/-- Code that writes to the mounted node adds its marks. -/
theorem attaches {ns : List Node} {es : List String} (he : Ledger e ms m) (hready : e'.Ready)
    (hmount : e'.mount = e.mount) (ha : Attaches e.mount ms' e e' ns es) :
    Ledger e' (ms ++ ms') (m.extend ns es) where
  toReady := hready
  rooted := (ha.grown.within he.rooted).rooted he.rooted
  node := by rw [hmount, ha.grown.find? he.node]
  listeners := by rw [ha.listeners, he.listeners, List.filterMap_append]
  here l hm := by
    rw [hmount, Node.mem_events_extend]
    rcases List.mem_append.1 hm with hm | hm
    · exact ⟨(he.here l hm).1, .inl (he.here l hm).2⟩
    · exact ⟨ha.here l hm, .inr ((ha.events l.event).2 ⟨l, hm, rfl⟩)⟩
  held x event := by
    obtain ⟨m', hm', hmt⟩ := he.mounted
    obtain rfl := Option.some.inj (he.node.symm.trans hm')
    rw [Node.children_extend hmt, Node.recordedAll_append, List.mem_append, he.held, ha.held, ← exists_or]
    simp only [List.mem_append, or_and_right]
  lost l hm := by
    rw [List.count_append]
    rcases List.mem_append.1 hm with hm | hm
    · obtain ⟨k, hpos, hle, hl⟩ := he.lost l hm
      obtain ⟨j, hj, hl'⟩ := ha.ages.latest _ hl
      exact ⟨k + j, by omega, by omega, by rwa [← Handle.later_later]⟩
    · obtain ⟨k, hpos, hle, hl⟩ := ha.lost he.rooted l hm
      exact ⟨k, hpos, by omega, hl⟩

end Ledger
end Engine

/-! ### Requests -/

namespace Action

open Engine (Ready Ledger callTrace marks renderMarks bootMarks deliverMarks)

variable {e : Engine} {ms : List Mark} {m : Node}

theorem invoke_ledger (he : Ledger e ms m) (n site : Nat) (label : String) (mode : Mode) :
    (invoke n site label mode e).Finishes fun e' => ∃ m', Ledger e' (ms ++ callTrace (marks n) label mode e) m' := by
  have hattaches := invoke_attaches he.writable n site label mode
  have hgrows := closed_grows.invoke n site label mode e
  cases hi : invoke n site label mode e with
  | done a e' j =>
    rw [hi] at hattaches hgrows
    obtain ⟨ns, es, ha⟩ := hattaches
    obtain ⟨hready, hmount, -⟩ := he.toReady.grows hgrows
    exact ⟨_, he.attaches hready hmount ha⟩
  | failed => trivial
  | tooDeep => trivial

/-- A failure discards all listeners. -/
theorem recover_ledger (he : e.Ready) (hr : e.tree.Rooted) (fault : Fault) :
    (recover fault e).Leaves fun e' => ∃ m, Ledger e' [] m := by
  have hends := recover_ends he fault
  obtain ⟨t, m, journal, hrun, -, hm, hshows, -⟩ := recover_of_mounted he.sound he.mounted fault
  rw [hrun] at hends ⊢
  exact ⟨m, .nil hends.settled.toReady (hends.inside.rooted hr) hm rfl hshows.silent⟩

theorem render_ledger (he : e.Ready) (hr : e.tree.Rooted) (n : Nat) :
    (render n e).Leaves fun e' => ∃ m, Ledger e' (e.renderMarks n) m := by
  have hends := render_ends he n
  unfold renderMarks
  rcases renderPass_cases he n with ⟨a, e', j, hi, hpass⟩ | ⟨fault, e', j, hpass, hstays, -⟩ | hpass
  · obtain ⟨hready, hw, m, hm, -, hc⟩ := he.emptied
    have hstart : Ledger (e.started.emptied e.blank) [] m :=
      .nil hready (hw.rooted hr) hm rfl (by rw [hc, Node.recordedAll_nil])
    have hmain := invoke_ledger hstart n Engine.rootSite mainLabel .renderable
    rw [hi] at hmain
    obtain ⟨m', hledger⟩ := hmain
    obtain ⟨clock, deadline, journal, hrun⟩ := render_of_done hpass
    rw [hrun] at hends ⊢
    rw [hpass]
    exact ⟨m', hledger.congr hends.settled.toReady ⟨rfl, rfl, rfl⟩⟩
  · obtain ⟨t, m, clock, deadline, journal, hrun, -, hm, hshows, -⟩ :=
      render_of_failed hpass hstays.ready.sound hstays.ready.mounted
    rw [hrun] at hends ⊢
    rw [hpass]
    exact ⟨m, .nil hends.settled.toReady (hends.inside.rooted hr) hm rfl hshows.silent⟩
  · rw [render_of_tooDeep hpass]
    trivial

theorem boot_ledger (n : Nat) {target : Handle} (he : e.AtRest) (hr : e.tree.Rooted)
    (ht : ∃ m, e.tree.find? target = some m ∧ m.isText = false) :
    (boot n target e).Leaves fun e' => ∃ m, Ledger e' (e.bootMarks n target) m := by
  have hready : (mounted target e).Ready := ⟨⟨he.sound, rfl, he.context⟩, ht⟩
  unfold bootMarks
  cases hi : e.sections.contains initLabel with
  | false =>
    rw [boot_without_init n target hi, Outcome.leaves_after]
    exact render_ledger hready hr n
  | true =>
    have hgrows := closed_grows.invoke n Engine.rootSite initLabel .callable (mounted target e)
    rw [boot_with_init n target hi, Outcome.leaves_after, if_pos rfl]
    cases hinit : invoke n Engine.rootSite initLabel .callable (mounted target e) with
    | done a e' j =>
      rw [hinit] at hgrows
      obtain ⟨he', -, hw⟩ := hready.grows hgrows
      rw [attempt_of_done hinit, Outcome.leaves_after]
      exact render_ledger he' (hw.rooted hr) n
    | failed fault e' j =>
      rw [hinit] at hgrows
      obtain ⟨he', -, hw⟩ := hready.grows hgrows
      rw [attempt_of_failed hinit, Outcome.leaves_after]
      exact recover_ledger he' (hw.rooted hr) fault
    | tooDeep =>
      rw [attempt_of_tooDeep hinit]
      trivial

theorem poll_ledger_of_due (he : e.Ready) (hr : e.tree.Rooted) (hd : e.isDue = true) (n : Nat) :
    (poll n e).Leaves fun e' => ∃ m, Ledger e' ((disarmed e).renderMarks n) m := by
  have hready : (disarmed e).Ready := ⟨⟨he.sound, he.frames, he.context⟩, he.mounted⟩
  rw [poll_of_due n hd]
  exact leaves_bind_pure (render_ledger hready hr n)

/-- Handlers run one after the other. Each goes on where the one before it has left the ledger. -/
theorem deliver_ledger (n : Nat) (target : Handle) (ls : List Listener) (he : Ledger e ms m) :
    (deliver n target ls e).Leaves fun e' => ∃ m', Ledger e' (deliverMarks n target ls e ms) m' := by
  induction ls generalizing e ms m with
  | nil => exact ⟨m, he⟩
  | cons l ls ih =>
    have hgrows := quiet_grows.withFocus target (closed_grows.invoke n l.site l.handler .callable) e
    have hhandler : (withFocus target (invoke n l.site l.handler .callable) e).Finishes fun e' =>
        ∃ m', Ledger e' (ms ++ callTrace (marks n) l.handler .callable { e with focus := some target }) m' := by
      have hfocus : Ledger { e with focus := some target } ms m :=
        he.congr ⟨⟨he.sound, he.frames, he.context⟩, he.mounted⟩ ⟨rfl, rfl, rfl⟩
      refine Outcome.finishes_mapEngine.2 ((invoke_ledger hfocus n l.site l.handler .callable).mono ?_)
      rintro e' ⟨m', he'⟩
      exact ⟨m', he'.congr ⟨⟨he'.sound, he'.frames, he'.context⟩, he'.mounted⟩ ⟨rfl, rfl, rfl⟩⟩
    unfold deliver deliverMarks
    cases hrun : withFocus target (invoke n l.site l.handler .callable) e with
    | done a e' j =>
      rw [hrun] at hhandler
      obtain ⟨m', he'⟩ := hhandler
      rw [attempt_of_done hrun, Outcome.leaves_after]
      exact leaves_bind_pure (ih he')
    | failed fault e' j =>
      rw [hrun] at hgrows
      obtain ⟨he', -, hw⟩ := he.toReady.grows hgrows
      rw [attempt_of_failed hrun, Outcome.leaves_after]
      exact leaves_bind_pure (recover_ledger he' (hw.rooted he.rooted) fault)
    | tooDeep =>
      rw [attempt_of_tooDeep hrun]
      trivial

end Action

namespace Engine

variable {start e e' : Engine} {ms : List Mark} {m : Node}

/-- What a run starts with leaves the registries as its marks say. -/
theorem AtRest.ledger {n : Nat} {r : Request} (he : e.AtRest) (hrooted : e.tree.Rooted) (hs : r.Renders e)
    (hr : (r.run n e).engine? = some e') : ∃ m, Ledger e' (r.marks n e []) m := by
  cases r with
  | boot target => exact (Action.boot_ledger n he hrooted hs).engine hr
  | render => exact (Action.render_ledger ⟨he, hs⟩ hrooted n).engine hr
  | poll =>
    rw [Request.marks, if_pos hs.2]
    exact (Action.leaves_bind_pure (Action.poll_ledger_of_due ⟨he, hs.1⟩ hrooted hs.2 n)).engine hr
  | _ => cases hs

/-- A request that touches neither the tree nor the listeners leaves the ledger as it is. -/
theorem Ledger.aside {n : Nat} {r : Request} (he : Ledger e ms m) (hr : (r.run n e).engine? = some e')
    (ha : Action.Keeps Action.Aside (r.run n)) : Ledger e' ms m := by
  have hsame := (ha e).engine hr
  have hrest := (Action.rests_request n r e).engine hr he.toAtRest
  refine he.congr ⟨hrest, ?_⟩ hsame
  rw [Mounted, hsame.tree, hsame.mount]
  exact he.mounted

theorem Ledger.request {n : Nat} {r : Request} (he : Ledger e ms m) (ho : r.Orderly e)
    (hr : (r.run n e).engine? = some e') : ∃ m', Ledger e' (r.marks n e ms) m' := by
  cases r with
  | boot target => exact (Action.boot_ledger n he.toAtRest he.rooted ho).engine hr
  | render => exact (Action.render_ledger he.toReady he.rooted n).engine hr
  | poll =>
    rw [Request.marks]
    cases hd : e.isDue with
    | true => exact (Action.leaves_bind_pure (Action.poll_ledger_of_due he.toReady he.rooted hd n)).engine hr
    | false =>
      have hearly : (Action.poll n e).Leaves fun e' => Ledger e' ms m := by
        rw [Action.poll_of_early n hd]
        exact he.congr ⟨⟨he.sound, he.frames, he.context⟩, he.mounted⟩ ⟨rfl, rfl, rfl⟩
      exact ⟨m, (Action.leaves_bind_pure hearly).engine hr⟩
  | dispatch target event =>
    have hdispatch : (dispatch n target event e).Leaves fun e' =>
        ∃ m', Ledger e' ((Request.dispatch target event).marks n e ms) m' := by
      rw [Action.dispatch_eq, Outcome.leaves_after]
      exact Action.deliver_ledger n target _ he
    exact (Action.leaves_bind_pure hdispatch).engine hr
  | load p =>
    exact ⟨m, he.aside hr (Action.quiet_aside.loadProgram (fun _ _ => ⟨rfl, rfl, rfl⟩) (fun _ _ => ⟨rfl, rfl, rfl⟩)
      (fun _ _ => ⟨rfl, rfl, rfl⟩) p)⟩
  | define d => exact ⟨m, he.aside hr (Action.quiet_aside.define (fun _ _ => ⟨rfl, rfl, rfl⟩) _)⟩
  | strings | constants | trust | advance | lapse | focus => exact ⟨m, he.aside hr fun _ => ⟨rfl, rfl, rfl⟩⟩
  | register key =>
    have hkey : Action.Keeps Action.Aside (Action.resolve key) := fun _ => ⟨rfl, rfl, rfl⟩
    exact ⟨m, he.aside hr (Action.quiet_aside.bind hkey fun _ => Action.quiet_aside.pure ())⟩
  | push site v => exact ⟨m, he.aside hr (Action.quiet_aside.inward.push site v)⟩
  | _ => cases ho

/-- Between any two requests of a run the registries are as the marks say. -/
theorem Listened.ledger (h : Listened start e ms) (hs : start.AtRest) (hr : start.tree.Rooted) :
    ∃ m, Ledger e ms m := by
  induction h with
  | first n r hrenders hrun => exact hs.ledger hr hrenders hrun
  | next n r _ ho hrun ih =>
    obtain ⟨m, he⟩ := ih
    exact he.request ho hrun

/-! ### Listeners that are heard -/

/-- The listener is on the mounted node or below it, and its event reaches its handler there: only handlers that were
bound to the same event on the same node run before it. -/
structure Hears (e : Engine) (l : Listener) : Prop where
  live : e.tree.contains l.node = true
  within : ∃ m, e.tree.find? e.mount = some m ∧ l.node ∈ m.handles
  runs : ∀ n, ∃ before after journal,
    dispatch n l.node l.event e = (deliver n l.node (before ++ l :: after) e).after journal ∧
      ∀ x ∈ before, x.node = l.node ∧ x.event = l.event

/-- An event on a node goes first to the listeners on that node. -/
theorem dispatch_of_mem {l : Listener} (hl : l ∈ e.listeners) (n : Nat) :
    ∃ before after journal,
      dispatch n l.node l.event e = (deliver n l.node (before ++ l :: after) e).after journal ∧
        ∀ x ∈ before, x.node = l.node ∧ x.event = l.event := by
  obtain ⟨above, habove⟩ := e.tree.exists_lineage_eq_cons l.node
  have hmatch : l ∈ e.listeners.filter fun x => x.node = l.node ∧ x.event = l.event :=
    List.mem_filter.2 ⟨hl, by simp⟩
  obtain ⟨before, after, hsplit⟩ := List.append_of_mem hmatch
  have hlist : listenersOn (e.tree.lineage l.node) l.event e.listeners =
      before ++ l :: (after ++ listenersOn above l.event e.listeners) := by
    rw [habove, listenersOn, List.flatMap_cons, hsplit, List.append_assoc, List.cons_append]
    rfl
  refine ⟨before, after ++ listenersOn above l.event e.listeners, _, by rw [Action.dispatch_eq, hlist], fun x hx => ?_⟩
  have hmem : x ∈ e.listeners.filter fun x => x.node = l.node ∧ x.event = l.event := by
    rw [hsplit]
    exact List.mem_append_left _ hx
  simpa using (List.mem_filter.1 hmem).2

namespace Ledger

theorem mem_listeners (he : Ledger e ms m) {l : Listener} :
    l ∈ e.listeners ↔ ∃ fate, Mark.bound fate l ∈ ms := by
  rw [he.listeners, List.mem_filterMap]
  constructor
  · rintro ⟨mark, hm, hl⟩
    cases mark with
    | bound fate l' =>
      cases hl
      exact ⟨fate, hm⟩
    | released => cases hl
  · rintro ⟨fate, hm⟩
    exact ⟨_, hm, rfl⟩

theorem mem_handles (he : Ledger e ms m) {x : Handle} :
    x ∈ m.handles ↔ x = e.mount ∨ x ∈ Node.handlesAll m.children := by
  rw [Node.handles_eq, List.mem_cons, Node.handle_of_findAmong? he.node]

theorem contains_of_mem (he : Ledger e ms m) {x : Handle} (hx : x ∈ m.handles) : e.tree.contains x = true :=
  Tree.contains_iff.2 ((Node.handles_sublist_of_findAmong? he.node).subset hx)

/-- A listener that is not lost is on the mounted node or below it. -/
theorem mem_handles_of_bound (he : Ledger e ms m) {fate : Fate} {l : Listener} (hm : Mark.bound fate l ∈ ms)
    (hf : fate ≠ .lost) : l.node ∈ m.handles := by
  rw [he.mem_handles]
  cases fate with
  | here => exact .inl (he.here l hm).1
  | held => exact .inr (Node.mem_handlesAll_of_recorded ((he.held l.node l.event).2 ⟨l, hm, rfl, rfl⟩))
  | lost => exact absurd rfl hf

/-- As long as no slot has been freed 2³² times since, no node has the handle of a lost listener. -/
theorem not_contains_of_lost (he : Ledger e ms m) (hk : ms.count .released < UInt32.size) {l : Listener}
    (hm : Mark.bound .lost l ∈ ms) : e.tree.contains l.node = false := by
  obtain ⟨k, hpos, hle, hlatest⟩ := he.lost l hm
  cases hc : e.tree.contains l.node with
  | false => rfl
  | true =>
    have hsame := he.sound.latest_unique hlatest (Tree.latest_iff.2 (.inl hc)) rfl
    exact absurd hsame (Handle.later_ne _ hpos (Nat.lt_of_le_of_lt hle hk))

end Ledger

/-- Between any two requests of a run, and so after every render, the listeners are those that have been bound since
the last render began. Each of them is heard, with the exception of those that were bound in a root container itself:
these are on an element that has been released. A run may start on any engine whose root stands at the top, and code
may release fewer than 2³² nodes between two renders, so that no handle comes back. -/
theorem listeners_heard_or_lost (hs : start.Reachable) (hr : start.tree.Rooted) (h : Listened start e ms)
    (hk : ms.count .released < UInt32.size) :
    e.listeners = ms.filterMap Mark.listener? ∧
      ∀ fate l, Mark.bound fate l ∈ ms →
        (fate ≠ .lost → e.Hears l) ∧ (fate = .lost → e.tree.contains l.node = false) := by
  obtain ⟨m, he⟩ := h.ledger hs.atRest hr
  refine ⟨he.listeners, fun fate l hm => ⟨fun hf => ?_, fun hf => ?_⟩⟩
  · have hin := he.mem_handles_of_bound hm hf
    exact ⟨he.contains_of_mem hin, ⟨m, he.node, hin⟩, dispatch_of_mem (he.mem_listeners.2 ⟨fate, hm⟩)⟩
  · subst hf
    exact he.not_contains_of_lost hk hm

/-- A program that binds listeners when it starts, in a root container, in a list and outside both. -/
def bells : Program where
  sections := [
    ⟨initLabel, false, [.single (.symbol "start") (.listen "start" "ring")]⟩,
    ⟨mainLabel, true, [
      .container (.symbol "pane") .root [.single (.symbol "over") (.listen "over" "ring")],
      .container (.symbol "list") (.named "ul") [.single (.symbol "click") (.listen "click" "ring")],
      .single (.symbol "key") (.listen "key" "ring")]⟩,
    ⟨"ring", false, []⟩]

/-- The engine into which it has been loaded. -/
def belfry : Engine := (new {}).loaded bells

def paneBell : Listener := ⟨3, ⟨1, 0⟩, "over", "ring"⟩
def listBell : Listener := ⟨5, ⟨1, 1⟩, "click", "ring"⟩
def mountBell : Listener := ⟨6, .root, "key", "ring"⟩

/-- Mounting it succeeds. The slot of the pane's element is that of the list. -/
theorem exists_boot_belfry :
    ∃ e, ((Request.boot .root).run 3 belfry).engine? = some e ∧ e.report = none ∧
      e.listeners = [paneBell, listBell, mountBell] ∧ e.tree.events e.mount = ["start", "key"] ∧
      e.listeners.map (fun l => e.tree.contains l.node) = [false, true, true] := by
  have hboot : ((Request.boot .root).run 3 belfry).engine?.map (fun e =>
      (e.report, e.listeners, e.tree.events e.mount, e.listeners.map fun l => e.tree.contains l.node)) =
        some (none, [paneBell, listBell, mountBell], ["start", "key"], [false, true, true]) := by decide +kernel
  obtain ⟨e, hrun, hstate⟩ := Option.map_eq_some_iff.1 hboot
  simp only [Prod.mk.injEq] at hstate
  exact ⟨e, hrun, hstate⟩

theorem bootMarks_belfry :
    belfry.bootMarks 3 .root = [.bound .lost paneBell, .released, .bound .held listBell, .bound .here mountBell] := by
  decide +kernel

theorem listeners_heard_or_lost_belfry :
    belfry.Reachable ∧ belfry.tree.Rooted ∧ ∃ e, Listened belfry e (belfry.bootMarks 3 .root) ∧
      e.tree.contains paneBell.node = false ∧ e.Hears listBell ∧ e.Hears mountBell := by
  have hreach : belfry.Reachable := reachable_loaded {} bells
  have hrooted : belfry.tree.Rooted := List.mem_singleton_self _
  obtain ⟨e, hrun, -⟩ := exists_boot_belfry
  have hrun' : Listened belfry e (belfry.bootMarks 3 .root) := .first 3 (.boot .root) ⟨_, rfl, rfl⟩ hrun
  have hall := (listeners_heard_or_lost hreach hrooted hrun' (by rw [bootMarks_belfry]; decide)).2
  rw [bootMarks_belfry] at hall
  refine ⟨hreach, hrooted, e, hrun', (hall .lost paneBell (by simp)).2 rfl, (hall .held listBell (by simp)).1 nofun, ?_⟩
  exact (hall .here mountBell (by simp)).1 nofun

/-- A render may succeed and leave a listener on a node that is gone. -/
theorem listener_of_pane_lost :
    ∃ e ms, belfry.Reachable ∧ Listened belfry e ms ∧ e.report = none ∧
      ∃ l ∈ e.listeners, e.tree.contains l.node = false := by
  obtain ⟨e, hrun, hreport, hlisteners, -, hlive⟩ := exists_boot_belfry
  rw [hlisteners] at hlive
  refine ⟨e, _, reachable_loaded {} bells, .first 3 (.boot .root) ⟨_, rfl, rfl⟩ hrun, hreport, paneBell, ?_, ?_⟩
  · rw [hlisteners]
    exact List.mem_cons_self
  · exact (List.cons.inj hlive).1

/-! ### Agreement -/

/-- The list has an entry for a node and an event. -/
def Listens (e : Engine) (x : Handle) (event : String) : Prop := ∃ l ∈ e.listeners, l.node = x ∧ l.event = event

/-- The events recorded on the live nodes are those with an entry in the list. -/
def Agree (e : Engine) : Prop :=
  ∀ x event, e.tree.contains x = true → (event ∈ e.tree.events x ↔ e.Listens x event)

namespace Ledger

theorem events_mount (he : Ledger e ms m) : e.tree.events e.mount = m.events := by
  rw [Tree.events, he.node]
  rfl

theorem mount_not_below (he : Ledger e ms m) : e.mount ∉ Node.handlesAll m.children := by
  have hd := (Node.handles_sublist_of_findAmong? he.node).nodup he.sound.nodup
  rw [Node.handles_eq, Node.handle_of_findAmong? he.node] at hd
  exact (List.nodup_cons.1 hd).1

/-- An entry for a live node comes from a listener that is not lost. -/
theorem exists_bound (he : Ledger e ms m) (hk : ms.count .released < UInt32.size) {x : Handle} {event : String}
    (hx : e.tree.contains x = true) (hlistens : e.Listens x event) :
    ∃ fate l, Mark.bound fate l ∈ ms ∧ fate ≠ .lost ∧ l.node = x ∧ l.event = event := by
  obtain ⟨l, hl, rfl, rfl⟩ := hlistens
  obtain ⟨fate, hm⟩ := he.mem_listeners.1 hl
  refine ⟨fate, l, hm, ?_, rfl, rfl⟩
  rintro rfl
  rw [he.not_contains_of_lost hk hm] at hx
  cases hx

/-- An entry for a node below the mounted node stands for an event recorded there, and the other way round. -/
theorem recorded_iff (he : Ledger e ms m) (hk : ms.count .released < UInt32.size) {x : Handle}
    (hx : x ∈ Node.handlesAll m.children) (event : String) : event ∈ e.tree.events x ↔ e.Listens x event := by
  rw [he.sound.mem_events_below_iff he.node hx, he.held]
  constructor
  · rintro ⟨l, hm, hl⟩
    exact ⟨l, he.mem_listeners.2 ⟨_, hm⟩, hl⟩
  · intro hlistens
    obtain ⟨fate, l, hm, hf, rfl, rfl⟩ := he.exists_bound hk (he.contains_of_mem (he.mem_handles.2 (.inr hx))) hlistens
    cases fate with
    | here => exact absurd ((he.here l hm).1 ▸ hx) he.mount_not_below
    | held => exact ⟨l, hm, rfl, rfl⟩
    | lost => exact absurd rfl hf

/-- An entry for the mounted node is that of a listener bound there, and its event is recorded. -/
theorem listens_mount (he : Ledger e ms m) (hk : ms.count .released < UInt32.size) {event : String} :
    e.Listens e.mount event ↔ ∃ l, Mark.bound .here l ∈ ms ∧ l.event = event := by
  constructor
  · intro hlistens
    obtain ⟨fate, l, hm, hf, hl, rfl⟩ := he.exists_bound hk (he.contains_of_mem (he.mem_handles.2 (.inl rfl))) hlistens
    cases fate with
    | here => exact ⟨l, hm, rfl⟩
    | held =>
      have hbelow := Node.mem_handlesAll_of_recorded ((he.held l.node l.event).2 ⟨l, hm, rfl, rfl⟩)
      exact absurd (hl ▸ hbelow) he.mount_not_below
    | lost => exact absurd rfl hf
  · rintro ⟨l, hm, rfl⟩
    exact ⟨l, he.mem_listeners.2 ⟨_, hm⟩, (he.here l hm).1, rfl⟩

/-- Every entry for a live node is recorded, on the mounted node or below it. -/
theorem recorded_of_listens (he : Ledger e ms m) (hk : ms.count .released < UInt32.size) {x : Handle}
    {event : String} (hx : e.tree.contains x = true) (hlistens : e.Listens x event) :
    x ∈ m.handles ∧ event ∈ e.tree.events x := by
  obtain ⟨fate, l, hm, hf, rfl, rfl⟩ := he.exists_bound hk hx hlistens
  have hin := he.mem_handles_of_bound hm hf
  refine ⟨hin, ?_⟩
  rcases he.mem_handles.1 hin with hmount | hbelow
  · rw [hmount] at hlistens ⊢
    obtain ⟨l', hm', he'⟩ := (he.listens_mount hk).1 hlistens
    rw [he.events_mount, ← he']
    exact (he.here l' hm').2
  · exact (he.recorded_iff hk hbelow _).2 hlistens

end Ledger

/-- Between any two requests of a run the registries agree below the mounted node, and whatever has an entry for a live
node is recorded there. They agree as a whole exactly if no event is recorded outside the mounted node and every event
recorded on the mounted node itself has been bound there since the last render began. -/
theorem registries_agree_iff (hs : start.Reachable) (hr : start.tree.Rooted) (h : Listened start e ms)
    (hk : ms.count .released < UInt32.size) :
    ∃ m, e.tree.find? e.mount = some m ∧
      (∀ x ∈ Node.handlesAll m.children, ∀ event, event ∈ e.tree.events x ↔ e.Listens x event) ∧
      (∀ x event, e.tree.contains x = true → e.Listens x event → event ∈ e.tree.events x) ∧
      (e.Agree ↔
        (∀ x event, event ∈ e.tree.events x → x ∈ m.handles) ∧
          ∀ event ∈ m.events, ∃ l, Mark.bound .here l ∈ ms ∧ l.event = event) := by
  obtain ⟨m, he⟩ := h.ledger hs.atRest hr
  refine ⟨m, he.node, fun x hx => he.recorded_iff hk hx, fun x event hx hlistens => ?_, fun ha => ⟨?_, ?_⟩, ?_⟩
  · exact (he.recorded_of_listens hk hx hlistens).2
  · intro x event hevent
    have hx := Tree.contains_of_mem_events hevent
    exact (he.recorded_of_listens hk hx ((ha x event hx).1 hevent)).1
  · intro event hevent
    have hx := he.contains_of_mem (he.mem_handles.2 (.inl rfl))
    exact (he.listens_mount hk).1 ((ha e.mount event hx).1 (he.events_mount ▸ hevent))
  · rintro ⟨hwithin, hmount⟩ x event hx
    refine ⟨fun hevent => ?_, fun hlistens => (he.recorded_of_listens hk hx hlistens).2⟩
    rcases he.mem_handles.1 (hwithin x event hevent) with rfl | hbelow
    · exact (he.listens_mount hk).2 (hmount event (he.events_mount ▸ hevent))
    · exact (he.recorded_iff hk hbelow event).1 hevent

theorem registries_agree_iff_belfry :
    belfry.Reachable ∧ belfry.tree.Rooted ∧ ∃ e, Listened belfry e (belfry.bootMarks 3 .root) ∧
      "click" ∈ e.tree.events listBell.node ∧ ¬ e.Agree := by
  have hreach : belfry.Reachable := reachable_loaded {} bells
  have hrooted : belfry.tree.Rooted := List.mem_singleton_self _
  obtain ⟨e, hrun, -, hlisteners, hevents, hlive⟩ := exists_boot_belfry
  rw [hlisteners] at hlive
  have hlist : e.tree.contains listBell.node = true := (List.cons.inj (List.cons.inj hlive).2).1
  have hrun' : Listened belfry e (belfry.bootMarks 3 .root) := .first 3 (.boot .root) ⟨_, rfl, rfl⟩ hrun
  obtain ⟨m, hm, -, hlisted, hagree⟩ :=
    registries_agree_iff hreach hrooted hrun' (by rw [bootMarks_belfry]; decide)
  refine ⟨hreach, hrooted, e, hrun', hlisted _ _ hlist ⟨listBell, by simp [hlisteners], rfl, rfl⟩, fun ha => ?_⟩
  have hstart : "start" ∈ m.events := by
    rw [Tree.events, hm, Option.map_some, Option.getD_some] at hevents
    rw [hevents]
    exact List.mem_cons_self
  obtain ⟨l, hl, hevent⟩ := (hagree.1 ha).2 "start" hstart
  rw [bootMarks_belfry] at hl
  obtain rfl : l = mountBell := by simpa using hl
  exact absurd hevent (by decide)

/-- The mounted node keeps the event of a listener that the render has discarded. -/
theorem stale_event_on_mount :
    ∃ e ms, belfry.Reachable ∧ Listened belfry e ms ∧ e.report = none ∧ e.tree.contains e.mount = true ∧
      "start" ∈ e.tree.events e.mount ∧ ¬ e.Listens e.mount "start" := by
  obtain ⟨e, hrun, hreport, hlisteners, hevents, -⟩ := exists_boot_belfry
  have hstart : "start" ∈ e.tree.events e.mount := by
    rw [hevents]
    exact List.mem_cons_self
  have hnone : ∀ l ∈ [paneBell, listBell, mountBell], l.event ≠ "start" := by decide
  refine ⟨e, _, reachable_loaded {} bells, .first 3 (.boot .root) ⟨_, rfl, rfl⟩ hrun, hreport,
    Tree.contains_of_mem_events hstart, hstart, ?_⟩
  rintro ⟨l, hl, -, hevent⟩
  exact hnone l (hlisteners ▸ hl) hevent

end Engine
end Trellis
