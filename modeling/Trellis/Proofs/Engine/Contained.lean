import Trellis.Proofs.Engine.Settled
import Trellis.Proofs.Scheduling.Turn

/-!
# Runs leave no nodes behind

Containers are built outside the tree that is shown, raw values are parsed before it is known what they hold, and a
failure may strike while all of this lies around. Whatever a request makes of it, it changes the tree only inside
the mounted node. So after any number of renders, events and failures the live nodes are those that stood outside
that node when the run began, and what the node holds now.

There is one way for a node to stay behind: one that is given the handle of the root cannot be released. For that the
host has to have put the root below another node and had it freed with it, and the slot has to have been freed until
its generations have gone round. The root then stands at the top again, where it did not stand before.
-/
namespace Trellis

open Tree (Handle Node)

namespace Action

open Engine (Stays)

variable {e : Engine}

theorem dispatch_stays (n : Nat) (target : Handle) (event : String) (he : e.Ready) :
    (dispatch n target event e).Leaves (Stays e.mount e) := by
  rw [dispatch_eq, Outcome.leaves_after]
  exact deliver_leaves (P := fun e => Stays e.mount e) (fun _ he => he.stays)
    (fun he hg h => (he.grows hg).trans he.found h) (fun he hg h => (he.grows hg).trans he.found h.toStays)
    n target _ he

theorem poll_stays (n : Nat) (he : e.Ready) : (poll n e).Leaves (Stays e.mount e) := by
  cases hd : e.isDue with
  | true =>
    have hstart : Stays e.mount e (disarmed e) := he.stays.of_eq rfl rfl rfl rfl
    rw [poll_of_due n hd]
    exact leaves_bind_pure ((render_ends hstart.ready n).mono fun _ h => hstart.trans he.found h.toStays)
  | false =>
    rw [poll_of_early n hd]
    exact he.stays.of_eq rfl rfl rfl rfl

end Action

/-- A request that leaves the tree to the program on a certain node, which is a live element. -/
def Request.LeavesTo (m : Handle) (e : Engine) : Request → Prop
  | .edit _ => False
  | .boot target => target = m ∧ ∃ n, e.tree.find? m = some n ∧ n.isText = false
  | _ => e.mount = m ∧ e.Mounted

namespace Engine

variable {m : Handle} {start e e' : Engine}

/-- Such a request changes the tree only inside the node. -/
theorem AtRest.request {n : Nat} {r : Request} (he : e.AtRest) (hw : r.LeavesTo m e)
    (hr : (r.run n e).engine? = some e') : Stays m e e' ∧ ∃ n, e.tree.find? m = some n := by
  have hcode := Action.closed_grows.execute n
  -- apart from mounting, the node is the one on which the program is mounted already
  have hready : e.mount = m ∧ e.Mounted → (e.Ready → Stays e.mount e e') →
      Stays m e e' ∧ ∃ n, e.tree.find? m = some n := by
    rintro ⟨rfl, hm⟩ h
    exact ⟨h ⟨he, hm⟩, hm.imp fun _ h => h.1⟩
  have hprepares (hp : r.Prepares) (hm : e.mount = m ∧ e.Mounted) : Stays m e e' ∧ ∃ n, e.tree.find? m = some n := by
    obtain ⟨e₁, journal, hrun, hsame⟩ := hp.run n e
    rw [hrun] at hr
    cases hr
    exact hready hm fun h => h.stays.of_eq hsame.tree hsame.mount hsame.frames hsame.context
  have hgrows : ∀ {x : Action Unit}, Action.Keeps Action.Grows x → (x e).engine? = some e' → e.Ready →
      Stays e.mount e e' := fun hx h hready => hready.grows ((hx e).engine h)
  cases r with
  | edit => cases hw
  | boot target =>
    obtain ⟨rfl, ht⟩ := hw
    exact ⟨((Action.boot_ends n he ht).engine hr).toStays, ht.imp fun _ h => h.1⟩
  | load | define | strings | constants | trust | advance | lapse | register => exact hprepares trivial hw
  | focus =>
    cases hr
    exact hready hw fun h => h.stays.of_eq rfl rfl rfl rfl
  | render => exact hready hw fun h => ((Action.render_ends h n).engine hr).toStays
  | poll => exact hready hw fun h => (Action.leaves_bind_pure (Action.poll_stays n h)).engine hr
  | dispatch target event =>
    exact hready hw fun h => (Action.leaves_bind_pure (Action.dispatch_stays n target event h)).engine hr
  | execute code => exact hready hw (hgrows (hcode code) hr)
  | container site enclosure code =>
    exact hready hw (hgrows (Action.closed_grows.container site enclosure (hcode code)) hr)
  | conditional site code => exact hready hw (hgrows (Action.closed_grows.conditional site (hcode code)) hr)
  | perform site operation => exact hready hw (hgrows (Action.closed_grows.perform hcode site operation) hr)
  | push site v => exact hready hw (hgrows (Action.quiet_grows.inward.push site v) hr)
  | value site raw content => exact hready hw (hgrows (Action.closed_grows.value site raw content) hr)

/-- Runs of requests that all leave the tree to the program on one node. -/
inductive Lodged (m : Handle) (start : Engine) : Engine → Prop
  | first {e : Engine} (n : Nat) (r : Request) (hw : r.LeavesTo m start) (hr : (r.run n start).engine? = some e) :
    Lodged m start e
  | next {e e' : Engine} (n : Nat) (r : Request) (h : Lodged m start e) (hw : r.LeavesTo m e)
      (hr : (r.run n e).engine? = some e') : Lodged m start e'

theorem Lodged.stays (h : Lodged m start e) (hs : start.AtRest) :
    Stays m start e ∧ ∃ n, start.tree.find? m = some n := by
  induction h with
  | first n r hw hr => exact hs.request hw hr
  | next n r _ hw hr ih =>
    obtain ⟨hstays, hfound⟩ := ih
    obtain ⟨hnext, -⟩ := hstays.ready.toAtRest.request hw hr
    exact ⟨hstays.trans hfound (hstays.mount ▸ hnext), hfound⟩

/-- Whatever is mounted, rendered, polled, delivered, invoked or executed, and however often it fails: what is live in
the end stood outside the mounted node in the beginning, or stands below the mounted node. The only exception is a new
node that has been given the handle of the root, which did not stand at the top in the beginning, and what it holds. -/
theorem lodged_leaks_nothing (hs : start.Reachable) (h : Lodged m start e) (x : Handle)
    (hx : e.tree.contains x = true) :
    (start.tree.contains x = true ∧ ¬ start.tree.Below m x) ∨ e.tree.Below m x ∨
      (¬ start.tree.Rooted ∧ e.tree.Rooted ∧ (x = .root ∨ e.tree.Below .root x)) := by
  obtain ⟨hstays, n, hn⟩ := h.stays hs.atRest
  exact hstays.inside.outside_or_below hs.atRest.sound hn hx

theorem Reachable.edits (he : e.Reachable) (xs : List Tree.Edit) :
    ({ e with tree := e.tree.edits xs } : Engine).Reachable := by
  induction xs generalizing e with
  | nil => exact he
  | cons x xs ih => exact ih (he.request 0 (.edit x) rfl)

/-- An element below the root, and another one beside the root, before a program that fails is mounted. -/
def lodging : Engine :=
  { halted with tree := halted.tree.edits [.createElement "main", .append .root ⟨1, 0⟩, .createElement "aside"] }

/-- The program has failed twice on the first element. Of its output nothing is left: next to the three nodes that were
there before, there are only the four of the error display. -/
theorem lodged_leaks_nothing_lodging :
    lodging.Reachable ∧ ∃ e, Lodged ⟨1, 0⟩ lodging e ∧ e.tree.size = 7 ∧
      ∀ x, e.tree.contains x = true →
        (lodging.tree.contains x = true ∧ ¬ lodging.tree.Below ⟨1, 0⟩ x) ∨ e.tree.Below ⟨1, 0⟩ x := by
  have hhalted : halted.Reachable := .request 0 (.define halting) (.new {}) rfl
  have hreach : lodging.Reachable := hhalted.edits _
  have hrooted : Handle.root ∈ lodging.tree.nodes.map Node.handle := by decide +kernel
  have hlive : (lodging.tree.find? ⟨1, 0⟩).map Node.isText = some false := by decide +kernel
  have hrun : (((Request.boot ⟨1, 0⟩).run 2 lodging).engine?.bind fun e =>
      (Request.render.run 2 e).engine?.map (·.tree.size)) = some 7 := by decide +kernel
  obtain ⟨e₁, hboot, hrender⟩ := Option.bind_eq_some_iff.1 hrun
  obtain ⟨e, hrender, hsize⟩ := Option.map_eq_some_iff.1 hrender
  have hmounts : (Request.boot ⟨1, 0⟩).LeavesTo ⟨1, 0⟩ lodging := ⟨rfl, Option.map_eq_some_iff.1 hlive⟩
  obtain ⟨hstays, -⟩ := hreach.atRest.request hmounts hboot
  have hlodged : Lodged ⟨1, 0⟩ lodging e :=
    .next 2 .render (.first 2 (.boot ⟨1, 0⟩) hmounts hboot) ⟨hstays.mount, hstays.ready.mounted⟩ hrender
  refine ⟨hreach, e, hlodged, hsize, fun x hx => ?_⟩
  rcases lodged_leaks_nothing hreach hlodged x hx with houtside | hbelow | hagain
  · exact .inl houtside
  · exact .inr hbelow
  · exact absurd hrooted hagain.1

end Engine

/-! ### The node that stays behind -/

namespace Tree

/-- A paragraph alone in a tree whose next node gets the slot of the root, in some generation. -/
def rootless (generation : UInt32) : Tree := ⟨[.element ⟨1, 0⟩ "p" [] [] []], ⟨[⟨0, generation⟩], 2⟩⟩

/-- The root is put below the paragraph and freed there. -/
theorem edits_new_rootless :
    new.edits [.createElement "p", .append ⟨1, 0⟩ .root, .clear ⟨1, 0⟩] = rootless 1 := by
  have htag : "p".toLower = "p" := by decide +kernel
  have hedits : new.edits [.createElement "p", .append ⟨1, 0⟩ .root, .clear ⟨1, 0⟩] =
      ⟨[.element ⟨1, 0⟩ "p".toLower [] [] []], ⟨[⟨0, 1⟩], 2⟩⟩ := rfl
  rw [hedits, htag, rootless]

/-- A node that is made there and released leaves the slot to the next generation. -/
theorem edits_rootless {generation : UInt32} (h : generation ≠ 0) :
    (rootless generation).edits [.createElement "p", .release ⟨0, generation⟩] = rootless (generation + 1) := by
  have hne : (⟨0, generation⟩ : Handle) ≠ .root := fun he => h (congrArg Handle.generation he)
  have hfind : ((rootless generation).createElement "p").2.find? ⟨0, generation⟩ =
      some (.element ⟨0, generation⟩ "p".toLower [] [] []) := by
    simp [createElement, rootless, Pool.take, find?, Node.findAmong?, Node.find?]
  change ((rootless generation).createElement "p").2.release ⟨0, generation⟩ = _
  rw [release, if_neg hne, hfind]
  simp [createElement, rootless, Pool.take, Pool.give, Node.removeAmong, Node.remove, Node.handle, Node.freeOrder,
    Node.freeOrderBack, Handle.next]

/-- The slot can have any generation but the first, and then the first again. -/
theorem exists_edits_rootless {k : Nat} (hk : k < UInt32.size) :
    ∃ xs, new.edits xs = rootless (.ofNat (k + 1)) := by
  induction k with
  | zero => exact ⟨_, edits_new_rootless⟩
  | succ k ih =>
    obtain ⟨xs, hxs⟩ := ih (by omega)
    have hne : UInt32.ofNat (k + 1) ≠ 0 := by
      intro h
      have hzero := congrArg UInt32.toNat h
      rw [UInt32.toNat_ofNat_of_lt' hk] at hzero
      cases hzero
    have hround := edits_rootless hne
    rw [← hxs, edits, edits, ← List.foldl_append] at hround
    exact ⟨_, hround.trans (by rw [UInt32.ofNat_add (k + 1) 1]; rfl)⟩

end Tree

namespace Engine

/-- A main section that is a root container and nothing else. -/
def hollow : Program where
  sections := [⟨mainLabel, true, [.container (.symbol "hull") .root []]⟩]

/-- The host has freed the root below a paragraph and used its slot until the generations have gone round. Mounted on
the paragraph, the program makes one element, which is given the handle of the root, and cannot release it. -/
theorem root_handle_stays_behind :
    ∃ start : Engine, start.Reachable ∧ start.tree.contains .root = false ∧
      ∃ e, Lodged ⟨1, 0⟩ start e ∧ e.tree.contains .root = true ∧ ¬ e.tree.Below ⟨1, 0⟩ .root := by
  obtain ⟨xs, hxs⟩ := @Tree.exists_edits_rootless (UInt32.size - 1) (by decide)
  have hreach : ({ Engine.new {} with tree := Tree.rootless 0 } : Engine).Reachable := by
    have hedited := (Reachable.new {}).edits xs
    rwa [show (Engine.new {}).tree = Tree.new from rfl, hxs] at hedited
  obtain ⟨journal, hload⟩ := Action.loadProgram_eq hollow { Engine.new {} with tree := Tree.rootless 0 }
  have hstart := hreach.request 0 (.load hollow) (congrArg Outcome.engine? hload)
  have hrun : (((Request.boot ⟨1, 0⟩).run 2
      (({ Engine.new {} with tree := Tree.rootless 0 } : Engine).loaded hollow)).engine?.map fun e =>
        (e.tree.contains .root, (e.tree.find? ⟨1, 0⟩).map fun n => Node.handlesAll n.children)) =
      some (true, some []) := by decide +kernel
  obtain ⟨e, hboot, hstate⟩ := Option.map_eq_some_iff.1 hrun
  obtain ⟨hlive, hempty⟩ := Prod.mk.inj hstate
  refine ⟨_, hstart, by decide +kernel, e, .first 2 (.boot ⟨1, 0⟩) ⟨rfl, _, rfl, rfl⟩ hboot, hlive, ?_⟩
  rintro ⟨n, hn, hbelow⟩
  rw [hn, Option.map_some, Option.some.injEq] at hempty
  rw [hempty] at hbelow
  cases hbelow

end Engine
end Trellis
