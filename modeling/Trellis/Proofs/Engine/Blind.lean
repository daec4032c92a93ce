import Trellis.Proofs.Engine.Growth
import Trellis.Proofs.Engine.Reachable
import Trellis.Proofs.Engine.Weave

/-!
# What code sees of the frames

Code looks at the innermost frame only, and of that frame it sees the target and whether the owner is renderable. On two
stacks of frames that agree in this it does the same, at any depth: the frames that it opens itself are the same on
both, and they hide what lies below. The number of frames is told and not used otherwise.

A conditional whose code is run opens a frame on the same target, owned by the section that is running. Where this
section is as renderable as the owner of the innermost frame, the new frame makes no difference.
-/
namespace Trellis

open Tree (Handle)

def Engine.reframed (e : Engine) (frames : Frames Handle) : Engine := { e with frames }

namespace Outcome

variable {α β : Type}

/-- The outcome without its diagnostics. -/
def withoutJournal : Outcome α → Outcome α
  | .done a e _ => .done a e []
  | .failed fault e _ => .failed fault e []
  | .tooDeep => .tooDeep

@[simp] theorem withoutJournal_after (o : Outcome α) (j : List Diagnostic) :
    (o.after j).withoutJournal = o.withoutJournal := by
  cases o <;> rfl

/-- Two outcomes are the same but for the frames and for what is told. -/
inductive Reframed (frames frames' : Frames Handle) : Outcome α → Outcome α → Prop
  | done {a : α} {e : Engine} (j j' : List Diagnostic) (h : e.frames = frames) :
    Reframed frames frames' (.done a e j) (.done a (e.reframed frames') j')
  | failed {fault : Fault} {e : Engine} (j j' : List Diagnostic) (h : e.frames = frames) :
    Reframed frames frames' (.failed fault e j) (.failed fault (e.reframed frames') j')
  | tooDeep : Reframed frames frames' .tooDeep .tooDeep

theorem Reframed.after {frames frames' : Frames Handle} {o o' : Outcome α} (h : o.Reframed frames frames' o')
    (j j' : List Diagnostic) : (o.after j).Reframed frames frames' (o'.after j') := by
  cases h with
  | done _ _ h => exact .done _ _ h
  | failed _ _ h => exact .failed _ _ h
  | tooDeep => exact .tooDeep

end Outcome

namespace Action

variable {α β : Type}

/-- The action does the same, and leaves the frames alone, whatever the frames are apart from what code can see. -/
def Blind (x : Action α) : Prop :=
  ∀ (e : Engine) (frames : Frames Handle), frames.outlook = e.frames.outlook →
    (x e).Reframed e.frames frames (x (e.reframed frames))

namespace Blind

theorem pure (a : α) : Blind (Pure.pure a : Action α) := fun _ _ _ => .done _ _ rfl

theorem fail (fault : Fault) : Blind (fail fault : Action α) := fun _ _ _ => .failed _ _ rfl

theorem get {g : Engine → α} (hg : ∀ e frames, g (Engine.reframed e frames) = g e) : Blind (get g) := by
  intro e frames _
  rw [Action.get, Action.get, hg]
  exact .done _ _ rfl

theorem modify {f : Engine → Engine} (hf : ∀ e frames, f (Engine.reframed e frames) = (f e).reframed frames)
    (hframes : ∀ e, (f e).frames = e.frames) : Blind (modify f) := by
  intro e frames _
  rw [Action.modify, Action.modify, hf]
  exact .done _ _ (hframes e)

theorem bind {x : Action α} {f : α → Action β} (hx : Blind x) (hf : ∀ a, Blind (f a)) : Blind (x >>= f) := by
  intro e frames hsame
  have hxe := hx e frames hsame
  cases hr : x e with
  | done a e₁ j =>
    rw [hr] at hxe
    generalize hr' : x (e.reframed frames) = o at hxe
    cases hxe with
    | done _ j' hframes =>
      rw [bind_of_done hr, bind_of_done hr', ← hframes]
      exact (hf a e₁ frames (by rw [hsame, hframes])).after j j'
  | failed fault e₁ j =>
    rw [hr] at hxe
    generalize hr' : x (e.reframed frames) = o at hxe
    cases hxe with
    | failed _ j' hframes =>
      rw [bind_of_failed hr, bind_of_failed hr']
      exact .failed j j' hframes
  | tooDeep =>
    rw [hr] at hxe
    generalize hr' : x (e.reframed frames) = o at hxe
    cases hxe with
    | tooDeep =>
      rw [bind_of_tooDeep hr, bind_of_tooDeep hr']
      exact .tooDeep

theorem onStack (f : Operands → Operands.Result α) : Blind (onStack f) := by
  intro e frames _
  have hstack : (e.reframed frames).stack = e.stack := rfl
  unfold Action.onStack
  rw [hstack]
  split
  · exact .done _ _ rfl
  · exact .failed _ _ rfl

theorem onTree (f : Tree → Except Tree.Fault Tree) : Blind (onTree f) := by
  intro e frames _
  have htree : (e.reframed frames).tree = e.tree := rfl
  unfold Action.onTree
  rw [htree]
  split
  · exact .done _ _ rfl
  · exact .failed _ _ rfl

theorem ofTree (f : Tree → Except Tree.Fault α) : Blind (ofTree f) := by
  intro e frames _
  have htree : (e.reframed frames).tree = e.tree := rfl
  unfold Action.ofTree
  rw [htree]
  split
  · exact .done _ _ rfl
  · exact .failed _ _ rfl

theorem rerender (site : Nat) : Blind (rerender site) := by
  intro e frames _
  obtain ⟨journal, hr⟩ := rerender_eq site e
  obtain ⟨journal', hr'⟩ := rerender_eq site (e.reframed frames)
  rw [hr, hr']
  exact .done _ _ rfl

theorem undo (node : Handle) {x : Action Unit} (hx : Blind x) :
    Blind (onFault (fun e => { e with tree := e.tree.release node }) x) := by
  intro e frames hsame
  have hxe := hx e frames hsame
  unfold onFault
  generalize x e = o at hxe ⊢
  generalize x (e.reframed frames) = o' at hxe ⊢
  cases hxe with
  | done j j' h => exact .done j j' h
  | failed j j' h => exact .failed j j' h
  | tooDeep => exact .tooDeep

theorem bracket {enter : Engine → Engine} {leave : Engine → Engine → Engine} {x : Action α} (hx : Blind x)
    (henter : ∀ e frames, enter (Engine.reframed e frames) = (enter e).reframed frames)
    (hleave : ∀ e e' frames, leave (Engine.reframed e frames) (Engine.reframed e' frames) =
      (leave e e').reframed frames)
    (hentered : ∀ e, (enter e).frames = e.frames) (hleft : ∀ e e', (leave e e').frames = e'.frames) :
    Blind (bracket enter leave x) := by
  intro e frames hsame
  have hxe := hx (enter e) frames (by rw [hsame, hentered])
  unfold Action.bracket
  rw [henter]
  generalize x (enter e) = o at hxe ⊢
  generalize x ((enter e).reframed frames) = o' at hxe ⊢
  cases hxe with
  | done j j' h =>
    rw [Outcome.mapEngine, Outcome.mapEngine, hleave]
    exact .done j j' (by rw [hleft, h, hentered])
  | failed j j' h =>
    rw [Outcome.mapEngine, Outcome.mapEngine, hleave]
    exact .failed j j' (by rw [hleft, h, hentered])
  | tooDeep => exact .tooDeep

/-- The outlook is the same by assumption. -/
theorem outlook : Blind (Action.get (·.frames.outlook)) := by
  intro e frames hsame
  have hseen : (e.reframed frames).frames.outlook = e.frames.outlook := hsame
  rw [Action.get, Action.get, hseen]
  exact .done _ _ rfl

/-- Both runs of the code see the new frame. -/
theorem inFrame (frame : Frame Handle) {body : Action Unit} (hb : Blind body) : Blind (inFrame frame body) := by
  intro e frames _
  have hbe := hb (e.reframed (frame :: e.frames)) (frame :: frames) rfl
  change ((body (e.reframed (frame :: e.frames))).mapEngine _).Reframed e.frames frames
    ((body ((e.reframed (frame :: e.frames)).reframed (frame :: frames))).mapEngine _)
  generalize body (e.reframed (frame :: e.frames)) = o at hbe ⊢
  generalize body ((e.reframed (frame :: e.frames)).reframed (frame :: frames)) = o' at hbe ⊢
  cases hbe with
  | done j j' h => exact .done j j' (congrArg List.tail h)
  | failed j j' h => exact .failed j j' (congrArg List.tail h)
  | tooDeep => exact .tooDeep

theorem woven : Woven @Blind where
  pure := .pure
  bind := .bind
  get hg := .get fun e frames => hg e e.config e.stack frames
  log _ _ _ _ := .done _ _ rfl
  tell _ _ _ _ _ _ := .done _ _ rfl
  raise _ := .fail _
  onStack _ := .onStack _
  fail _ _ := .fail _
  outlook := .outlook
  ofTree := .ofTree
  miss _ := .fail _
  withContext _ _ hb := hb.bracket (fun _ _ => rfl) (fun _ _ _ => rfl) (fun _ => rfl) fun _ _ => rfl
  rerender := .rerender
  make _ _ _ _ := .done _ _ rfl
  place _ := .onTree _
  setText _ _ := .onTree _
  release _ := .modify (fun _ _ => rfl) fun _ => rfl
  undo node _ hx := hx.undo node
  inFrame := .inFrame
  withFocus _ _ hb := hb.bracket (fun _ _ => rfl) (fun _ _ _ => rfl) (fun _ => rfl) fun _ _ => rfl
  listener _ := .modify (fun _ _ => rfl) fun _ => rfl
  resolve _ _ _ _ := .done _ _ rfl

theorem execute (n : Nat) (code : List Instruction) : Blind (execute n code) :=
  (woven.hereditary fun _ _ _ => .tooDeep).execute n code

end Blind

/-- Code in a frame that cannot be told from the one around it does what it does without that frame. -/
theorem Blind.withoutJournal_inFrame {body : Action Unit} (hb : Blind body) {e : Engine} {frame : Frame Handle}
    (hsame : Frames.outlook (frame :: e.frames) = e.frames.outlook) :
    (Action.inFrame frame body e).withoutJournal = (body e).withoutJournal := by
  have hbe := hb e (frame :: e.frames) hsame
  change ((body (e.reframed (frame :: e.frames))).mapEngine _).withoutJournal = _
  generalize body e = o at hbe ⊢
  generalize body (e.reframed (frame :: e.frames)) = o' at hbe ⊢
  cases hbe with
  | @done a e₁ j j' h =>
    have hback : { e₁ with frames := e.frames } = e₁ := by rw [← h]
    exact congrArg (Outcome.done a · []) hback
  | @failed fault e₁ j j' h =>
    have hback : { e₁ with frames := e.frames } = e₁ := by rw [← h]
    exact congrArg (Outcome.failed fault · []) hback
  | tooDeep => rfl

/-- Where the section that is running is as renderable as the owner of the innermost frame, a conditional whose value is
true does what its code does after the value has been taken off the stack. The two end alike, with a value or with a
fault, and leave the same engine; only what they tell differs. -/
theorem conditional_transparent {e : Engine} {v : Value} {stack : Operands} (hs : e.stack = v :: stack)
    (hv : v.isTrue = true)
    (howner : e.frames.head?.map (·.owner.renderable) = some e.context.code.renderable) (n site : Nat)
    (code : List Instruction) :
    (conditional site (execute n code) e).withoutJournal =
      ((pop site >>= fun _ => execute n code) e).withoutJournal := by
  obtain ⟨frame, hframe, howner⟩ := Option.map_eq_some_iff.mp howner
  obtain ⟨j, hpop⟩ := pop_of_cons hs site
  obtain ⟨j', hrun⟩ := conditional_eq site (execute n code) (e := e) (h := frame.target) (by rw [hframe]; rfl)
  have hsame : Frames.outlook (⟨site, e.context.code, frame.target, .conditional⟩ :: e.frames) = e.frames.outlook := by
    rw [Frames.outlook, Frames.outlook, hframe, Option.map_some, Frame.outlook, howner]
    rfl
  have hbody := (Blind.execute n code).withoutJournal_inFrame (e := { e with stack }) hsame
  rw [bind_of_done hpop, Outcome.withoutJournal_after, ← hbody, hrun, Outcome.withoutJournal_after, hs]
  dsimp only
  rw [if_pos hv]
  rfl

/-- An engine whose next conditional runs its code. -/
def primed : Engine := { Engine.new {} with stack := [.number .one] }

/-- Code that makes an element and then fails. -/
def faltering : List Instruction :=
  [.single (.symbol "item") (.element "li"), .single (.symbol "next") (.call "missing" .renderable)]

theorem conditional_transparent_primed :
    primed.stack = [.number .one] ∧ (Value.number .one).isTrue = true ∧
      primed.frames.head?.map (·.owner.renderable) = some primed.context.code.renderable ∧
      (conditional 0 (execute 1 faltering) primed).engine?.map (fun e => e.tree.innerMarkup e.mount) =
        some "<li x-id=\"elem-item\"></li>" ∧
      (conditional 0 (execute 1 faltering) primed).withoutJournal =
        ((pop 0 >>= fun _ => execute 1 faltering) primed).withoutJournal := by
  have htrue : (Value.number .one).isTrue = true := by decide +kernel
  exact ⟨rfl, htrue, rfl, by decide +kernel, conditional_transparent rfl htrue rfl 1 0 faltering⟩

end Action
end Trellis
