import Trellis.Engine.Host
import Trellis.Proofs.Operand.Primitive

/-!
# How instructions are woven

Every instruction is made of a few threads: it works on the operand stack, edits the tree, reads what is common to all
code, tells what it does, and runs code inside a frame, a focus or a context of its own. This is the one place where
instructions are taken apart. A property of actions that holds of the threads and is kept when actions follow each
other holds of every instruction that is made of them. Not every property holds of all threads, so these come in groups,
each with the instructions that need no others:

* `Operative`: the operand stack, and with it the instructions that only move operands;
* `Seeing`: the innermost frame and the tree, as far as code looks at them;
* `Inward`: look-ups, contexts and requests for re-renders, and with them all instructions that make no output;
* `Additive`: what puts nodes into the tree and takes none out;
* `Writing`: all output;
* `Threaded`: all instructions, once their sites are registered;
* `Woven`: the registration of sites as well.

A property of actions that each instruction has if the code inside it has it, a hereditary one, belongs to code of any
length and depth. Facts about all runs of code are proved by showing that a property is woven or hereditary.
-/
namespace Trellis

open Tree (Handle)

/-! ### Faults, diagnostics and edits by kind -/

namespace Fault

/-- The fault of a render pass that has been asked for too many re-renders. -/
def isStorm : Fault → Bool
  | .storm _ => true
  | _ => false

/-- The fault of looking up what a program does not define. -/
def isLookup : Fault → Bool
  | .undefinedSection _ | .undefinedString _ | .undefinedConstant _ => true
  | _ => false

theorem IsOperand.isStorm {fault : Fault} (h : fault.IsOperand) : fault.isStorm = false := by
  cases fault with
  | storm => cases h
  | _ => rfl

theorem IsOperand.isLookup {fault : Fault} (h : fault.IsOperand) : fault.isLookup = false := by
  cases fault with
  | undefinedSection | undefinedString | undefinedConstant => cases h
  | _ => rfl

theorem isStorm_of_isLookup {fault : Fault} (h : fault.isLookup = true) : fault.isStorm = false := by
  cases fault with
  | storm => cases h
  | _ => rfl

end Fault

theorem Sections.isLookup_of_find {t : Sections} {label : String} {fault : Fault} (h : t.find label = .error fault) :
    fault.isLookup = true := by
  unfold find at h
  split at h
  · cases h
  · cases h; rfl

theorem Resources.isLookup_of_string {r : Resources} {key : Int64} {fault : Fault} (h : r.string key = .error fault) :
    fault.isLookup = true := by
  unfold string at h
  split at h
  · cases h
  · cases h; rfl

theorem Resources.isLookup_of_constant {r : Resources} {key : Int64} {fault : Fault}
    (h : r.constant key = .error fault) : fault.isLookup = true := by
  unfold constant at h
  split at h
  · cases h
  · cases h; rfl

namespace Diagnostic

/-- It tells of a request that set the deadline. -/
def isDirect : Diagnostic → Bool
  | .rerender _ => true
  | _ => false

/-- It tells of a request that was counted. -/
def isCounted : Diagnostic → Bool
  | .rerenderCounted .. => true
  | _ => false

/-- It tells of a request for a re-render. -/
def isRequest (d : Diagnostic) : Bool := d.isDirect || d.isCounted

end Diagnostic

/-- The ways in which instructions make nodes. -/
inductive Tree.Maker : {α : Type} → (Tree → α × Tree) → Prop
  | createElement (tag : String) : Maker (·.createElement tag)
  | parse (source : String) : Maker (·.parse source)

/-- The ways in which instructions add to nodes. -/
inductive Tree.Placer : (Tree → Except Tree.Fault Tree) → Prop
  | append (parent child : Handle) : Placer (·.append parent child)
  | setAttribute (node : Handle) (name value : String) : Placer (·.setAttribute node name value)
  | addEvent (node : Handle) (event : String) : Placer (·.addEvent node event)

/-- An instruction that neither makes output nor binds a listener nor enters a section. -/
def Operation.isQuiet : Operation → Bool
  | .element _ | .value .. | .call .. | .listen .. => false
  | _ => true

/-- What code sees of a frame. -/
def Frame.outlook (frame : Frame Handle) : Handle × Bool := (frame.target, frame.owner.renderable)

/-- What code sees of the frames: the innermost one, and of that one no more than its outlook. -/
def Frames.outlook (frames : Frames Handle) : Option (Handle × Bool) := frames.head?.map Frame.outlook

/-- The engine after a request for a re-render. The request reads the clock and sets the deadline, or is counted if a
render pass is under way. -/
def Engine.asked (e : Engine) : Engine :=
  { e.timed with
    schedule :=
      if e.schedule.phase ≠ .rendering ∨ e.context.mode = .callable then
        { e.schedule.arm (e.timed.now + e.config.settle) with pending := true }
      else { e.schedule with storm := (e.schedule.storm.tick e.timed.now).record, pending := true } }

namespace Outcome

variable {α : Type}

@[simp] theorem after_nil (o : Outcome α) : o.after [] = o := by cases o <;> rfl

@[simp] theorem after_after (j j' : List Diagnostic) (o : Outcome α) :
    (o.after j').after j = o.after (j ++ j') := by
  cases o <;> simp [after]

end Outcome

namespace Action

variable {α β γ : Type}

/-! ### Running one action after another -/

theorem bind_of_done {x : Action α} {f : α → Action β} {e e' : Engine} {a : α}
    {journal : List Diagnostic} (h : x e = .done a e' journal) :
    (x >>= f) e = (f a e').after journal := by
  change Action.bind x f e = _
  rw [Action.bind, h]

theorem bind_of_failed {x : Action α} {f : α → Action β} {e e' : Engine} {fault : Fault}
    {journal : List Diagnostic} (h : x e = .failed fault e' journal) :
    (x >>= f) e = .failed fault e' journal := by
  change Action.bind x f e = _
  rw [Action.bind, h]

theorem bind_of_tooDeep {x : Action α} {f : α → Action β} {e : Engine} (h : x e = .tooDeep) :
    (x >>= f) e = .tooDeep := by
  change Action.bind x f e = _
  rw [Action.bind, h]

theorem bind_assoc (x : Action α) (f : α → Action β) (g : β → Action γ) :
    x >>= f >>= g = x >>= fun a => f a >>= g := by
  funext e
  cases hx : x e with
  | done a e' j =>
    rw [bind_of_done hx]
    cases hf : f a e' with
    | done b e'' j' =>
      have hxf : (x >>= f) e = .done b e'' (j ++ j') := by rw [bind_of_done hx, hf]; rfl
      rw [bind_of_done hxf, bind_of_done hf, Outcome.after_after]
    | failed fault e'' j' =>
      have hxf : (x >>= f) e = .failed fault e'' (j ++ j') := by rw [bind_of_done hx, hf]; rfl
      rw [bind_of_failed hxf, bind_of_failed hf]
      rfl
    | tooDeep =>
      have hxf : (x >>= f) e = .tooDeep := by rw [bind_of_done hx, hf]; rfl
      rw [bind_of_tooDeep hxf, bind_of_tooDeep hf]
      rfl
  | failed fault e' j => rw [bind_of_failed hx, bind_of_failed (bind_of_failed hx)]
  | tooDeep => rw [bind_of_tooDeep hx, bind_of_tooDeep (bind_of_tooDeep hx)]

/-- To look at an operand is an operation on the stack that leaves it alone. -/
theorem look_eq (offset : Nat) :
    (get (·.stack) >>= fun s => ofExcept (s.peek offset)) = onStack fun s => (s.peek offset, s) := by
  funext e
  rw [bind_of_done (x := get _) (e := e) rfl, Outcome.after_nil, onStack]
  cases e.stack.peek offset <;> rfl

/-- Outside a render pass, and in callable code, a request sets the deadline. -/
theorem rerender_of_direct {e : Engine} (site : Nat)
    (h : e.schedule.phase ≠ .rendering ∨ e.context.mode = .callable) :
    rerender site e = .done ()
      { e.timed with schedule := { e.schedule.arm (e.timed.now + e.config.settle) with pending := true } }
      (if e.config.trusted then [] else [.rerender (e.sites.label site)]) := by
  have hdirect : e.timed.schedule.phase ≠ .rendering ∨ e.timed.context.mode = .callable := h
  unfold rerender
  rw [bind_of_done (x := time) rfl, bind_of_done (x := get id) rfl]
  dsimp only [id]
  rw [if_pos hdirect]
  change Outcome.done () _ ([] ++ ([] ++ ([] ++ ([] ++ (_ ++ []))))) = _
  simp only [List.nil_append, List.append_nil]
  rfl

/-- In a render pass, outside callable code, a request is counted. -/
theorem rerender_of_counted {e : Engine} (site : Nat)
    (h : ¬(e.schedule.phase ≠ .rendering ∨ e.context.mode = .callable)) :
    rerender site e = .done ()
      { e.timed with
        schedule := { e.schedule with storm := (e.schedule.storm.tick e.timed.now).record, pending := true } }
      (if e.config.trusted then []
        else [.rerenderCounted (e.sites.label site) (e.schedule.storm.tick e.timed.now).record.requested
          (e.schedule.storm.tick e.timed.now).record.quota]) := by
  have hcounted : ¬(e.timed.schedule.phase ≠ .rendering ∨ e.timed.context.mode = .callable) := h
  unfold rerender
  rw [bind_of_done (x := time) rfl, bind_of_done (x := get id) rfl]
  dsimp only [id]
  rw [if_neg hcounted]
  change Outcome.done () _ ([] ++ ([] ++ ([] ++ ([] ++ (_ ++ []))))) = _
  simp only [List.nil_append, List.append_nil]
  rfl

theorem rerender_eq (site : Nat) (e : Engine) : ∃ journal, rerender site e = .done () e.asked journal := by
  unfold Engine.asked
  by_cases h : e.schedule.phase ≠ .rendering ∨ e.context.mode = .callable
  · rw [if_pos h]
    exact ⟨_, rerender_of_direct site h⟩
  · rw [if_neg h]
    exact ⟨_, rerender_of_counted site h⟩

/-! ### Threads -/

/-- What is read is the same whatever the configuration, the operands and the frames are. -/
def Common (g : Engine → α) : Prop := ∀ e config stack frames, g { e with config, stack, frames } = g e

/-- The property holds of what instructions do to the operand stack, of what they read and of what they tell, and is
kept when one action follows another. -/
structure Operative (P : ∀ {α : Type}, Action α → Prop) : Prop where
  pure : ∀ {α : Type} (a : α), P (Pure.pure a : Action α)
  bind : ∀ {α β : Type} {x : Action α} {f : α → Action β}, P x → (∀ a, P (f a)) → P (x >>= f)
  get : ∀ {α : Type} {g : Engine → α}, Common g → P (get g)
  log : ∀ {d : Diagnostic}, d.isRequest = false → P (log d)
  /-- Anything at all can be told. -/
  tell : ∀ {α : Type} (g : Engine → α) {d : α → Diagnostic}, (∀ a, (d a).isRequest = false) →
    P (Action.get g >>= fun a => Action.log (d a))
  raise : ∀ {α : Type} {fault : Fault}, fault.IsOperand → P (fail fault : Action α)
  onStack : ∀ {α : Type} {f : Operands → Operands.Result α}, Operands.Primitive f → P (onStack f)

/-- The property holds as well of looking at the innermost frame and at the tree. -/
structure Seeing (P : ∀ {α : Type}, Action α → Prop) : Prop extends Operative P where
  fail : ∀ {α : Type} {fault : Fault}, fault.isStorm = false → fault.isLookup = false → P (fail fault : Action α)
  outlook : P (Action.get (·.frames.outlook))
  ofTree : ∀ {α : Type} (f : Tree → Except Tree.Fault α), P (ofTree f)

/-- The property holds as well of look-ups, of code in a context of its own and of requests for re-renders. -/
structure Inward (P : ∀ {α : Type}, Action α → Prop) : Prop extends Seeing P where
  miss : ∀ {α : Type} {fault : Fault}, fault.isLookup = true → P (Action.fail fault : Action α)
  withContext : ∀ context {body : Action Unit}, P body → P (withContext context body)
  rerender : ∀ site, P (rerender site)

/-- The property holds as well of what puts nodes into the tree and takes none out. -/
structure Additive (P : ∀ {α : Type}, Action α → Prop) : Prop extends Seeing P where
  make : ∀ {α : Type} {f : Tree → α × Tree}, Tree.Maker f → P (make f)
  place : ∀ {f : Tree → Except Tree.Fault Tree}, Tree.Placer f → P (onTree f)

/-- The property holds of all that output is made of. -/
structure Writing (P : ∀ {α : Type}, Action α → Prop) : Prop extends Additive P where
  setText : ∀ node text, P (onTree (·.setText node text))
  release : ∀ nodes : List Handle, P (modify fun e => { e with tree := nodes.foldl Tree.release e.tree })
  undo : ∀ node {x : Action Unit}, P x → P (onFault (fun e => { e with tree := e.tree.release node }) x)
  inFrame : ∀ frame {body : Action Unit}, P body → P (inFrame frame body)
  withFocus : ∀ node {body : Action Unit}, P body → P (withFocus node body)

/-- The property holds of all that instructions are made of, once their sites are registered. -/
structure Threaded (P : ∀ {α : Type}, Action α → Prop) : Prop extends Writing P, Inward P where
  listener : ∀ l, P (modify fun e => { e with listeners := e.listeners ++ [l] })

/-- The property holds as well of the registration of sites. -/
structure Woven (P : ∀ {α : Type}, Action α → Prop) : Prop extends Threaded P where
  resolve : ∀ key, P (resolve key)

section

variable {P : ∀ {α : Type}, Action α → Prop}

/-! ### Operands -/

namespace Operative

theorem ite (_ : Operative P) {c : Prop} [Decidable c] {x y : Action α} (hx : P x) (hy : P y) :
    P (if c then x else y) := by
  split
  · exact hx
  · exact hy

theorem label (hP : Operative P) (site : Nat) : P (label site) := hP.get fun _ _ _ _ => rfl

theorem peek (hP : Operative P) (site offset : Nat) : P (peek site offset) := by
  unfold Action.peek
  rw [← bind_assoc, look_eq]
  apply hP.bind (hP.onStack (.peek offset))
  intro v
  exact hP.bind (hP.label site) fun _ => hP.bind (hP.log rfl) fun _ => hP.pure v

theorem pop (hP : Operative P) (site : Nat) : P (pop site) := by
  apply hP.bind (hP.onStack .pop)
  intro v
  exact hP.bind (hP.label site) fun _ => hP.bind (hP.log rfl) fun _ => hP.pure v

theorem push (hP : Operative P) (site : Nat) (v : Value) : P (push site v) := by
  apply hP.bind (hP.label site)
  intro name
  exact hP.bind (hP.log rfl) fun _ => hP.onStack (.push v)

/-- How many operands there are is told and not used otherwise. -/
theorem copy (hP : Operative P) (site : Nat) : P (copy site) := by
  apply hP.bind (hP.onStack .copy)
  intro _
  exact hP.bind (hP.label site) fun name => hP.tell _ fun _ => rfl

theorem swap (hP : Operative P) (site a b : Nat) : P (swap site a b) := by
  apply hP.bind (hP.onStack (.swap a b))
  intro _
  exact hP.bind (hP.label site) fun _ => hP.log rfl

theorem calculate (hP : Operative P) (site : Nat) (symbol : String) : P (calculate site symbol) := by
  unfold Action.calculate
  split
  · exact hP.raise trivial
  · apply hP.bind (hP.onStack (.calculate _))
    intro v
    exact hP.bind (hP.label site) fun _ => hP.bind (hP.log rfl) fun _ => hP.pure v

theorem compare (hP : Operative P) (site : Nat) : P (compare site) := by
  apply hP.bind (hP.onStack .compare)
  intro equal
  exact hP.bind (hP.label site) fun _ => hP.bind (hP.log rfl) fun _ => hP.pure equal

/-- The instructions that make no output, bind nothing and run no code, by what they need apart from the operands. -/
theorem quiet (hP : Operative P) {operation : Operation} (h : operation.isQuiet = true)
    (run : List Instruction → Action Unit) {site : Nat}
    (hload : ∀ source, operation = .push source → P (load site source)) (hread : P (read site))
    (hask : P (rerender site)) : P (perform run site operation) := by
  cases operation with
  | element | value | call | listen => cases h
  | render => exact hask
  | push source => exact hP.bind (hload source rfl) fun v => hP.push site v
  | copy => exact hP.copy site
  | pop => exact hP.bind (hP.pop site) fun _ => hP.pure ()
  | swap a b => exact hP.swap site _ _
  | compare => exact hP.bind (hP.compare site) fun _ => hP.pure ()
  | read => exact hread
  | calculate symbol => exact hP.bind (hP.calculate site symbol) fun _ => hP.pure ()

end Operative

/-! ### What code sees -/

namespace Seeing

/-- An action may look at the innermost frame if it sees no more than its outlook. -/
theorem head (hP : Seeing P) {f : Option (Frame Handle) → Action α} (g : Option (Handle × Bool) → Action α)
    (hf : ∀ frame, f frame = g (frame.map Frame.outlook)) (hg : ∀ outlook, P (g outlook)) :
    P (Action.get (·.frames.head?) >>= f) := by
  have heq : (Action.get (·.frames.head?) >>= f) = Action.get (·.frames.outlook) >>= g := by
    funext e
    exact congrArg (Outcome.after []) (congrFun (hf e.frames.head?) e)
  rw [heq]
  exact hP.bind hP.outlook hg

theorem target (hP : Seeing P) : P target := by
  apply hP.head fun
    | some outlook => Pure.pure outlook.1
    | none => Action.fail .noFrame
  · intro frame
    cases frame <;> rfl
  · intro outlook
    cases outlook with
    | some outlook => exact hP.pure _
    | none => exact hP.fail rfl rfl

theorem discipline (hP : Seeing P) (callee : Section) (mode : Mode) : P (discipline callee mode) := by
  have hend : ∀ allowed : Bool, P
      (if (!allowed) = true then Action.fail (.callDiscipline callee.label mode) else Pure.pure ()) :=
    fun allowed => hP.ite (hP.fail rfl rfl) (hP.pure ())
  unfold Action.discipline
  cases mode with
  | any => exact hP.bind (hP.pure _) hend
  | callable => exact hP.bind (hP.pure _) hend
  | renderable =>
    apply hP.head fun outlook => (match outlook with
      | some outlook => Pure.pure (decide (outlook.2 = callee.renderable))
      | none => Action.fail .noFrame) >>= fun allowed =>
        if (!allowed) = true then Action.fail (.callDiscipline callee.label .renderable) else Pure.pure ()
    · intro frame
      cases frame <;> rfl
    · intro outlook
      cases outlook with
      | some outlook => exact hP.bind (hP.pure _) hend
      | none => exact hP.bind (hP.fail rfl rfl) hend

theorem read (hP : Seeing P) (site : Nat) : P (read site) := by
  apply hP.bind (hP.get fun _ _ _ _ => rfl)
  intro focus
  cases focus with
  | none => exact hP.fail rfl rfl
  | some node =>
    apply hP.bind (hP.ofTree _)
    intro reading
    cases reading with
    | text s => exact hP.push site _
    | toggle on => exact hP.push site _

end Seeing

/-! ### Look-ups and calls -/

namespace Inward

theorem ofExcept (hP : Inward P) {x : Except Fault α} (hx : ∀ fault, x = .error fault → fault.isLookup = true) :
    P (ofExcept x) := by
  cases x with
  | ok a => exact hP.pure a
  | error fault => exact hP.miss (hx fault rfl)

theorem load (hP : Inward P) (site : Nat) (source : Source) : P (load site source) := by
  cases source with
  | string key =>
    apply hP.bind (hP.get fun _ _ _ _ => rfl)
    intro resources
    exact hP.bind (hP.ofExcept fun _ => Resources.isLookup_of_string) fun _ => hP.pure _
  | constant key =>
    apply hP.bind (hP.get fun _ _ _ _ => rfl)
    intro resources
    exact hP.bind (hP.ofExcept fun _ => Resources.isLookup_of_constant) fun _ => hP.pure _
  | stack offset => exact hP.peek site _

theorem call (hP : Inward P) {run : List Instruction → Action Unit} (hrun : ∀ code, P (run code)) (site : Nat)
    (label : String) (mode : Mode) : P (call run site label mode) := by
  apply hP.bind (hP.get fun _ _ _ _ => rfl)
  intro sections
  apply hP.bind (hP.ofExcept fun _ => Sections.isLookup_of_find)
  intro callee
  apply hP.bind (hP.discipline callee mode)
  intro _
  apply hP.bind (hP.label site)
  intro name
  apply hP.bind (hP.log rfl)
  intro _
  cases callee.body with
  | none => exact hP.pure ()
  | some body => exact hP.withContext _ (hrun body)

theorem quiet (hP : Inward P) {operation : Operation} (h : operation.isQuiet = true)
    (run : List Instruction → Action Unit) (site : Nat) : P (perform run site operation) :=
  hP.toOperative.quiet h run (fun source _ => hP.load site source) (hP.read site) (hP.rerender site)

/-- Single instructions, by what they need if they are not quiet. -/
theorem perform (hP : Inward P) {run : List Instruction → Action Unit} {site : Nat} {operation : Operation}
    (hleaf : ∀ tag, P (leaf site tag)) (hvalue : ∀ raw content, P (value site raw content))
    (hlisten : ∀ event handler, P (listen site event handler))
    (hcall : ∀ label mode, operation = .call label mode → P (Action.call run site label mode)) :
    P (perform run site operation) := by
  cases operation with
  | element tag => exact hleaf tag
  | value raw source => exact hP.bind (hP.load site source) fun v => hvalue raw v
  | call label mode => exact hcall label mode rfl
  | listen event handler => exact hlisten event handler
  | _ => exact hP.quiet rfl run site

end Inward

/-! ### Output -/

namespace Additive

theorem appendAll (hP : Additive P) (parent : Handle) (nodes : List Handle) : P (appendAll parent nodes) := by
  induction nodes with
  | nil => exact hP.pure ()
  | cons node nodes ih => exact hP.bind (hP.place (.append parent node)) fun _ => ih

theorem leaf (hP : Additive P) (site : Nat) (tag : String) : P (leaf site tag) := by
  apply hP.bind hP.target
  intro parent
  apply hP.bind (hP.make (.createElement tag))
  intro node
  apply hP.bind (hP.label site)
  intro name
  exact hP.bind (hP.place (.setAttribute node _ _)) fun _ => hP.place (.append parent node)

theorem appendTagged (hP : Additive P) (name : String) (parent : Handle) (nodes : List Handle) :
    P (appendTagged name parent nodes) := by
  induction nodes with
  | nil => exact hP.pure ()
  | cons node nodes ih =>
    apply hP.bind (hP.get fun _ _ _ _ => rfl)
    intro isText
    have hrest := hP.bind (hP.place (.append parent node)) fun _ => ih
    apply hP.ite
    · exact hP.bind (hP.place (.setAttribute node _ _)) fun _ => hrest
    · exact hrest

theorem listen (hP : Additive P) {site : Nat} {event handler : String}
    (hbind : ∀ node, P (modify fun e => { e with listeners := e.listeners ++ [⟨site, node, event, handler⟩] })) :
    P (listen site event handler) := by
  apply hP.bind hP.target
  intro node
  apply hP.bind (hP.place (.addEvent node event))
  intro _
  exact hP.bind (hP.label site) fun _ => hP.bind (hP.log rfl) fun _ => hbind node

end Additive

namespace Writing

theorem container (hP : Writing P) (site : Nat) (enclosure : Enclosure) {body : Action Unit} (hb : P body) :
    P (container site enclosure body) := by
  apply hP.bind (hP.get fun _ _ _ _ => rfl)
  intro context
  apply hP.ite hb
  apply hP.bind (hP.make (.createElement _))
  intro node
  apply hP.bind (hP.label site)
  intro name
  apply hP.bind (hP.place (.setAttribute node _ _))
  intro _
  -- how many frames there are is told and not used otherwise
  rw [← bind_assoc]
  apply hP.bind (hP.tell _ fun _ => rfl)
  intro _
  dsimp only
  apply hP.bind (hP.undo node (hP.inFrame _ (hP.withFocus node hb)))
  intro _
  apply hP.bind hP.target
  intro parent
  apply hP.ite
  · apply hP.bind (hP.ofTree _)
    intro children
    exact hP.bind (hP.appendAll parent children) fun _ => hP.release [node]
  · exact hP.place (.append parent node)

theorem conditional (hP : Writing P) (site : Nat) {body : Action Unit} (hb : P body) :
    P (conditional site body) := by
  apply hP.bind (hP.pop site)
  intro v
  apply hP.bind (hP.label site)
  intro name
  apply hP.bind (hP.log rfl)
  intro _
  apply hP.ite
  · exact hP.bind hP.target fun node => hP.bind (hP.get fun _ _ _ _ => rfl) fun context => hP.inFrame _ hb
  · exact hP.pure ()

theorem plainValue (hP : Writing P) (name : String) (parent : Handle) (text : String) :
    P (plainValue name parent text) := by
  apply hP.bind (hP.make (.createElement "span"))
  intro span
  apply hP.bind (hP.setText span text)
  intro _
  exact hP.bind (hP.place (.setAttribute span _ _)) fun _ => hP.place (.append parent span)

theorem value (hP : Writing P) (site : Nat) (raw : Bool) (content : Value) : P (value site raw content) := by
  apply hP.bind hP.target
  intro parent
  apply hP.bind (hP.label site)
  intro name
  apply hP.ite
  · apply hP.bind (hP.make (.parse _))
    intro nodes
    apply hP.bind (hP.get fun _ _ _ _ => rfl)
    intro tree
    apply hP.ite
    · exact hP.bind (hP.release nodes) fun _ => hP.plainValue _ parent _
    · exact hP.appendTagged _ parent nodes
  · exact hP.plainValue _ parent _

/-- The error display is output like any other, once the mounted node is empty. -/
theorem showError (hP : Writing P) (hclear : ∀ node, P (onTree (·.clear node))) (report : Report) :
    P (showError report) := by
  apply hP.bind (hP.get fun _ _ _ _ => rfl)
  intro mount
  apply hP.bind (hclear mount)
  intro _
  apply hP.bind (hP.place (.setAttribute mount _ _))
  intro _
  apply hP.bind (hP.place (.setAttribute mount _ _))
  intro _
  apply hP.bind (hP.make (.createElement _))
  intro heading
  apply hP.bind (hP.setText heading _)
  intro _
  apply hP.bind (hP.place (.append mount heading))
  intro _
  apply hP.bind (hP.make (.createElement _))
  intro detail
  exact hP.bind (hP.setText detail _) fun _ => hP.place (.append mount detail)

end Writing

/-- What deals with a fault, by the display and by the two changes around it. -/
theorem Operative.recover (hP : Operative P) {fault : Fault}
    (hstop : P (modify fun e =>
      { e with
        frames := e.frames.truncate 1
        focus := none
        listeners := []
        schedule := { e.schedule with phase := .failed } }))
    (hshow : P (attempt (showError (.ofFault fault))))
    (hreport : P (modify fun e => { e with report := some (.ofFault fault) })) : P (recover fault) := by
  apply hP.bind (hP.log rfl)
  intro _
  apply hP.bind hstop
  intro _
  apply hP.bind hshow
  intro shown
  cases shown with
  | ok => exact hP.bind (hP.pure ()) fun _ => hreport
  | error shown => exact hP.bind (hP.log rfl) fun _ => hreport

/-! ### Code -/

/-- Single instructions, with what a call runs left open. -/
theorem Threaded.perform (hP : Threaded P) {run : List Instruction → Action Unit} {site : Nat} {operation : Operation}
    (hcall : ∀ label mode, operation = .call label mode → P (call run site label mode)) :
    P (perform run site operation) :=
  hP.toInward.perform (hP.leaf site) (hP.value site) (fun _ _ => hP.listen fun _ => hP.listener _) hcall

end

/-- An instruction has the property if the code inside it has it, and so have instructions one after the other. -/
structure Hereditary (P : Action Unit → Prop) : Prop where
  pure : P (Pure.pure ())
  tooDeep : P tooDeep
  seq : ∀ {x y : Action Unit}, P x → P y → P (x >>= fun _ => y)
  resolve : ∀ key {f : Nat → Action Unit}, (∀ site, P (f site)) → P (resolve key >>= f)
  container : ∀ site enclosure {body}, P body → P (container site enclosure body)
  conditional : ∀ site {body}, P body → P (conditional site body)
  perform : ∀ {run : List Instruction → Action Unit}, (∀ code, P (run code)) →
    ∀ site operation, P (perform run site operation)

theorem Woven.hereditary {P : ∀ {α : Type}, Action α → Prop} (hP : Woven P) (hdeep : P (tooDeep : Action Unit)) :
    Hereditary fun x : Action Unit => P x where
  pure := hP.pure ()
  tooDeep := hdeep
  seq hx hy := hP.bind hx fun _ => hy
  resolve key _ hf := hP.bind (hP.resolve key) hf
  container := hP.container
  conditional := hP.conditional
  perform hrun site _ := hP.perform fun label mode _ => hP.call hrun site label mode

namespace Hereditary

variable {P : Action Unit → Prop}

theorem step (hP : Hereditary P) {run : List Instruction → Action Unit} (hrun : ∀ code, P (run code))
    (i : Instruction) : P (step run i) := by
  apply hP.resolve
  intro site
  cases i with
  | container id enclosure body => exact hP.container site enclosure (hrun body)
  | conditional id body => exact hP.conditional site (hrun body)
  | single id operation => exact hP.perform hrun site operation

theorem sequence (hP : Hereditary P) {one : Instruction → Action Unit} (hone : ∀ i, P (one i))
    (code : List Instruction) : P (sequence one code) := by
  induction code with
  | nil => exact hP.pure
  | cons i code ih => exact hP.seq (hone i) ih

/-- Any code has the property, by induction on its nesting. -/
theorem execute (hP : Hereditary P) (n : Nat) (code : List Instruction) : P (execute n code) := by
  induction n generalizing code with
  | zero => exact hP.tooDeep
  | succ n ih => exact hP.sequence (hP.step ih) code

theorem invoke (hP : Hereditary P) (n site : Nat) (label : String) (mode : Mode) :
    P (invoke n site label mode) := hP.perform (hP.execute n) site (.call label mode)

end Hereditary
end Action
end Trellis
