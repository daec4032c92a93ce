import Trellis.Engine.Action

/-!
# Instructions that make output

Output goes to the target of the innermost frame. Every element that an instruction makes is tagged with
its site.
-/
namespace Trellis.Action

open Tree (Handle)

/-- The attribute that names an element's site. -/
def siteAttribute : String := "x-id"

/-- The node that output goes to. -/
def target : Action Handle := do
  match ← get (·.frames.head?) with
  | some frame => pure frame.target
  | none => fail .noFrame

/-- Runs code in a frame of its own. -/
def inFrame (frame : Frame Handle) (body : Action Unit) : Action Unit :=
  bracket (fun e => { e with frames := frame :: e.frames }) (fun _ e => { e with frames := e.frames.tail }) body

/-- Runs code with the focus on a node. -/
def withFocus (node : Handle) (body : Action Unit) : Action Unit :=
  bracket (fun e => { e with focus := some node }) (fun before e => { e with focus := before.focus }) body

/-- Appends nodes to a parent, one after the other. -/
def appendAll (parent : Handle) : List Handle → Action Unit
  | [] => pure ()
  | child :: children => do
    onTree (·.append parent child)
    appendAll parent children

/-- A container makes an element and runs its code inside it, with the focus on it. Outside renderable code
it only runs its code. The element is released when the code fails. What a root container holds moves into
the enclosing node, and its element is released. -/
def container (site : Nat) (enclosure : Enclosure) (body : Action Unit) : Action Unit := do
  let context ← get (·.context)
  if !context.code.renderable || context.mode = .callable then body
  else
    let node ← make (·.createElement enclosure.tag)
    let name := "container-" ++ (← label site)
    onTree (·.setAttribute node siteAttribute name)
    log (.openContainer name enclosure.tag (← get (·.frames.length)))
    let kind : Frame.Kind := if enclosure = .root then .root else .container
    onFault (fun e => { e with tree := e.tree.release node })
      (inFrame ⟨site, context.code, node, kind⟩ (withFocus node body))
    let parent ← target
    if enclosure = .root then
      appendAll parent (← ofTree (·.children node))
      modify fun e => { e with tree := e.tree.release node }
    else onTree (·.append parent node)

/-- Takes a value off the stack. -/
def pop (site : Nat) : Action Value := do
  let v ← onStack Operands.pop
  log (.pop (← label site) v.shown)
  return v

/-- Takes a value off the stack and runs code if it is true, in a frame on the same target. -/
def conditional (site : Nat) (body : Action Unit) : Action Unit := do
  let v ← pop site
  log (.conditional (← label site) v.shown v.isTrue)
  if v.isTrue then
    let node ← target
    let context ← get (·.context)
    inFrame ⟨site, context.code, node, .conditional⟩ body

/-- Appends an element that holds nothing. -/
def leaf (site : Nat) (tag : String) : Action Unit := do
  let parent ← target
  let node ← make (·.createElement tag)
  let name := "elem-" ++ (← label site)
  onTree (·.setAttribute node siteAttribute name)
  onTree (·.append parent node)

/-- Tags nodes that are not text and appends all of them. -/
def appendTagged (name : String) (parent : Handle) : List Handle → Action Unit
  | [] => pure ()
  | node :: nodes => do
    if !(← get (·.tree.isText node)) then onTree (·.setAttribute node siteAttribute name)
    onTree (·.append parent node)
    appendTagged name parent nodes

/-- Appends a text in an element of its own. -/
def plainValue (name : String) (parent : Handle) (text : String) : Action Unit := do
  let span ← make (·.createElement "span")
  onTree (·.setText span text)
  onTree (·.setAttribute span siteAttribute name)
  onTree (·.append parent span)

/-- Appends a value as text, or as the nodes of its markup if that is more than a single text. -/
def value (site : Nat) (raw : Bool) (content : Value) : Action Unit := do
  let parent ← target
  let text := content.toText
  let name := "rawValue-" ++ (← label site)
  if raw then
    let nodes ← make (·.parse text)
    let tree ← get (·.tree)
    let single :=
      match nodes with
      | [] => true
      | [node] => tree.isText node
      | _ => false
    if single then
      modify fun e => { e with tree := nodes.foldl Tree.release e.tree }
      plainValue name parent text
    else appendTagged name parent nodes
  else plainValue name parent text

/-- Binds a handler to an event on the target. -/
def listen (site : Nat) (event handler : String) : Action Unit := do
  let node ← target
  onTree (·.addEvent node event)
  log (.listen (← label site) event handler)
  modify fun e => { e with listeners := e.listeners ++ [⟨site, node, event, handler⟩] }

end Trellis.Action
