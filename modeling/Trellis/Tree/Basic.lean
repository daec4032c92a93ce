import Trellis.Markup.Parse
import Trellis.Tree.Fault
import Trellis.Tree.Node

/-!
# The output tree

A tree is a list of nodes that stand at the top, each with all that it holds, and the handles to be given
out. The root is the node of the first handle; a new node stands at the top until it is appended to
another. An operation that fails leaves the tree as it was.
-/
namespace Trellis

structure Tree where
  nodes : List Tree.Node
  pool : Tree.Pool
deriving Repr

namespace Tree

/-- A tree that holds only its root. -/
def new : Tree := ⟨[.element .root "div" [("id", "root")] [] []], ⟨[], 1⟩⟩

def find? (t : Tree) (h : Handle) : Option Node := Node.findAmong? h t.nodes

def contains (t : Tree) (h : Handle) : Bool := (t.find? h).isSome

/-- The node of a handle, which has to be live. -/
def node (t : Tree) (h : Handle) : Except Fault Node :=
  match t.find? h with
  | some n => .ok n
  | none => .error (.unknownNode h.label)

/-- How many nodes are live. -/
def size (t : Tree) : Nat := (Node.handlesAll t.nodes).length

def isEmpty (t : Tree) : Bool := t.size = 0

def update (t : Tree) (h : Handle) (f : Node → Node) : Tree :=
  { t with nodes := Node.updateAmong h f t.nodes }

def createElement (t : Tree) (tag : String) : Handle × Tree :=
  let (h, pool) := t.pool.take
  (h, ⟨.element h tag.toLower [] [] [] :: t.nodes, pool⟩)

def createText (t : Tree) (content : String) : Handle × Tree :=
  let (h, pool) := t.pool.take
  (h, ⟨.text h content [] :: t.nodes, pool⟩)

/-- New nodes, at the top, for the pieces of a markup text. -/
def parse (t : Tree) (source : String) : List Handle × Tree :=
  let (ns, pool) := Node.ofMarkupAll t.pool (Markup.parse source)
  (ns.map (·.handle), ⟨ns ++ t.nodes, pool⟩)

/-- Moves a node, with all that it holds, to the end of another node's children. -/
def append (t : Tree) (parent child : Handle) : Except Fault Tree := do
  let p ← t.node parent
  if p.isText then throw (.textNode .children)
  let c ← t.node child
  if (c.find? parent).isSome then throw (.invalidAppend parent.label child.label)
  let nodes := Node.removeAmong child t.nodes
  return { t with nodes := Node.updateAmong parent (.setChildren (· ++ [c])) nodes }

def children (t : Tree) (h : Handle) : Except Fault (List Handle) := do
  return (← t.node h).children.map (·.handle)

def parent? (t : Tree) (h : Handle) : Option Handle := Node.parentAmong? h t.nodes

/-- A node and the nodes that hold it, innermost first. A handle that names no node stands alone. -/
def lineage (t : Tree) (h : Handle) : List Handle := (Node.lineageAmong? h t.nodes).getD [h]

/-- Frees all that a node holds. -/
def clear (t : Tree) (h : Handle) : Except Fault Tree := do
  let n ← t.node h
  let freed := n.children.flatMap Node.freeOrder
  return { t.update h (.setChildren fun _ => []) with pool := t.pool.give freed }

/-- Frees a node and all that it holds. The root's handle cannot be released. -/
def release (t : Tree) (h : Handle) : Tree :=
  if h = .root then t
  else
    match t.find? h with
    | none => t
    | some n => ⟨Node.removeAmong h t.nodes, t.pool.give n.freeOrder⟩

def isText (t : Tree) (h : Handle) : Bool := ((t.find? h).map Node.isText).getD false

def tag? (t : Tree) (h : Handle) : Option String := (t.find? h).bind Node.tag?

def attribute? (t : Tree) (h : Handle) (name : String) : Option String :=
  (t.find? h).bind (·.attribute? name)

def events (t : Tree) (h : Handle) : List String := ((t.find? h).map Node.events).getD []

def setAttributes (t : Tree) (h : Handle) (f : Attributes → Attributes) : Except Fault Tree := do
  let n ← t.node h
  if n.isText then throw (.textNode .attributes)
  return t.update h (.setAttributes f)

def setAttribute (t : Tree) (h : Handle) (name value : String) : Except Fault Tree :=
  t.setAttributes h (.set name value)

def removeAttribute (t : Tree) (h : Handle) (name : String) : Except Fault Tree :=
  t.setAttributes h (.erase name)

/-- Replaces a text, or all that an element holds by one text. -/
def setText (t : Tree) (h : Handle) (content : String) : Except Fault Tree := do
  let n ← t.node h
  if n.isText then return t.update h (.setContent content)
  let cleared ← t.clear h
  let (child, t) := cleared.createText content
  t.append h child

def addEvent (t : Tree) (h : Handle) (event : String) : Except Fault Tree := do
  let _ ← t.node h
  return t.update h (.addEvent event)

/-- The first node in document order, from the root on, with a given attribute value. -/
def findByAttribute? (t : Tree) (name value : String) : Option Handle := do
  let root ← t.find? .root
  let n ← root.search? (·.attribute? name = some value)
  return n.handle

def textContent (t : Tree) (h : Handle) : String :=
  match t.find? h with
  | some n => String.ofList n.toMarkup.textContent
  | none => ""

/-- A node, with all that it holds, as markup text. -/
def markup (t : Tree) (h : Handle) : String :=
  match t.find? h with
  | some n => String.ofList n.toMarkup.write
  | none => ""

/-- What a node holds as markup text. -/
def innerMarkup (t : Tree) (h : Handle) : String :=
  match t.find? h with
  | some n => String.ofList (Markup.writeAll (Node.toMarkupAll n.children))
  | none => ""

end Tree
end Trellis
