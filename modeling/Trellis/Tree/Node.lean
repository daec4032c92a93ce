import Trellis.Markup.Basic
import Trellis.Tree.Handle

/-!
# Nodes

A node is an element or a text and holds its children. Attributes are kept in the order of their names.
Functions on a list of nodes look through all of them and all that they hold.
-/
namespace Trellis.Tree

abbrev Attributes := List (String × String)

namespace Attributes

def get? (attributes : Attributes) (name : String) : Option String :=
  (attributes.find? (·.1 = name)).map (·.2)

/-- Gives a name its value, in place if the name is there. -/
def set (name value : String) : Attributes → Attributes
  | [] => [(name, value)]
  | (n, v) :: rest =>
    if name < n then (name, value) :: (n, v) :: rest
    else if name = n then (name, value) :: rest
    else (n, v) :: set name value rest

def erase (name : String) (attributes : Attributes) : Attributes := attributes.filter (·.1 ≠ name)

/-- Of several values for a name the last one counts. -/
def ofList (pairs : List (String × String)) : Attributes :=
  pairs.foldl (fun attributes p => set p.1 p.2 attributes) []

end Attributes

inductive Node where
  | element (handle : Handle) (tag : String) (attributes : Attributes) (events : List String)
      (children : List Node)
  | text (handle : Handle) (content : String) (events : List String)
deriving Repr

namespace Node

def handle : Node → Handle
  | .element h .. => h
  | .text h .. => h

/-- The events that listeners have been registered for. -/
def events : Node → List String
  | .element _ _ _ events _ => events
  | .text _ _ events => events

def children : Node → List Node
  | .element _ _ _ _ children => children
  | .text .. => []

def isText : Node → Bool
  | .element .. => false
  | .text .. => true

def tag? : Node → Option String
  | .element _ tag .. => some tag
  | .text .. => none

def attribute? (n : Node) (name : String) : Option String :=
  match n with
  | .element _ _ attributes _ _ => attributes.get? name
  | .text .. => none

def setAttributes (f : Attributes → Attributes) : Node → Node
  | .element h tag attributes events children => .element h tag (f attributes) events children
  | .text h content events => .text h content events

def setChildren (f : List Node → List Node) : Node → Node
  | .element h tag attributes events children => .element h tag attributes events (f children)
  | .text h content events => .text h content events

def setContent (content : String) : Node → Node
  | .element h tag attributes events children => .element h tag attributes events children
  | .text h _ events => .text h content events

/-- An event is recorded once. -/
def addEvent (event : String) : Node → Node
  | .element h tag attributes events children =>
    .element h tag attributes (if event ∈ events then events else events ++ [event]) children
  | .text h content events => .text h content (if event ∈ events then events else events ++ [event])

mutual

/-- The handles of a node and of all that it holds, in document order. -/
def handles : Node → List Handle
  | .element h _ _ _ children => h :: handlesAll children
  | .text h .. => [h]

def handlesAll : List Node → List Handle
  | [] => []
  | n :: ns => handles n ++ handlesAll ns

end

mutual

/-- The order in which a node and all that it holds are freed: the node first, then its children from the
last to the first. -/
def freeOrder : Node → List Handle
  | .element h _ _ _ children => h :: freeOrderBack children
  | .text h .. => [h]

def freeOrderBack : List Node → List Handle
  | [] => []
  | n :: ns => freeOrderBack ns ++ freeOrder n

end

mutual

def find? (h : Handle) : Node → Option Node
  | .element h' tag attributes events children =>
    if h' = h then some (.element h' tag attributes events children) else findAmong? h children
  | .text h' content events => if h' = h then some (.text h' content events) else none

def findAmong? (h : Handle) : List Node → Option Node
  | [] => none
  | n :: ns =>
    match find? h n with
    | some found => some found
    | none => findAmong? h ns

end

mutual

/-- The node that holds the node of a handle as a child. -/
def parent? (h : Handle) : Node → Option Handle
  | .element h' _ _ _ children =>
    if children.any (·.handle = h) then some h' else parentAmong? h children
  | .text .. => none

def parentAmong? (h : Handle) : List Node → Option Handle
  | [] => none
  | n :: ns =>
    match parent? h n with
    | some found => some found
    | none => parentAmong? h ns

end

mutual

/-- The node of a handle and the nodes that hold it, innermost first. -/
def lineage? (h : Handle) : Node → Option (List Handle)
  | .element h' _ _ _ children =>
    if h' = h then some [h'] else (lineageAmong? h children).map (· ++ [h'])
  | .text h' .. => if h' = h then some [h'] else none

def lineageAmong? (h : Handle) : List Node → Option (List Handle)
  | [] => none
  | n :: ns =>
    match lineage? h n with
    | some found => some found
    | none => lineageAmong? h ns

end

mutual

/-- Changes the node of a handle. -/
def update (h : Handle) (f : Node → Node) : Node → Node
  | .element h' tag attributes events children =>
    if h' = h then f (.element h' tag attributes events children)
    else .element h' tag attributes events (updateAmong h f children)
  | .text h' content events =>
    if h' = h then f (.text h' content events) else .text h' content events

def updateAmong (h : Handle) (f : Node → Node) : List Node → List Node
  | [] => []
  | n :: ns => update h f n :: updateAmong h f ns

end

mutual

/-- Takes the node of a handle out of what a node holds. -/
def remove (h : Handle) : Node → Node
  | .element h' tag attributes events children => .element h' tag attributes events (removeAmong h children)
  | .text h' content events => .text h' content events

def removeAmong (h : Handle) : List Node → List Node
  | [] => []
  | n :: ns => if n.handle = h then removeAmong h ns else remove h n :: removeAmong h ns

end

mutual

/-- The first node in document order that satisfies a predicate. -/
def search? (p : Node → Bool) : Node → Option Node
  | .element h tag attributes events children =>
    if p (.element h tag attributes events children) then some (.element h tag attributes events children)
    else searchAmong? p children
  | .text h content events => if p (.text h content events) then some (.text h content events) else none

def searchAmong? (p : Node → Bool) : List Node → Option Node
  | [] => none
  | n :: ns =>
    match search? p n with
    | some found => some found
    | none => searchAmong? p ns

end

mutual

/-- A node as markup. -/
def toMarkup : Node → Markup
  | .element _ tag attributes _ children => .element tag attributes (toMarkupAll children)
  | .text _ content _ => .text content

def toMarkupAll : List Node → List Markup
  | [] => []
  | n :: ns => toMarkup n :: toMarkupAll ns

end

mutual

/-- New nodes for a piece of markup. A node gets its handle before its children do. -/
def ofMarkup (pool : Pool) : Markup → Node × Pool
  | .text content =>
    let (h, pool) := pool.take
    (.text h content [], pool)
  | .element tag attributes children =>
    let (h, pool) := pool.take
    let (children, pool) := ofMarkupAll pool children
    (.element h tag (.ofList attributes) [] children, pool)

def ofMarkupAll (pool : Pool) : List Markup → List Node × Pool
  | [] => ([], pool)
  | m :: ms =>
    let (n, pool) := ofMarkup pool m
    let (ns, pool) := ofMarkupAll pool ms
    (n :: ns, pool)

end

end Node
end Trellis.Tree
