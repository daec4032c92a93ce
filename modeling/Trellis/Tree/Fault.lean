/-!
# Failures of tree operations
-/
namespace Trellis.Tree

/-- What a text node cannot have. -/
inductive Part where
  | children
  | attributes
deriving DecidableEq, Repr

def Part.name : Part → String
  | .children => "children"
  | .attributes => "attributes"

inductive Fault where
  | unknownNode (node : String)
  /-- The child is the parent itself or an ancestor of it. -/
  | invalidAppend (parent child : String)
  | textNode (part : Part)
  | unsupportedInput (type : String)
deriving DecidableEq, Repr

def Fault.message : Fault → String
  | .unknownNode node => "node " ++ node ++ " does not exist"
  | .invalidAppend parent child =>
    "cannot append node " ++ child ++ " to " ++ parent ++ ": the child contains the parent"
  | .textNode part => "text nodes cannot have " ++ part.name
  | .unsupportedInput type => "unsupported input type `" ++ type ++ "`"

end Trellis.Tree
