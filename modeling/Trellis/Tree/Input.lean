import Trellis.Tree.Basic

/-!
# Reading and setting inputs

An input element has a value that a user enters; a checkbox is checked or not. Any other node is read as
the markup of what it holds.
-/
namespace Trellis.Tree

inductive Reading where
  | text (s : String)
  | toggle (on : Bool)
deriving DecidableEq, Repr

/-- The types of input whose value is text. -/
def textTypes : List String :=
  ["button", "color", "date", "datetime-local", "email", "file", "hidden", "month", "number", "password",
    "radio", "range", "search", "submit", "tel", "text", "time", "url", "week"]

def read (t : Tree) (h : Handle) : Except Fault Reading := do
  let n ← t.node h
  if n.tag? ≠ some "input" then return .text (t.innerMarkup h)
  let type := (n.attribute? "type").getD "text"
  if type = "checkbox" then return .toggle (n.attribute? "checked").isSome
  if type ∈ textTypes then return .text ((n.attribute? "value").getD "")
  throw (.unsupportedInput type)

def setChecked (t : Tree) (h : Handle) (on : Bool) : Except Fault Tree :=
  if on then t.setAttribute h "checked" "" else t.removeAttribute h "checked"

/-- Enters a value. A checkbox takes `true`, `on` and `1` as checked and anything else as not. -/
def setInput (t : Tree) (h : Handle) (value : String) : Except Fault Tree :=
  if t.attribute? h "type" = some "checkbox" then t.setChecked h (["true", "on", "1"].contains value)
  else t.setAttribute h "value" value

end Trellis.Tree
