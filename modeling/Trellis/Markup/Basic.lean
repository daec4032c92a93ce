import Trellis.Markup.Entity

/-!
# Markup

A piece of markup is an element with attributes and children, or text. Written markup escapes text and
attribute values, so neither can open or close an element.
-/
namespace Trellis

inductive Markup where
  | element (tag : String) (attributes : List (String × String)) (children : List Markup)
  | text (content : String)
deriving Repr, BEq

namespace Markup

/-- Tags of elements that have no children and no closing tag. -/
def voidTags : List String :=
  ["area", "base", "br", "col", "embed", "hr", "img", "input", "link", "meta", "source", "track", "wbr"]

def isVoid (tag : String) : Bool := voidTags.contains tag

def isText : Markup → Bool
  | .text _ => true
  | .element .. => false

/-- One attribute with the blank before it. -/
def writeAttribute (pair : String × String) : List Char :=
  ' ' :: pair.1.toList ++ '=' :: '\x22' :: escapeAttribute pair.2.toList ++ ['\x22']

def writeOpening (tag : String) (attributes : List (String × String)) : List Char :=
  '<' :: tag.toList ++ attributes.flatMap writeAttribute ++ ['>']

def writeClosing (tag : String) : List Char := '<' :: '/' :: tag.toList ++ ['>']

mutual

/-- A void element without children has no closing tag. -/
def write : Markup → List Char
  | .text content => escapeText content.toList
  | .element tag attributes children =>
    writeOpening tag attributes ++
      if isVoid tag && children.isEmpty then [] else writeAll children ++ writeClosing tag

def writeAll : List Markup → List Char
  | [] => []
  | m :: ms => write m ++ writeAll ms

end

mutual

/-- The text of a piece of markup and of all that it holds, in order. -/
def textContent : Markup → List Char
  | .text content => content.toList
  | .element _ _ children => textContentAll children

def textContentAll : List Markup → List Char
  | [] => []
  | m :: ms => textContent m ++ textContentAll ms

end

end Markup
end Trellis
