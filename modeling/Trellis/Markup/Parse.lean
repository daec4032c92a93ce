import Trellis.Markup.Basic
import Trellis.Markup.Token

/-!
# From tokens to markup

The reader stands at a place inside the markup read so far: the siblings before it and, for each open
element, what came before that element. Both are kept newest first. A closing tag closes the innermost
open element of its name and everything open inside it; one that names no open element is ignored. What
is still open at the end is closed there.
-/
namespace Trellis.Markup

/-- An element that is open, and its siblings before it. -/
structure Opened where
  tag : String
  attributes : List (String × String)
  before : List Markup
deriving Repr

structure Cursor where
  siblings : List Markup
  path : List Opened
deriving Repr

/-- Puts a node after its siblings, newest first; text joins text. -/
def addSibling : Markup → List Markup → List Markup
  | .text more, .text content :: siblings => .text (content ++ more) :: siblings
  | node, siblings => node :: siblings

namespace Cursor

def start : Cursor := ⟨[], []⟩

def add (node : Markup) (c : Cursor) : Cursor := { c with siblings := addSibling node c.siblings }

/-- Closes open elements until one of the given tag is closed. -/
def closeThrough (tag : String) : List Opened → List Markup → Cursor
  | [], siblings => ⟨siblings, []⟩
  | o :: path, siblings =>
    let closed := addSibling (.element o.tag o.attributes siblings.reverse) o.before
    if o.tag = tag then ⟨closed, path⟩ else closeThrough tag path closed

/-- Closes every open element. -/
def closeAll : List Opened → List Markup → List Markup
  | [], siblings => siblings
  | o :: path, siblings =>
    closeAll path (addSibling (.element o.tag o.attributes siblings.reverse) o.before)

def isOpen (tag : String) (c : Cursor) : Bool := c.path.any (·.tag = tag)

def read (c : Cursor) : Token → Cursor
  | .text content => c.add (.text content)
  | .comment => c
  | .opening tag attributes selfClosing =>
    if selfClosing || isVoid tag then c.add (.element tag attributes [])
    else ⟨[], ⟨tag, attributes, c.siblings⟩ :: c.path⟩
  | .closing tag => if c.isOpen tag then closeThrough tag c.path c.siblings else c

def finish (c : Cursor) : List Markup := (closeAll c.path c.siblings).reverse

end Cursor

def ofTokens (ts : List Token) : List Markup := (ts.foldl Cursor.read .start).finish

def parse (source : String) : List Markup := ofTokens (tokens source.toList)

end Trellis.Markup
