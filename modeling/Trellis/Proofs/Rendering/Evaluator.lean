import Trellis.Engine.Host

/-!
# What a program means

Rendering a program means evaluating its code. The evaluator knows neither nodes nor handles, frames or a focus: it
threads the operand stack and the markup made so far in the innermost open container, and is told where the code
stands. A container evaluates its code from nothing and adds one element that holds the result; a root container
adds the result itself. As `execute` does, `evaluate n` gives up on code that is nested `n` deep or deeper.
-/
namespace Trellis

namespace Markup

mutual

/-- Markup with the attributes of every element in the order of their names, of which the last value counts. -/
def normal : Markup → Markup
  | .text content => .text content
  | .element tag attributes children => .element tag (Tree.Attributes.ofList attributes) (normalAll children)

def normalAll : List Markup → List Markup
  | [] => []
  | m :: ms => normal m :: normalAll ms

end

/-- Gives an element one more attribute. -/
def setAttribute (name value : String) : Markup → Markup
  | .text content => .text content
  | .element tag attributes children => .element tag (Tree.Attributes.set name value attributes) children

end Markup

namespace Evaluation

/-- Where code stands. -/
structure Place where
  mode : Mode
  /-- Whether the section that is running is renderable. -/
  renderable : Bool
  /-- Whether the section of the innermost frame is. -/
  owner : Bool
  /-- The tag of the innermost open container. -/
  inside : Option String
deriving DecidableEq, Repr

/-- The operands, and the markup made so far in the innermost open container. -/
structure Page where
  stack : Operands
  nodes : List Markup
deriving Repr

inductive Result where
  | done (page : Page)
  | failed (fault : Fault) (stack : Operands)
  | tooDeep
deriving Repr

/-- The tables and sections that are loaded. -/
structure Loaded where
  resources : Resources
  sections : Sections

def Page.add (p : Page) (nodes : List Markup) : Page := { p with nodes := p.nodes ++ nodes }

/-- An operation on the operand stack. -/
def onStack {α : Type} (f : Operands → Operands.Result α) (p : Page) : Result :=
  match f p.stack with
  | (.ok _, stack) => .done { p with stack }
  | (.error fault, stack) => .failed fault stack

def load (resources : Resources) (stack : Operands) : Source → Except Fault Value
  | .string key => (resources.string key).map .text
  | .constant key => (resources.constant key).map .number
  | .stack offset => stack.peek offset.toNat

/-- The element that an instruction makes, tagged with its site. -/
def element (tag name : String) (children : List Markup) : Markup :=
  .element tag [(Action.siteAttribute, name)] children

/-- Whether markup is nothing or a single text. -/
def isPlain : List Markup → Bool
  | [] => true
  | [m] => m.isText
  | _ => false

/-- A value is shown as text in an element of its own, or as the markup that it is. -/
def shown (raw : Bool) (name text : String) : List Markup :=
  let ms := Markup.normalAll (Markup.parse text)
  if raw && !isPlain ms then ms.map (.setAttribute Action.siteAttribute name)
  else [element "span" name [.text text]]

/-- Whether a section may be entered in a mode, from a frame of a section that is renderable or not. -/
def allowed (owner : Bool) (callee : Section) : Mode → Bool
  | .any => true
  | .callable => !callee.renderable
  | .renderable => owner = callee.renderable

/-- What code means where it stands. -/
abbrev Meaning := List Instruction → Place → Page → Result

def call (loaded : Loaded) (run : Meaning) (label : String) (mode : Mode) (place : Place) (p : Page) : Result :=
  match loaded.sections.find label with
  | .error fault => .failed fault p.stack
  | .ok callee =>
    if allowed place.owner callee mode then
      match callee.body with
      | none => .done p
      | some body => run body { place with mode, renderable := callee.renderable } p
    else .failed (.callDiscipline callee.label mode) p.stack

def perform (loaded : Loaded) (run : Meaning) (name : String) (place : Place) (p : Page) : Operation → Result
  | .element tag => .done (p.add [element tag.toLower ("elem-" ++ name) []])
  | .value raw source =>
    match load loaded.resources p.stack source with
    | .ok v => .done (p.add (shown raw ("rawValue-" ++ name) v.toText))
    | .error fault => .failed fault p.stack
  | .call label mode => call loaded run label mode place p
  | .render => .done p
  | .listen .. => .done p
  | .push source =>
    match load loaded.resources p.stack source with
    | .ok v => onStack (Operands.push v) p
    | .error fault => .failed fault p.stack
  | .copy => onStack Operands.copy p
  | .pop => onStack Operands.pop p
  | .swap a b => onStack (Operands.swap a.toNat b.toNat) p
  | .compare => onStack Operands.compare p
  | .read =>
    match place.inside with
    | none => .failed .noFocus p.stack
    | some tag =>
      let text := if tag = "input" then "" else String.ofList (Markup.writeAll p.nodes)
      .done { p with stack := .text text :: p.stack }
  | .calculate symbol =>
    match Operator.ofSymbol? symbol with
    | none => .failed (.unknownOperator symbol) p.stack
    | some operator => onStack (Operands.calculate operator) p

def step (loaded : Loaded) (run : Meaning) (place : Place) (p : Page) : Instruction → Result
  | .container id enclosure body =>
    if !place.renderable || place.mode = .callable then run body place p
    else
      let tag := enclosure.tag.toLower
      match run body { place with owner := place.renderable, inside := some tag } ⟨p.stack, []⟩ with
      | .done q =>
        let made :=
          if enclosure = .root then q.nodes else [element tag ("container-" ++ id.label) q.nodes]
        .done ⟨q.stack, p.nodes ++ made⟩
      | .failed fault stack => .failed fault stack
      | .tooDeep => .tooDeep
  | .conditional _ body =>
    match p.stack with
    | [] => .failed (.underflow .pop) []
    | v :: stack =>
      if v.isTrue then run body { place with owner := place.renderable } { p with stack }
      else .done { p with stack }
  | .single id operation => perform loaded run id.label place p operation

/-- Evaluates instructions in order up to the first fault. -/
def sequence (one : Place → Page → Instruction → Result) : Meaning
  | [], _, p => .done p
  | i :: is, place, p =>
    match one place p i with
    | .done q => sequence one is place q
    | .failed fault stack => .failed fault stack
    | .tooDeep => .tooDeep

def evaluate (loaded : Loaded) : Nat → Meaning
  | 0, _, _, _ => .tooDeep
  | n + 1, code, place, p => sequence (step loaded (evaluate loaded n)) code place p

/-- A render evaluates the main section, in the frame of the mounted node and outside any container. -/
def main (loaded : Loaded) (n : Nat) : Result :=
  call loaded (evaluate loaded n) mainLabel .renderable ⟨.any, true, true, none⟩ ⟨[], []⟩

end Evaluation
end Trellis
