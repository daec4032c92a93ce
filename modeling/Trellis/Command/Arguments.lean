import Trellis.Number.Decimal

/-!
# Command lines

Two commands: `run` renders a program and delivers scripted events, `check` only loads it. An option's
value is attached with `=` or is the next argument, which then must not look like an option. After `--`
every argument is positional.
-/
namespace Trellis

/-- An event to be fired on the node tagged with a site, after its value is entered if there is one. -/
structure ScriptedEvent where
  name : String
  site : String
  value : Option String
deriving DecidableEq, Repr

namespace ScriptedEvent

/-- The parts before and after the first occurrence of a character. -/
def splitAt? (c : Char) (cs : List Char) : Option (List Char × List Char) :=
  match cs.dropWhile (· ≠ c) with
  | [] => none
  | _ :: rest => some (cs.takeWhile (· ≠ c), rest)

/-- Reads `EVENT@SITE` or `EVENT@SITE=VALUE`. Neither the event nor the site is empty. -/
def ofText? (s : String) : Option ScriptedEvent := do
  let (name, target) ← splitAt? '@' s.toList
  let (site, value) :=
    match splitAt? '=' target with
    | some (site, value) => (site, some (String.ofList value))
    | none => (target, none)
  if name = [] ∨ site = [] then none
  else return ⟨String.ofList name, String.ofList site, value⟩

end ScriptedEvent

structure RunOptions where
  program : String
  trusted : Bool
  quota : Nat
  /-- In milliseconds. -/
  settle : Nat
  cycles : Nat
  events : List ScriptedEvent
deriving DecidableEq, Repr

inductive Command where
  | version
  | run (options : RunOptions)
  | check (program : String)
deriving DecidableEq, Repr

namespace Command

/-- An argument before `--`: an option, perhaps with a value attached, or something positional. A lone `-`
is positional. -/
inductive Argument where
  | option (name : String) (attached : Option String)
  | short
  | positional (s : String)
deriving DecidableEq, Repr

def Argument.ofText (s : String) : Argument :=
  match s.toList with
  | '-' :: '-' :: cs =>
    match ScriptedEvent.splitAt? '=' cs with
    | some (name, value) => .option (String.ofList name) (some (String.ofList value))
    | none => .option (String.ofList cs) none
  | '-' :: _ :: _ => .short
  | _ => .positional s

/-- A natural number in decimal digits. -/
def digits? (cs : List Char) : Option Nat :=
  if cs ≠ [] ∧ cs.all Char.isDigit then some (Decimal.ofDigits cs) else none

/-- A number below `2 ^ 64`, with an optional plus sign. -/
def word? (s : String) : Option Nat := do
  let n ← match s.toList with
    | '+' :: cs => digits? cs
    | cs => digits? cs
  if n < UInt64.size then return n else none

/-- A number below `2 ^ 32`, with an optional sign; a negative zero is zero. -/
def quota? (s : String) : Option Nat := do
  let n ← match s.toList with
    | '-' :: cs => do if (← digits? cs) = 0 then some 0 else none
    | '+' :: cs => digits? cs
    | cs => digits? cs
  if n < UInt32.size then return n else none

/-- What has been read of the arguments of `run`. -/
structure Draft where
  program : Option String := none
  trusted : Bool := false
  quota : Option Nat := none
  settle : Option Nat := none
  cycles : Option Nat := none
  events : List ScriptedEvent := []

namespace Draft

def finish? (d : Draft) : Option RunOptions := do
  return ⟨← d.program, d.trusted, d.quota.getD 5, d.settle.getD 100, d.cycles.getD 50, d.events⟩

def positional? (d : Draft) (s : String) : Option Draft :=
  if d.program.isNone ∧ s ≠ "" then some { d with program := some s } else none

/-- An option that takes a value. Only events may be repeated. -/
def option? (d : Draft) (name value : String) : Option Draft :=
  match name with
  | "quota" => do
    if d.quota.isSome then none
    return { d with quota := some (← quota? value) }
  | "settle-ms" => do
    if d.settle.isSome then none
    return { d with settle := some (← word? value) }
  | "max-cycles" => do
    if d.cycles.isSome then none
    return { d with cycles := some (← word? value) }
  | "event" => do return { d with events := d.events ++ [← ScriptedEvent.ofText? value] }
  | _ => none

def positionals? (d : Draft) : List String → Option Draft
  | [] => some d
  | s :: rest => do (← d.positional? s).positionals? rest

def read? (d : Draft) : List String → Option Draft
  | [] => some d
  | "--" :: rest => d.positionals? rest
  | s :: rest =>
    match Argument.ofText s with
    | .short => none
    | .positional s => do (← d.positional? s).read? rest
    | .option "unsafe" none => if d.trusted then none else { d with trusted := true }.read? rest
    | .option name (some value) => do (← d.option? name value).read? rest
    | .option name none =>
      match rest with
      | [] => none
      | value :: rest =>
        match Argument.ofText value with
        | .positional value => do (← d.option? name value).read? rest
        | _ => none

end Draft

/-- The arguments of a command that has no options. -/
def positionals? : List String → Option (List String)
  | [] => some []
  | "--" :: rest => some rest
  | s :: rest =>
    match Argument.ofText s with
    | .positional s => (s :: ·) <$> positionals? rest
    | _ => none

def check? (arguments : List String) : Option Command :=
  match positionals? arguments with
  | some [s] => if s ≠ "" then some (.check s) else none
  | _ => none

/-- Reads a command line; `none` if it is not one. The version is asked for before any command. -/
def ofArguments? : List String → Option Command
  | "run" :: rest => do return .run (← (← ({} : Draft).read? rest).finish?)
  | "check" :: rest => check? rest
  | "--version" :: _ => some .version
  | s :: _ => if ['-', 'V'].isPrefixOf s.toList then some .version else none
  | [] => none

end Command
end Trellis
