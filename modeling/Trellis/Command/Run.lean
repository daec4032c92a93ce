import Trellis.Command.Arguments
import Trellis.Engine.Host
import Trellis.Program.Check
import Trellis.Program.Decode
import Trellis.Text.Quoted
import Trellis.Text.Terminal

/-!
# Carrying out commands

A command reads at most one file. What it prints, the lines it logs and its exit status depend on the
command and on that file alone: a program runs on a clock that jumps to each deadline.
-/
namespace Trellis

/-- Why a file cannot be read as text. -/
inductive FileFault where
  | missing
  | denied
  | directory
  | notDirectory
  | nameTooLong
  | notText
deriving DecidableEq, Repr

def FileFault.message : FileFault → String
  | .missing => "No such file or directory (os error 2)"
  | .denied => "Permission denied (os error 13)"
  | .notDirectory => "Not a directory (os error 20)"
  | .directory => "Is a directory (os error 21)"
  | .nameTooLong => "File name too long (os error 36)"
  | .notText => "stream did not contain valid UTF-8"

/-- A line of the log. -/
structure LogLine where
  level : Level
  text : String
  fields : List (String × Diagnostic.Field) := []
deriving Repr

namespace LogLine

def fieldText : Diagnostic.Field → String
  | .count n => toString n
  | .flag b => toString b
  | .quoted s => Trellis.quoted s
  | .plain s => s

/-- A field called `message` is written without its name and for a terminal, as the line's own text is. -/
def writeField (f : String × Diagnostic.Field) : String :=
  if f.1 = "message" then " " ++ forTerminal (fieldText f.2) else " " ++ f.1 ++ "=" ++ fieldText f.2

def write (l : LogLine) : String :=
  l.level.name ++ " " ++ forTerminal l.text ++ String.join (l.fields.map writeField)

/-- The line of a diagnostic; traces and debugging are not logged. -/
def ofDiagnostic? (d : Diagnostic) : Option LogLine :=
  match d.level with
  | .trace => none
  | .debug => none
  | level => some ⟨level, d.title, d.fields⟩

end LogLine

structure Transcript where
  status : Nat
  output : String := ""
  log : List LogLine := []
deriving Repr

namespace Command

/-- How deep a program's code may be nested. -/
def depthLimit : Nat := 100000

/-- What a run has logged and left so far; the engine is missing once code was nested too deep. -/
structure Session where
  engine : Option Engine
  log : List LogLine

namespace Session

/-- Runs an action that no fault ends. -/
def act {α : Type} (s : Session) (x : Action α) : Option α × Session :=
  match s.engine with
  | none => (none, s)
  | some e =>
    match x e with
    | .done a e journal => (some a, ⟨some e, s.log ++ journal.filterMap LogLine.ofDiagnostic?⟩)
    | .failed _ e journal => (none, ⟨some e, s.log ++ journal.filterMap LogLine.ofDiagnostic?⟩)
    | .tooDeep => (none, ⟨none, s.log ++ [⟨.error, "code is nested too deep", []⟩]⟩)

def note (s : Session) (l : LogLine) : Session := { s with log := s.log ++ [l] }

/-- Renders until nothing is left to do, at most `cycles` times. -/
def settle (s : Session) (cycles : Nat) : Session :=
  match s.act (Action.settle depthLimit cycles) with
  | (some false, s) => s.note ⟨.warn, "output did not settle", [("max_cycles", .count cycles)]⟩
  | (_, s) => s

/-- Fires a scripted event and lets the output settle. -/
def fire (s : Session) (cycles : Nat) (event : ScriptedEvent) : Session :=
  match s.engine with
  | none => s
  | some e =>
    match e.tree.findByAttribute? Action.siteAttribute event.site with
    | none => s.note ⟨.warn, "no node for scripted event", [("xid", .plain event.site)]⟩
    | some target =>
      let s :=
        match event.value with
        | none => s
        | some value =>
          match e.tree.setInput target value with
          | .ok tree => { s with engine := some { e with tree } }
          | .error fault =>
            s.note ⟨.warn, "cannot set input value: " ++ fault.message, [("xid", .plain event.site)]⟩
      match s.act (Action.dispatch depthLimit target event.name) with
      | (some handled, s) =>
        (s.note ⟨.info, "event delivered",
          [("event", .plain event.name), ("xid", .plain event.site), ("handled", .count handled)]⟩).settle cycles
      | (none, s) => s

end Session

/-- Loads a program and its warnings from the text of a file. -/
def load (path : String) (source : Except FileFault String) : Option Program × List LogLine :=
  match source with
  | .error fault => (none, [⟨.error, "failed to read `" ++ path ++ "`: " ++ fault.message, []⟩])
  | .ok text =>
    match Program.ofText? text with
    | none => (none, [⟨.error, Program.Defect.malformed.message, []⟩])
    | some p =>
      match p.check with
      | .error defect => (none, [⟨.error, defect.message, []⟩])
      | .ok warnings => (some p, warnings.map fun w => ⟨.warn, w.message, []⟩)

def runProgram (options : RunOptions) (p : Program) (log : List LogLine) : Transcript :=
  let config : Config :=
    { quota := options.quota, settle := options.settle * 1000000, trusted := options.trusted }
  let (_, s) := (Session.mk (some (.new config)) log).act (Action.loadProgram p)
  let (_, s) := s.act (Action.boot depthLimit .root)
  let s := options.events.foldl (fun s event => s.fire options.cycles event) (s.settle options.cycles)
  match s.engine with
  | none => ⟨134, "", s.log⟩
  | some e =>
    ⟨if e.schedule.phase = .failed then 1 else 0, e.tree.markup .root ++ "\n", s.log⟩

/-- The file that a command reads. -/
def file? : Command → Option String
  | .version => none
  | .run options => some options.program
  | .check program => some program

/-- Carries out a command, given what reading its file gave. -/
def perform (source : Except FileFault String) : Command → Transcript
  | .version => { status := 0, output := "arbor 0.1.0\n" }
  | .check path =>
    match load path source with
    | (none, log) => { status := 2, log }
    | (some p, log) =>
      let line : LogLine := ⟨.info, path ++ " is valid", [("sections", .count p.sections.length)]⟩
      { status := 0, log := log ++ [line] }
  | .run options =>
    match load options.program source with
    | (none, log) => { status := 2, log }
    | (some p, log) => runProgram options p log

end Command
end Trellis
