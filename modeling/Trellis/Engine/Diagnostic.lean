import Trellis.Engine.Schedule
import Trellis.Program.Instruction

/-!
# Diagnostics

What an engine tells about its work. Sites, values and modes are given as text.
-/
namespace Trellis

inductive Level where
  | trace
  | debug
  | info
  | warn
  | error
deriving DecidableEq, Repr

def Level.name : Level → String
  | .trace => "TRACE"
  | .debug => "DEBUG"
  | .info => "INFO"
  | .warn => "WARN"
  | .error => "ERROR"

inductive Diagnostic where
  | programLoaded (sections strings constants : Nat)
  | sectionRedefined (label : String)
  | call (site label : String) (mode : Mode)
  | openContainer (site tag : String) (depth : Nat)
  | conditional (site condition : String) (taken : Bool)
  | push (site value : String)
  | pop (site value : String)
  | copy (site : String) (depth : Nat)
  | swap (site : String) (a b : Nat)
  | peek (site : String) (offset : Nat) (value : String)
  | calculate (site operator result : String)
  | compare (site : String) (equal : Bool)
  | listen (site event handler : String)
  | dispatch (event : String) (handlers : Nat)
  | rerender (site : String)
  | rerenderCounted (site : String) (requested quota : Nat)
  | boot
  | renderFinished (cycle elapsed : Nat) (phase : Phase) (again : Bool)
  | failure (kind message : String)
  | displayFailed (message : String)
deriving DecidableEq, Repr

namespace Diagnostic

/-- What a field of a diagnostic holds. -/
inductive Field where
  | count (n : Nat)
  | flag (b : Bool)
  /-- Text of the program. -/
  | quoted (s : String)
  /-- Text made from a value. -/
  | plain (s : String)
deriving DecidableEq, Repr

def level : Diagnostic → Level
  | .sectionRedefined _ => .warn
  | .failure .. => .error
  | .displayFailed _ => .error
  | .conditional .. => .trace
  | .push .. => .trace
  | .pop .. => .trace
  | .copy .. => .trace
  | .swap .. => .trace
  | .peek .. => .trace
  | .calculate .. => .trace
  | .compare .. => .trace
  | _ => .debug

def title : Diagnostic → String
  | .programLoaded .. => "program loaded"
  | .sectionRedefined _ => "code section redefined"
  | .call .. => "call"
  | .openContainer .. => "open container"
  | .conditional .. => "conditional"
  | .push .. => "push"
  | .pop .. => "pop"
  | .copy .. => "copy"
  | .swap .. => "swap"
  | .peek .. => "peek"
  | .calculate .. => "calc"
  | .compare .. => "compare"
  | .listen .. => "listen"
  | .dispatch .. => "dispatch event"
  | .rerender _ => "re-render requested"
  | .rerenderCounted .. => "re-render requested while rendering"
  | .boot => "bootstrap"
  | .renderFinished .. => "render finished"
  | .failure .. => "runtime failure"
  | .displayFailed _ => "failed to show the error display"

def fields : Diagnostic → List (String × Field)
  | .programLoaded sections strings constants =>
    [("sections", .count sections), ("strings", .count strings), ("constants", .count constants)]
  | .sectionRedefined label => [("section", .quoted label)]
  | .call site label mode => [("site", .plain site), ("section", .quoted label), ("mode", .plain mode.label)]
  | .openContainer site tag depth => [("site", .plain site), ("tag", .quoted tag), ("depth", .count depth)]
  | .conditional site condition taken =>
    [("site", .plain site), ("condition", .plain condition), ("taken", .flag taken)]
  | .push site value => [("site", .plain site), ("value", .plain value)]
  | .pop site value => [("site", .plain site), ("value", .plain value)]
  | .copy site depth => [("site", .plain site), ("depth", .count depth)]
  | .swap site a b => [("site", .plain site), ("a", .count a), ("b", .count b)]
  | .peek site offset value => [("site", .plain site), ("offset", .count offset), ("value", .plain value)]
  | .calculate site operator result =>
    [("site", .plain site), ("operator", .quoted operator), ("result", .plain result)]
  | .compare site equal => [("site", .plain site), ("equal", .flag equal)]
  | .listen site event handler => [("site", .plain site), ("event", .quoted event), ("handler", .quoted handler)]
  | .dispatch event handlers => [("event", .quoted event), ("handlers", .count handlers)]
  | .rerender site => [("site", .plain site)]
  | .rerenderCounted site requested quota =>
    [("site", .plain site), ("requested", .count requested), ("quota", .count quota)]
  | .boot => []
  | .renderFinished cycle elapsed phase again =>
    [("cycle", .count cycle), ("elapsed_us", .count elapsed), ("state", .plain phase.name),
      ("rerender", .flag again)]
  | .failure kind message => [("kind", .quoted kind), ("message", .plain message)]
  | .displayFailed message => [("error", .plain message)]

end Diagnostic
end Trellis
