import Trellis.Program.Basic

/-!
# Static checks

A program without a `main` section cannot run. Everything else that a check finds is a warning: a reference
to something undefined fails only when it is executed.
-/
namespace Trellis

/-- What an instruction refers to by name or key. -/
inductive Reference where
  | section (label : String)
  | string (key : Int64)
  | constant (key : Int64)
deriving DecidableEq, Repr

def Source.references : Source → List Reference
  | .string key => [.string key]
  | .constant key => [.constant key]
  | .stack _ => []

def Operation.references : Operation → List Reference
  | .call label _ => [.section label]
  | .listen _ handler => [.section handler]
  | .push source => source.references
  | .value _ source => source.references
  | _ => []

mutual

/-- All references of an instruction and of the code it holds, in the order of the code. -/
def Instruction.references : Instruction → List Reference
  | .container _ _ body => Instruction.referencesAll body
  | .conditional _ body => Instruction.referencesAll body
  | .single _ operation => operation.references

def Instruction.referencesAll : List Instruction → List Reference
  | [] => []
  | i :: is => i.references ++ Instruction.referencesAll is

end

namespace Program

inductive Warning where
  | undefinedSection (origin label : String)
  | undefinedString (origin : String) (key : Int64)
  | undefinedConstant (origin : String) (key : Int64)
  | duplicateSection (label : String)
deriving DecidableEq, Repr

def Warning.message : Warning → String
  | .undefinedSection origin label => s!"section `{origin}` references undefined section `{label}`"
  | .undefinedString origin key => s!"section `{origin}` references undefined string {key.toInt}"
  | .undefinedConstant origin key => s!"section `{origin}` references undefined constant {key.toInt}"
  | .duplicateSection label => s!"section `{label}` is defined more than once"

/-- Why a text is not a program that can run. -/
inductive Defect where
  | malformed
  | missingMain
deriving DecidableEq, Repr

def Defect.message : Defect → String
  | .malformed => "malformed program"
  | .missingMain => "no `main` code section found in the program"

/-- The warning about a reference, if the program does not define what it names. -/
def warning? (p : Program) (origin : String) : Reference → Option Warning
  | .section label => if p.defines label then none else some (.undefinedSection origin label)
  | .string key => if p.strings.any (·.1 = key) then none else some (.undefinedString origin key)
  | .constant key => if p.constants.any (·.1 = key) then none else some (.undefinedConstant origin key)

/-- The warnings about sections, given the labels that came before them: a label defined again later is
reported at its first definition, before the section's references. -/
def warningsFrom (p : Program) (before : List String) : List Definition → List Warning
  | [] => []
  | d :: ds =>
    (if d.label ∉ before ∧ d.label ∈ ds.map (·.label) then [.duplicateSection d.label] else []) ++
      (Instruction.referencesAll d.body).filterMap (p.warning? d.label) ++
      warningsFrom p (d.label :: before) ds

def check (p : Program) : Except Defect (List Warning) :=
  if p.defines mainLabel then .ok (p.warningsFrom [] p.sections) else .error .missingMain

end Program
end Trellis
