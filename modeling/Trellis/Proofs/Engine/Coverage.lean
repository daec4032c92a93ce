import Mathlib
import Trellis.Program.Check
import Trellis.Proofs.Engine.Loading
import Trellis.Proofs.Engine.Reachable
import Trellis.Proofs.Engine.Safe

/-!
# The check of a program covers its runs

Code looks names and keys up only when it runs: a call or a handler names a section, a push or a value names a string
or a constant. A program's check looks at the same names without running anything. Here the two are shown to meet. In
an engine into which only one program has been loaded, all code that can run comes from that program, so a look-up
that fails is one for which the check has given a warning.
-/
open Trellis.Tree (Handle)

namespace Trellis
namespace Program

/-- The code of the program holds a reference. -/
def Refers (p : Program) (r : Reference) : Prop := ∃ d ∈ p.sections, r ∈ Instruction.referencesAll d.body

/-- If a fault is about something undefined, there is a warning about the same label or key. -/
def Warned (ws : List Warning) : Fault → Prop
  | .undefinedSection label => ∃ origin, .undefinedSection origin label ∈ ws
  | .undefinedString key => ∃ origin, .undefinedString origin key ∈ ws
  | .undefinedConstant key => ∃ origin, .undefinedConstant origin key ∈ ws
  | _ => True

theorem mem_warningsFrom {p : Program} {r : Reference} {d : Definition} {w : Warning} {ds : List Definition}
    (before : List String) (hd : d ∈ ds) (hr : r ∈ Instruction.referencesAll d.body)
    (hw : p.warning? d.label r = some w) : w ∈ p.warningsFrom before ds := by
  induction ds generalizing before with
  | nil => cases hd
  | cons d' ds ih =>
    rw [warningsFrom, List.mem_append, List.mem_append]
    cases hd with
    | head => exact .inl (.inr (List.mem_filterMap.2 ⟨r, hr, hw⟩))
    | tail _ hd => exact .inr (ih _ hd)

theorem check_eq_ok {p : Program} {ws : List Warning} (h : p.check = .ok ws) :
    p.defines mainLabel = true ∧ ws = p.warningsFrom [] p.sections := by
  unfold check at h
  split at h
  case isTrue hmain =>
    cases h
    exact ⟨hmain, rfl⟩
  case isFalse => cases h

section

variable {p : Program} {ws : List Warning} (hc : p.check = .ok ws)
include hc

/-- The check warns of every reference that it finds undefined. -/
theorem Refers.warning {r : Reference} (hr : p.Refers r) {make : String → Warning}
    (hw : ∀ origin, p.warning? origin r = some (make origin)) : ∃ origin, make origin ∈ ws := by
  obtain ⟨d, hd, hmem⟩ := hr
  exact ⟨d.label, (check_eq_ok hc).2 ▸ mem_warningsFrom [] hd hmem (hw d.label)⟩

theorem Refers.warned_section {label : String} (hr : p.Refers (.section label)) (hn : p.section? label = none) :
    Warned ws (.undefinedSection label) :=
  hr.warning hc fun _ => by simp [warning?, defines_eq, hn]

theorem Refers.warned_string {key : Int64} (hr : p.Refers (.string key))
    (hn : (Table.ofList p.strings).get? key = none) : Warned ws (.undefinedString key) :=
  hr.warning hc fun _ => by simp [warning?, ← Table.isSome_get?_ofList, hn]

theorem Refers.warned_constant {key : Int64} (hr : p.Refers (.constant key))
    (hn : (Table.ofList p.constants).get? key = none) : Warned ws (.undefinedConstant key) :=
  hr.warning hc fun _ => by simp [warning?, ← Table.isSome_get?_ofList, hn]

end
end Program

/-! ### Code of one program -/

/-- The parts of an engine that look-ups and handlers depend on all come from one program, and the last failure was
one for which there is a warning. -/
structure Program.Serves (p : Program) (ws : List Warning) (resources : Resources) (sections : Sections)
    (listeners : List Listener) (report : Option Report) : Prop where
  strings : resources.strings = .ofList p.strings
  constants : resources.constants = .ofList p.constants
  sections : ∀ label, sections.get? label = (p.section? label).map .ofDefinition
  handlers : ∀ l ∈ listeners, p.Refers (.section l.handler)
  report : ∀ r, report = some r → ∃ fault, r = .ofFault fault ∧ Warned ws fault

/-- An engine that runs a program for which a check has given some warnings. -/
def Engine.Runs (p : Program) (ws : List Program.Warning) (e : Engine) : Prop :=
  p.Serves ws e.resources e.sections e.listeners e.report

namespace Action

variable {p : Program} {ws : List Program.Warning} {α : Type}

/-- A fault of the action is none of something undefined, or there is a warning for it. -/
abbrev Covered (p : Program) (ws : List Program.Warning) (x : Action α) : Prop :=
  Safe (Engine.Runs p ws) (Program.Warned ws) x

theorem warned_of_not_lookup {fault : Fault} (h : fault.isLookup = false) : Program.Warned ws fault := by
  cases fault with
  | undefinedSection | undefinedString | undefinedConstant => cases h
  | _ => trivial

theorem covered_onTree (f : Tree → Except Tree.Fault Tree) : Covered p ws (onTree f) := by
  intro e he
  unfold onTree
  split
  · exact he
  · exact ⟨he, trivial⟩

theorem covered_ofTree (f : Tree → Except Tree.Fault α) : Covered p ws (ofTree f) := by
  intro e he
  unfold ofTree
  split
  · exact he
  · exact ⟨he, trivial⟩

/-- What makes output looks nothing up, so that its faults need no warning. -/
theorem writing_covered : Writing fun x => Covered p ws x :=
  { Safe.operative (fun _ _ h => h) fun _ h => warned_of_not_lookup h.isLookup with
    fail := fun _ h => .fail (warned_of_not_lookup h)
    outlook := .get _
    ofTree := covered_ofTree
    make := fun _ _ h => h
    place := fun _ => covered_onTree _
    setText := fun _ _ => covered_onTree _
    release := fun _ => .modify fun _ h => h
    undo := fun _ _ hx => .onFault hx fun _ h => h
    inFrame := fun _ _ hb => .bracket hb (fun _ h => h) fun _ _ h => h
    withFocus := fun _ _ hb => .bracket hb (fun _ h => h) fun _ _ h => h }

/-- A handler that is bound is one that the program refers to. -/
theorem covered_listen (site : Nat) (event : String) {handler : String} (hr : p.Refers (.section handler)) :
    Covered p ws (listen site event handler) := by
  refine writing_covered.listen fun node => .modify fun e he => ?_
  refine { he with handlers := fun l hl => ?_ }
  rcases List.mem_append.1 hl with hl | hl
  · exact he.handlers l hl
  · rw [List.mem_singleton.1 hl]
    exact hr

/-! ### Look-ups -/

/-- A table is read at a key to which the program refers. -/
theorem covered_load (hc : p.check = .ok ws) (site : Nat) {source : Source}
    (hr : ∀ r ∈ source.references, p.Refers r) : Covered p ws (load site source) := by
  cases source with
  | string key =>
    refine .get_bind fun e he => Safe.ofExcept_bind (fun fault h => ?_) (fun s _ => .pure _) e he
    unfold Resources.string at h
    split at h
    · cases h
    case h_2 hn =>
      cases h
      exact (hr _ (.head _)).warned_string hc (he.strings ▸ hn)
  | constant key =>
    refine .get_bind fun e he => Safe.ofExcept_bind (fun fault h => ?_) (fun x _ => .pure _) e he
    unfold Resources.constant at h
    split at h
    · cases h
    case h_2 hn =>
      cases h
      exact (hr _ (.head _)).warned_constant hc (he.constants ▸ hn)
  | stack offset => exact writing_covered.peek site _

/-- A label to which a call may lead: one that is defined or for which there is a warning. -/
def Known (p : Program) (ws : List Program.Warning) (label : String) : Prop :=
  p.section? label = none → Program.Warned ws (.undefinedSection label)

/-- A section that is entered is one of the program's, so that its code refers to what the program refers to. -/
theorem covered_call {run : List Instruction → Action Unit}
    (hrun : ∀ code, (∀ r ∈ Instruction.referencesAll code, p.Refers r) → Covered p ws (run code)) (site : Nat)
    {label : String} (hl : Known p ws label) (mode : Mode) : Covered p ws (call run site label mode) := by
  refine .get_bind fun e he => Safe.ofExcept_bind (fun fault h => ?_) (fun callee h => ?_) e he
  · unfold Sections.find at h
    rw [he.sections label] at h
    cases hs : p.section? label with
    | some d =>
      rw [hs] at h
      cases h
    | none =>
      rw [hs] at h
      cases h
      exact hl hs
  · unfold Sections.find at h
    rw [he.sections label] at h
    cases hs : p.section? label with
    | none =>
      rw [hs] at h
      cases h
    | some d =>
      rw [hs] at h
      cases h
      refine .bind (writing_covered.discipline _ mode) fun _ => ?_
      refine .bind (.get _) fun name => ?_
      refine .bind (.log _) fun _ => .bracket (hrun d.body fun r hr => ?_) (fun _ h => h) fun _ _ h => h
      exact ⟨d, List.mem_reverse.1 (List.mem_of_find?_eq_some hs), hr⟩

theorem known_of_refers (hc : p.check = .ok ws) {label : String} (hr : p.Refers (.section label)) :
    Known p ws label := hr.warned_section hc

theorem covered_perform (hc : p.check = .ok ws) {run : List Instruction → Action Unit}
    (hrun : ∀ code, (∀ r ∈ Instruction.referencesAll code, p.Refers r) → Covered p ws (run code)) (site : Nat)
    {operation : Operation} (hr : ∀ r ∈ operation.references, p.Refers r) :
    Covered p ws (perform run site operation) := by
  cases operation with
  | element tag => exact writing_covered.leaf site tag
  | value raw source => exact .bind (covered_load hc site hr) fun v => writing_covered.value site raw v
  | call label mode => exact covered_call hrun site (known_of_refers hc (hr _ (.head _))) mode
  | listen event handler => exact covered_listen site event (hr _ (.head _))
  | _ =>
    refine writing_covered.quiet rfl run (fun source h => covered_load hc site ?_) (writing_covered.read site) ?_
    · rw [h] at hr
      exact hr
    · exact .rerender (fun _ _ _ h => h) site

theorem covered_step (hc : p.check = .ok ws) {run : List Instruction → Action Unit}
    (hrun : ∀ code, (∀ r ∈ Instruction.referencesAll code, p.Refers r) → Covered p ws (run code))
    {i : Instruction} (hr : ∀ r ∈ i.references, p.Refers r) : Covered p ws (step run i) := by
  have hsite : Covered p ws (resolve i.id) := fun _ h => h
  refine .bind hsite fun site => ?_
  cases i with
  | container id enclosure body =>
    rw [Instruction.references] at hr
    exact writing_covered.container site enclosure (hrun body hr)
  | conditional id body =>
    rw [Instruction.references] at hr
    exact writing_covered.conditional site (hrun body hr)
  | single id operation =>
    rw [Instruction.references] at hr
    exact covered_perform hc hrun site hr

/-- Code that refers only to what the program refers to, by induction on its nesting: what a call enters is again such
code. -/
theorem covered_execute (hc : p.check = .ok ws) (n : Nat) (code : List Instruction)
    (hr : ∀ r ∈ Instruction.referencesAll code, p.Refers r) : Covered p ws (execute n code) := by
  induction n generalizing code with
  | zero => exact fun _ _ => trivial
  | succ n ih =>
    rw [execute]
    induction code with
    | nil => exact .pure ()
    | cons i code ihcode =>
      rw [Instruction.referencesAll] at hr
      refine .bind (covered_step hc ih fun r h => hr r (List.mem_append_left _ h)) fun _ => ?_
      exact ihcode fun r h => hr r (List.mem_append_right _ h)

theorem covered_invoke (hc : p.check = .ok ws) (n site : Nat) {label : String} (hl : Known p ws label)
    (mode : Mode) : Covered p ws (invoke n site label mode) := covered_call (covered_execute hc n) site hl mode

/-! ### Requests -/

theorem covered_recover {fault : Fault} (hf : Program.Warned ws fault) : Covered p ws (recover fault) := by
  have hend : Covered p ws (modify fun e => { e with report := some (.ofFault fault) }) :=
    .modify fun e he => { he with report := fun r hr => ⟨fault, (Option.some.inj hr).symm, hf⟩ }
  refine .bind (.log _) fun _ => ?_
  refine .bind (.modify fun e he => { he with handlers := nofun }) fun _ => ?_
  refine .attempt_bind ?_ (fun _ => .bind (.pure ()) fun _ => hend) fun _ _ => .bind (.log _) fun _ => hend
  exact writing_covered.showError (fun _ => covered_onTree _) _

theorem covered_renderPass (hc : p.check = .ok ws) (n : Nat) : Covered p ws (renderPass n) := by
  have hmain : Known p ws mainLabel := by
    intro hn
    have hdefined := (Program.check_eq_ok hc).1
    rw [Program.defines_eq, hn] at hdefined
    cases hdefined
  refine .bind (.get _) fun mount => ?_
  refine .bind (covered_onTree _) fun _ => ?_
  refine .bind (covered_onTree _) fun _ => ?_
  refine .bind (covered_onTree _) fun _ => ?_
  refine .bind (.modify fun e he => { he with handlers := nofun }) fun _ => ?_
  refine .bind (covered_invoke hc n _ hmain _) fun _ => ?_
  refine .bind (.get _) fun e => .ite ?_ (.pure ())
  exact .bind (.modify fun _ h => h) fun _ => .fail trivial

theorem covered_time : Covered p ws time := fun _ h => h

theorem covered_finish (started : Nat) : Covered p ws (finish started) := by
  refine .bind (.bind (.get _) fun pending => .ite ?_ (.pure ())) fun _ => ?_
  · exact .bind covered_time fun now => .modify fun _ h => h
  · exact .bind covered_time fun ended => .bind (.get _) fun _ => .log _

theorem covered_render (hc : p.check = .ok ws) (n : Nat) : Covered p ws (render n) := by
  refine .bind covered_time fun started => ?_
  refine .bind (.modify fun _ h => h) fun _ => ?_
  refine .attempt_bind (covered_renderPass hc n) (fun _ => ?_) fun fault hf => ?_
  · exact .bind (.modify fun e he => { he with report := nofun }) fun _ => covered_finish started
  · exact .bind (covered_recover hf) fun _ => covered_finish started

theorem covered_boot (hc : p.check = .ok ws) (n : Nat) (mount : Handle) : Covered p ws (boot n mount) := by
  refine .bind (.modify fun _ h => h) fun _ => ?_
  refine .bind (.log _) fun _ => ?_
  -- the `init` section is entered only where it is defined
  refine .get_bind fun e he => ?_
  dsimp only
  split
  case isTrue hdefined =>
    have hinit : Known p ws initLabel := by
      intro hn
      rw [Table.contains, he.sections, hn] at hdefined
      cases hdefined
    exact Safe.attempt_bind (covered_invoke hc n _ hinit _) (fun _ => covered_render hc n)
      (fun _ hf => covered_recover hf) e he
  case isFalse => exact Safe.bind (.pure (.ok () : Except Fault Unit)) (fun _ => covered_render hc n) e he

theorem covered_poll (hc : p.check = .ok ws) (n : Nat) : Covered p ws (poll n) := by
  refine .bind covered_time fun now => ?_
  refine .bind (.modify fun _ h => h) fun _ => .bind (.get _) fun e => .ite ?_ (.pure _)
  refine .bind (.modify fun _ h => h) fun _ => ?_
  exact .bind (covered_render hc n) fun _ => .pure _

theorem covered_deliver (hc : p.check = .ok ws) (n : Nat) (target : Handle) {ls : List Listener}
    (hls : ∀ l ∈ ls, p.Refers (.section l.handler)) : Covered p ws (deliver n target ls) := by
  induction ls with
  | nil => exact .pure _
  | cons l ls ih =>
    have hl := known_of_refers hc (hls l (.head _))
    refine .attempt_bind (writing_covered.withFocus target (covered_invoke hc n _ hl _)) (fun _ => ?_)
      fun fault hf => ?_
    · exact .bind (ih fun l h => hls l (.tail _ h)) fun _ => .pure _
    · exact .bind (covered_recover hf) fun _ => .pure _

theorem covered_dispatch (hc : p.check = .ok ws) (n : Nat) (target : Handle) (event : String) :
    Covered p ws (dispatch n target event) := by
  refine .get_bind fun e he => Safe.bind (.log _) (fun _ => covered_deliver hc n target fun l hl => ?_) e he
  obtain ⟨node, -, hl⟩ := List.mem_flatMap.1 hl
  exact he.handlers l (List.mem_filter.1 hl).1

end Action

/-- A request that brings neither code nor tables of its own. -/
def Request.Plays : Request → Prop
  | .boot _ | .render | .poll | .dispatch .. | .advance _ | .lapse _ => True
  | .edit _ | .focus _ | .register _ | .trust _ => True
  | _ => False

theorem Request.covered {p : Program} {ws : List Program.Warning} (hc : p.check = .ok ws) (n : Nat) {r : Request}
    (hr : r.Plays) : Action.Covered p ws (r.run n) := by
  cases r with
  | boot mount => exact Action.covered_boot hc n mount
  | render => exact Action.covered_render hc n
  | poll => exact .bind (Action.covered_poll hc n) fun _ => .pure ()
  | dispatch target event => exact .bind (Action.covered_dispatch hc n target event) fun _ => .pure ()
  | advance | lapse | edit | focus | trust => exact .modify fun _ h => h
  | register key =>
    have hkey : Action.Covered p ws (Action.resolve key) := fun _ h => h
    exact .bind hkey fun _ => .pure ()
  | _ => cases hr

namespace Engine

/-- The engines of the runs that load a program into a new engine and play it. -/
inductive Playing (p : Program) : Engine → Prop
  | load {e : Engine} (config : Config) (hr : (Action.loadProgram p (.new config)).engine? = some e) : Playing p e
  | request {e e' : Engine} (n : Nat) (r : Request) (he : Playing p e) (hp : r.Plays)
      (hr : (r.run n e).engine? = some e') : Playing p e'

theorem Playing.runs {p : Program} {ws : List Program.Warning} (hc : p.check = .ok ws) {e : Engine}
    (he : e.Playing p) : e.Runs p ws := by
  induction he with
  | load config hr =>
    obtain ⟨journal, hload⟩ := Action.loadProgram_eq p (.new config)
    rw [hload] at hr
    cases hr
    refine ⟨rfl, rfl, fun label => ?_, nofun, nofun⟩
    rw [get?_loaded]
    exact Option.or_none
  | request n r _ hp hr ih => exact (Request.covered hc n hp _ ih).leaves.engine hr

end Engine

namespace Fault

theorem message_undefinedSection (label : String) :
    (undefinedSection label).message = "cannot call undefined code section `" ++ label ++ "`" := rfl

theorem message_undefinedString (key : Int64) :
    (undefinedString key).message = "string " ++ key.toInt.repr ++ " not found" := rfl

theorem message_undefinedConstant (key : Int64) :
    (undefinedConstant key).message = "constant " ++ key.toInt.repr ++ " not found" := rfl

theorem message_string_ne_constant (key key' : Int64) :
    (undefinedString key).message ≠ (undefinedConstant key').message := by
  intro h
  rw [message_undefinedString, message_undefinedConstant, String.append_left_inj] at h
  have hhead : some 's' = some 'c' := by simpa using congrArg (·.toList.head?) h
  cases hhead

end Fault

/-- A report about something undefined tells which label or key it is about. -/
theorem Program.Warned.of_report {ws : List Program.Warning} {fault fault' : Fault} (h : Program.Warned ws fault')
    (hr : Report.ofFault fault = .ofFault fault') : Program.Warned ws fault := by
  have hkind : fault.kind = fault'.kind := congrArg Report.kind hr
  have hmessage : fault.message = fault'.message := congrArg Report.message hr
  cases fault with
  | undefinedSection label =>
    cases fault' with
    | undefinedSection label' =>
      rw [Fault.message_undefinedSection, Fault.message_undefinedSection, String.append_left_inj,
        String.append_right_inj] at hmessage
      exact hmessage ▸ h
    | _ => simp [Fault.kind] at hkind
  | undefinedString key =>
    cases fault' with
    | undefinedString key' =>
      rw [Fault.message_undefinedString, Fault.message_undefinedString, String.append_left_inj,
        String.append_right_inj, Int.repr_inj, Int64.toInt_inj] at hmessage
      exact hmessage ▸ h
    | undefinedConstant key' => exact absurd hmessage (Fault.message_string_ne_constant key key')
    | _ => simp [Fault.kind] at hkind
  | undefinedConstant key =>
    cases fault' with
    | undefinedConstant key' =>
      rw [Fault.message_undefinedConstant, Fault.message_undefinedConstant, String.append_left_inj,
        String.append_right_inj, Int.repr_inj, Int64.toInt_inj] at hmessage
      exact hmessage ▸ h
    | undefinedString key' => exact absurd hmessage.symm (Fault.message_string_ne_constant key' key)
    | _ => simp [Fault.kind] at hkind
  | _ => trivial

namespace Program

/-- Whatever is done with an engine that plays only this program, a failure for an undefined section, string or
constant is one that the check has warned of; after a check without warnings there is no such failure. -/
theorem check_covers_failures {p : Program} {ws : List Warning} (hc : p.check = .ok ws) {e : Engine}
    (he : e.Playing p) :
    (∀ label, e.report = some (.ofFault (.undefinedSection label)) → ∃ origin, .undefinedSection origin label ∈ ws) ∧
      (∀ key, e.report = some (.ofFault (.undefinedString key)) → ∃ origin, .undefinedString origin key ∈ ws) ∧
      (∀ key, e.report = some (.ofFault (.undefinedConstant key)) →
        ∃ origin, .undefinedConstant origin key ∈ ws) ∧
      (ws = [] → ∀ r, e.report = some r → r.kind ≠ "UndefinedSectionError" ∧ r.kind ≠ "UndefinedResourceError") := by
  have hwarned : ∀ fault, e.report = some (.ofFault fault) → Warned ws fault := by
    intro fault hf
    obtain ⟨fault', hr, hw⟩ := (he.runs hc).report _ hf
    exact hw.of_report hr
  refine ⟨fun label h => hwarned _ h, fun key h => hwarned _ h, fun key h => hwarned _ h, ?_⟩
  rintro rfl r hr
  obtain ⟨fault, rfl, hw⟩ := (he.runs hc).report r hr
  cases fault with
  | undefinedSection | undefinedString | undefinedConstant =>
    obtain ⟨origin, hmem⟩ := hw
    cases hmem
  | _ => exact ⟨by simp [Report.ofFault, Fault.kind], by simp [Report.ofFault, Fault.kind]⟩

/-- A main section that binds a handler which no section defines. -/
def dangling : Program where
  sections := [⟨mainLabel, true, [.single (.symbol "on") (.listen "click" "gone")]⟩]

/-- Rendering it succeeds; the handler is missed when its event comes. -/
theorem check_covers_failures_dangling :
    dangling.check = .ok [.undefinedSection mainLabel "gone"] ∧
      ∃ e : Engine, e.Playing dangling ∧ e.report = some (.ofFault (.undefinedSection "gone")) ∧
        ∃ origin, .undefinedSection origin "gone" ∈ [Warning.undefinedSection mainLabel "gone"] := by
  have hc : dangling.check = .ok [.undefinedSection mainLabel "gone"] := by decide
  have hrun : ((Request.render.run 2 ((Engine.new {}).loaded dangling)).engine?.bind fun e =>
      ((Request.dispatch .root "click").run 2 e).engine?).map (·.report) =
        some (some (.ofFault (.undefinedSection "gone"))) := by decide +kernel
  obtain ⟨e, hrun, hreport⟩ := Option.map_eq_some_iff.1 hrun
  obtain ⟨e', hrender, hdispatch⟩ := Option.bind_eq_some_iff.1 hrun
  have hload : Engine.Playing dangling ((Engine.new {}).loaded dangling) := by
    obtain ⟨journal, h⟩ := Action.loadProgram_eq dangling (.new {})
    exact .load {} (congrArg Outcome.engine? h)
  have hplaying := hload.request 2 .render trivial hrender |>.request 2 (.dispatch .root "click") trivial hdispatch
  exact ⟨hc, e, hplaying, hreport, (check_covers_failures hc hplaying).1 "gone" hreport⟩

end Program
end Trellis
