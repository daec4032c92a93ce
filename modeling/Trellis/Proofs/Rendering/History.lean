import Trellis.Proofs.Engine.Depth
import Trellis.Proofs.Engine.Mount
import Trellis.Proofs.Rendering.Bindings

/-!
# A render does not depend on what came before

Nothing that an engine has done earlier shows in a render: not its operands, its focus or its listeners, not what the
mounted node held, not the nodes and sites it has used up, nor an error that it has shown. What is left after a render
is a function of the sections and tables that are loaded, and of these only what look-ups in them find counts.
-/
namespace Trellis

open Tree (Handle Node)
open Evaluation (Loaded)

namespace Evaluation

/-- Every look-up in the one finds what it finds in the other. -/
structure Loaded.Same (l l' : Loaded) : Prop where
  sections : ∀ label, l.sections.get? label = l'.sections.get? label
  strings : ∀ key, l.resources.strings.get? key = l'.resources.strings.get? key
  constants : ∀ key, l.resources.constants.get? key = l'.resources.constants.get? key

namespace Loaded.Same

variable {l l' : Loaded} (h : l.Same l')
include h

theorem find : l.sections.find = l'.sections.find := by
  funext label
  rw [Sections.find, Sections.find, h.sections]

theorem load : Evaluation.load l.resources = Evaluation.load l'.resources := by
  funext stack source
  cases source with
  | string key => rw [Evaluation.load, Evaluation.load, Resources.string, Resources.string, h.strings]
  | constant key => rw [Evaluation.load, Evaluation.load, Resources.constant, Resources.constant, h.constants]
  | stack offset => rfl

theorem call : Evaluation.call l = Evaluation.call l' := by
  funext run label mode place p
  rw [Evaluation.call, Evaluation.call, h.find]

theorem step : Evaluation.step l = Evaluation.step l' := by
  funext run place p i
  cases i with
  | container | conditional => rfl
  | single id operation =>
    rw [Evaluation.step, Evaluation.step]
    cases operation with
    | value | push => rw [perform, perform, h.load]
    | call label mode => rw [perform, perform, h.call]
    | _ => rfl

theorem evaluate (n : Nat) : Evaluation.evaluate l n = Evaluation.evaluate l' n := by
  induction n with
  | zero => rfl
  | succ n ih =>
    funext code place p
    rw [Evaluation.evaluate, Evaluation.evaluate, h.step, ih]

theorem main (n : Nat) : Evaluation.main l n = Evaluation.main l' n := by
  rw [Evaluation.main, Evaluation.main, h.call, h.evaluate]

theorem callBindings : Evaluation.callBindings l = Evaluation.callBindings l' := by
  funext binder label mode place p
  rw [Evaluation.callBindings, Evaluation.callBindings, h.find]

theorem stepBindings : Evaluation.stepBindings l = Evaluation.stepBindings l' := by
  funext binder place p i
  cases i with
  | container | conditional => rfl
  | single id operation =>
    rw [Evaluation.stepBindings, Evaluation.stepBindings]
    cases operation with
    | call label mode => rw [performBindings, performBindings, h.callBindings]
    | _ => rfl

theorem bindings (n : Nat) : Evaluation.bindings l n = Evaluation.bindings l' n := by
  induction n with
  | zero => rfl
  | succ n ih =>
    funext code place p
    rw [Evaluation.bindings, Evaluation.bindings, h.step, h.evaluate, h.stepBindings, ih]

theorem mainBindings (n : Nat) : Evaluation.mainBindings l n = Evaluation.mainBindings l' n := by
  rw [Evaluation.mainBindings, Evaluation.mainBindings, h.callBindings, h.bindings]

end Loaded.Same
end Evaluation

/-- What a host sees of an engine after a render. -/
structure Rendering where
  phase : Phase
  report : Option Report
  /-- What the mounted node holds. -/
  contents : Option (List Markup)
  stack : Operands
  bindings : List Binding

def Engine.rendering (e : Engine) : Rendering where
  phase := e.schedule.phase
  report := e.report
  contents := e.tree.contents? e.mount
  stack := e.stack
  bindings := e.bindings

/-- What the evaluator says that a host sees, unless the code is nested too deep. -/
def Evaluation.rendering? (loaded : Loaded) (n : Nat) : Option Rendering :=
  match main loaded n with
  | .done p => some ⟨.idle, none, some p.nodes, p.stack, mainBindings loaded n⟩
  | .failed fault stack =>
    some ⟨.failed, some (.ofFault fault), some (Report.ofFault fault).display, stack, []⟩
  | .tooDeep => none

theorem Evaluation.Loaded.Same.rendering? {l l' : Loaded} (h : l.Same l') (n : Nat) :
    Evaluation.rendering? l n = Evaluation.rendering? l' n := by
  rw [Evaluation.rendering?, Evaluation.rendering?, h.main, h.mainBindings]

theorem Tree.innerMarkup_eq (t : Tree) (h : Handle) :
    t.innerMarkup h = ((t.contents? h).map fun ms => String.ofList (Markup.writeAll ms)).getD "" := by
  rw [innerMarkup, contents?]
  cases t.find? h with
  | none => rfl
  | some n => rfl

namespace Action

/-- A render that ends, and not because too many re-renders were asked for, leaves what the evaluator says. -/
theorem rendering_of_render {n : Nat} {e e' : Engine} (he : e.Reachable) (hm : e.Mounted)
    (hr : (render n e).engine? = some e') (hs : ∀ r, e'.report = some r → r.kind ≠ "RerenderStormError") :
    Evaluation.rendering? ⟨e.resources, e.sections⟩ n = some e'.rendering := by
  have hrest := he.atRest
  have hrendered := rendered n hrest hm
  unfold Evaluation.rendering?
  generalize Evaluation.main ⟨e.resources, e.sections⟩ n = result at hrendered ⊢
  cases hrendered with
  | @shown p e₁ clock deadline j journal hmain _ hrender hmount hstack hcontents =>
    rw [hrender] at hr
    cases hr
    have hbinds := invoke_main_binds (follows_blank hrest hm) n
    rw [hmain] at hbinds
    have hbound : e₁.bindings = Evaluation.mainBindings ⟨e.resources, e.sections⟩ n := (hbinds nofun).2
    rw [← hmount] at hcontents
    dsimp only
    rw [← hcontents, ← hstack, ← hbound]
    rfl
  | refused hrender _ _ _ _ hreport =>
    rw [hrender] at hr
    cases hr
    exact absurd rfl (hs _ hreport)
  | failed hrender hmount hstack hphase hreport hcontents hlisteners =>
    rw [hrender] at hr
    cases hr
    have hbindings : e'.bindings = [] := by
      rw [Engine.bindings, hlisteners]
      rfl
    rw [Engine.rendering, hphase, hreport, hmount, hcontents, hstack, hbindings]
  | tooDeep hrender =>
    rw [hrender] at hr
    cases hr

/-- Two engines with the same sections and tables, whatever they have done before, are left by a render with the same
state and error, the same markup in the mounted node, the same operands and the same listeners in the same order. -/
theorem render_independent_of_history {m n : Nat} {e₁ e₂ e₁' e₂' : Engine}
    (h₁ : e₁.Reachable) (h₂ : e₂.Reachable) (hm₁ : e₁.Mounted) (hm₂ : e₂.Mounted)
    (hsections : ∀ label, e₁.sections.get? label = e₂.sections.get? label)
    (hstrings : ∀ key, e₁.resources.strings.get? key = e₂.resources.strings.get? key)
    (hconstants : ∀ key, e₁.resources.constants.get? key = e₂.resources.constants.get? key)
    (hr₁ : (render m e₁).engine? = some e₁') (hr₂ : (render n e₂).engine? = some e₂')
    (hs₁ : ∀ r, e₁'.report = some r → r.kind ≠ "RerenderStormError")
    (hs₂ : ∀ r, e₂'.report = some r → r.kind ≠ "RerenderStormError") :
    e₁'.schedule.phase = e₂'.schedule.phase ∧ e₁'.report = e₂'.report ∧
      e₁'.tree.innerMarkup e₁'.mount = e₂'.tree.innerMarkup e₂'.mount ∧ e₁'.stack = e₂'.stack ∧
      e₁'.bindings = e₂'.bindings := by
  -- both renders end in the same way under the greater of the two limits
  have hdeep₁ := (render_deepens (Nat.le_max_left m n)).engine? hr₁
  have hdeep₂ := (render_deepens (Nat.le_max_right m n)).engine? hr₂
  have hsame : Loaded.Same ⟨e₁.resources, e₁.sections⟩ ⟨e₂.resources, e₂.sections⟩ :=
    ⟨hsections, hstrings, hconstants⟩
  have heq : e₁'.rendering = e₂'.rendering := by
    have hleft := rendering_of_render h₁ hm₁ hdeep₁ hs₁
    rw [hsame.rendering?, rendering_of_render h₂ hm₂ hdeep₂ hs₂] at hleft
    exact (Option.some.inj hleft).symm
  refine ⟨congrArg Rendering.phase heq, congrArg Rendering.report heq, ?_, congrArg Rendering.stack heq,
    congrArg Rendering.bindings heq⟩
  have hcontents : e₁'.tree.contents? e₁'.mount = e₂'.tree.contents? e₂'.mount := congrArg Rendering.contents heq
  rw [Tree.innerMarkup_eq, Tree.innerMarkup_eq, hcontents]

/-- A main section that makes an element and binds a handler. -/
def board : Definition where
  label := mainLabel
  renderable := true
  body := [.single (.symbol "note") (.element "p"), .single (.symbol "on") (.listen "click" "gone")]

/-- An engine into which only that section has been loaded. -/
def fresh : Engine :=
  { Engine.new { trusted := true } with sections := Sections.define .empty (.ofDefinition board) }

/-- The same engine after its host has registered a site, moved the focus and pushed a value. -/
def used : Engine :=
  { fresh with sites := ⟨[.root, .symbol "on"]⟩, focus := some .root, stack := [.text "left over"] }

theorem render_independent_of_history_used :
    fresh.Reachable ∧ used.Reachable ∧ ∃ e e', (render 2 fresh).engine? = some e ∧
      (render 3 used).engine? = some e' ∧ e.bindings = [⟨"on", "click", "gone"⟩] ∧ e.bindings = e'.bindings ∧
      e.tree.innerMarkup e.mount = e'.tree.innerMarkup e'.mount ∧ e.stack = e'.stack := by
  have hfresh : fresh.Reachable := .request 0 (.define board) (.new { trusted := true }) rfl
  have hused : used.Reachable :=
    .request 0 (.push 0 (.text "left over"))
      (.request 0 (.focus (some .root)) (.request 0 (.register (.symbol "on")) hfresh rfl) rfl) rfl
  have hrun : (render 2 fresh).engine?.map (fun e => (e.report, e.bindings)) =
      some (none, [⟨"on", "click", "gone"⟩]) := by decide +kernel
  have hrun' : (render 3 used).engine?.map (·.report) = some none := by decide +kernel
  obtain ⟨e, hr, he⟩ := Option.map_eq_some_iff.1 hrun
  obtain ⟨e', hr', he'⟩ := Option.map_eq_some_iff.1 hrun'
  obtain ⟨hreport, hbindings⟩ := Prod.mk.inj he
  obtain ⟨-, -, hmarkup, hstack, hbound⟩ := render_independent_of_history hfresh hused ⟨_, rfl, rfl⟩ ⟨_, rfl, rfl⟩
    (fun _ => rfl) (fun _ => rfl) (fun _ => rfl) hr hr' (by rw [hreport]; nofun) (by rw [he']; nofun)
  exact ⟨hfresh, hused, e, e', hr, hr', hbindings, hbound, hmarkup, hstack⟩

end Action
end Trellis
