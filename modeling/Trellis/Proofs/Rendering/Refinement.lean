import Trellis.Proofs.Engine.Mount

/-!
# A render shows what the program means

On every engine that a host can reach, and whatever program is loaded into it, a render ends as the evaluator ends on
the main section. Either both are given up as too deep, or both fail with the same fault and the same operands left,
or both end with the same operands and the mounted node holds just the markup that the evaluator has made. Only the
limit on re-renders is not the evaluator's: a render that exceeds it fails although its code has ended.
-/
namespace Trellis.Action

/-- A render shows on the mounted node what the evaluator makes of the main section, and fails as it fails. -/
theorem render_refines_evaluator (n : Nat) {e : Engine} (he : e.Reachable) (hm : e.Mounted) :
    match Evaluation.main ⟨e.resources, e.sections⟩ n with
    | .done p =>
      ∃ e' journal, render n e = .done () e' journal ∧ e'.mount = e.mount ∧ e'.stack = p.stack ∧
        if !e.config.trusted && e'.schedule.storm.exceeded then
          e'.schedule.phase = .failed ∧ e'.report = some (.ofFault (.storm e'.schedule.storm.quota))
        else e'.schedule.phase = .idle ∧ e'.report = none ∧ e'.tree.contents? e.mount = some p.nodes
    | .failed fault stack =>
      ∃ e' journal, render n e = .done () e' journal ∧ e'.mount = e.mount ∧ e'.stack = stack ∧
        e'.schedule.phase = .failed ∧ e'.report = some (.ofFault fault)
    | .tooDeep => render n e = .tooDeep := by
  have hrendered := rendered n he.atRest hm
  generalize Evaluation.main ⟨e.resources, e.sections⟩ n = r at hrendered ⊢
  cases hrendered with
  | shown _ hcalm hrender hmount hstack hcontents =>
    refine ⟨_, _, hrender, hmount, hstack, ?_⟩
    exact Eq.mpr (if_neg (Bool.eq_false_iff.1 hcalm)) ⟨rfl, rfl, hcontents⟩
  | refused hrender hstorm hmount hstack hphase hreport =>
    refine ⟨_, _, hrender, hmount, hstack, ?_⟩
    exact Eq.mpr (if_pos hstorm) ⟨hphase, hreport⟩
  | failed hrender hmount hstack hphase hreport => exact ⟨_, _, hrender, hmount, hstack, hphase, hreport⟩
  | tooDeep hrender => exact hrender

/-- A main section that reads what it has made inside a root container. -/
def listing : Definition where
  label := mainLabel
  renderable := true
  body := [.container (.symbol "wrap") .root
    [.container (.symbol "list") (.named "UL") [.single (.symbol "item") (.element "li")],
      .single (.symbol "seen") .read]]

/-- An engine into which only that section has been loaded. -/
def listed : Engine :=
  { Engine.new { trusted := true } with sections := Sections.define .empty (.ofDefinition listing) }

open Evaluation (element) in
theorem main_listed : Evaluation.main ⟨listed.resources, listed.sections⟩ 3 =
    .done
      ⟨[.text (String.ofList (Markup.writeAll [element "ul" "container-list" [element "li" "elem-item" []]]))],
        [element "ul" "container-list" [element "li" "elem-item" []]]⟩ := by
  have hul : "UL".toLower = "ul" := toLower_eq_of_toList (by decide)
  have hli : "li".toLower = "li" := toLower_eq_of_toList (by decide)
  have hroot : "root".toLower = "root" := toLower_eq_of_toList (by decide)
  simp [Evaluation.main, Evaluation.call, Evaluation.allowed, Evaluation.evaluate, Evaluation.sequence,
    Evaluation.step, Evaluation.perform, Evaluation.Page.add, listed, listing, Sections.find, Sections.define,
    Enclosure.tag, Key.label, Section.ofDefinition, mainLabel, hul, hli, hroot]

open Evaluation (element) in
theorem render_listed :
    listed.Reachable ∧ listed.Mounted ∧ ∃ e' journal, render 3 listed = .done () e' journal ∧
      e'.stack =
        [.text (String.ofList (Markup.writeAll [element "ul" "container-list" [element "li" "elem-item" []]]))] ∧
      e'.schedule.phase = .idle ∧
      e'.tree.contents? .root = some [element "ul" "container-list" [element "li" "elem-item" []]] := by
  have hreach : listed.Reachable := .request 0 (.define listing) (.new { trusted := true }) rfl
  have hmounted : listed.Mounted := ⟨_, rfl, rfl⟩
  have hrender := render_refines_evaluator 3 hreach hmounted
  rw [main_listed] at hrender
  obtain ⟨e', journal, hrun, -, hstack, hend⟩ := hrender
  rw [if_neg (by simp [listed, Engine.new])] at hend
  exact ⟨hreach, hmounted, e', journal, hrun, hstack, hend.1, hend.2.2⟩

end Trellis.Action
