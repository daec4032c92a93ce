import Trellis.Proofs.Engine.Nesting

/-!
# Who may call whom

Whether a section may be entered under the renderable mode is decided by the section to which the innermost frame
belongs, which need not be the one that makes the call. Code is reached through a chain of containers, conditionals and
calls. The chain alone tells which section is running and to which section the innermost frame belongs, however the
engine has come there. The two are equally renderable if the running section was itself entered under the renderable
mode, or if it has opened a frame around the call; otherwise it is judged by the frame in which it was called.
-/
namespace Trellis

open Tree (Handle)

/-! ### Chains -/

/-- What code is nested in, innermost first. -/
abbrev Entries := List Entry

namespace Entries

/-- The mode and the section of the code: those of the innermost call, or the host's own. -/
def context : Entries → Context
  | [] => ⟨.any, .root⟩
  | .call context :: _ => context
  | _ :: rest => context rest

/-- Whether the running section has opened a frame around the code. -/
def framed : Entries → Bool
  | [] => true
  | .call _ :: _ => false
  | .conditional :: _ => true
  | .container :: rest => !(context rest).plain || framed rest

/-- What the call of the running section is nested in. -/
def outer : Entries → Entries
  | [] => []
  | .call _ :: rest => rest
  | _ :: rest => outer rest

/-- The section to which the innermost frame around the code belongs. -/
def owner : Entries → Section
  | [] => .root
  | .call _ :: rest => owner rest
  | .conditional :: rest => (context rest).code
  | .container :: rest => if (context rest).plain then owner rest else (context rest).code

/-- Every call of the chain was allowed where it was made. -/
def Lawful : Entries → Prop
  | [] => True
  | .call context :: rest =>
    Evaluation.allowed (owner rest).renderable context.code context.mode = true ∧ Lawful rest
  | _ :: rest => Lawful rest

/-- The running section's own frames come before those it was called in. -/
theorem owner_eq (chain : Entries) :
    chain.owner = if chain.framed then chain.context.code else chain.outer.owner := by
  induction chain with
  | nil => rfl
  | cons entry rest ih =>
    cases entry with
    | call context => rfl
    | conditional => rfl
    | container =>
      simp only [owner, framed, context, outer]
      by_cases hplain : (Entries.context rest).plain = true
      · simpa [hplain] using ih
      · simp [hplain]

/-- A section that was entered under the renderable mode is as renderable as the owner of the innermost frame. -/
theorem Lawful.renderable_eq {chain : Entries} (h : chain.Lawful)
    (hm : chain.framed = true ∨ chain.context.mode = .renderable) :
    chain.owner.renderable = chain.context.code.renderable := by
  induction chain with
  | nil => rfl
  | cons entry rest ih =>
    cases entry with
    | conditional => rfl
    | call context =>
      obtain ⟨mode, callee⟩ := context
      obtain rfl : mode = .renderable := hm.resolve_left Bool.false_ne_true
      exact of_decide_eq_true h.1
    | container =>
      simp only [owner, framed, context] at hm ⊢
      by_cases hplain : (Entries.context rest).plain = true
      · rw [if_pos hplain]
        exact ih h (by simpa [hplain] using hm)
      · rw [if_neg hplain]

end Entries

/-! ### Engines inside a chain -/

/-- The engine runs code that is nested in the chain. -/
structure Stands (chain : Entries) (e : Engine) : Prop where
  context : e.context = chain.context
  owner : e.frames.head?.map (·.owner) = some chain.owner
  lawful : chain.Lawful

namespace Stands

variable {chain : Entries} {e e' : Engine}

theorem of_atRest (h : e.AtRest) : Stands [] e :=
  ⟨h.context, by rw [h.frames]; rfl, trivial⟩

theorem of_confined (h : Stands chain e) (hc : Confined e e') : Stands chain e' :=
  ⟨hc.context.trans h.context, by rw [hc.frames, h.owner], h.lawful⟩

theorem registered (h : Stands chain e) (key : Key) : Stands chain (e.registered key) :=
  ⟨h.context, h.owner, h.lawful⟩

/-- The check of a call is decided by the chain. -/
theorem discipline_eq (h : Stands chain e) (callee : Section) (mode : Mode) :
    Action.discipline callee mode e =
      if Evaluation.allowed chain.owner.renderable callee mode then .done () e []
      else .failed (.callDiscipline callee.label mode) e [] := by
  obtain ⟨frame, hframe, howner⟩ := Option.map_eq_some_iff.1 h.owner
  rw [Action.discipline_of_frame hframe, howner]

theorem container {site : Nat} {enclosure : Enclosure} (h : Stands chain e)
    (hh : Action.Hands (Action.container site enclosure) e e') : Stands (.container :: chain) e' := by
  have hinner := (Action.nests_container site enclosure e).holds hh
  rw [h.context] at hinner
  cases hplain : chain.context.plain with
  | true =>
    rw [hplain, if_pos rfl] at hinner
    subst hinner
    refine ⟨h.context, ?_, h.lawful⟩
    rw [Entries.owner, hplain, if_pos rfl, h.owner]
  | false =>
    rw [hplain, if_neg Bool.false_ne_true] at hinner
    obtain ⟨frame, howner, hframes⟩ := hinner.frames
    refine ⟨hinner.context.trans h.context, ?_, h.lawful⟩
    rw [Entries.owner, hplain, if_neg Bool.false_ne_true, hframes, ← h.context, ← howner]
    rfl

theorem conditional {site : Nat} (h : Stands chain e) (hh : Action.Hands (Action.conditional site) e e') :
    Stands (.conditional :: chain) e' := by
  have hinner := (Action.nests_conditional site e).holds hh
  obtain ⟨frame, howner, hframes⟩ := hinner.frames
  refine ⟨hinner.context.trans h.context, ?_, h.lawful⟩
  rw [Entries.owner, hframes, ← h.context, ← howner]
  rfl

theorem call {label : String} {mode : Mode} {callee : Section} {body : List Instruction} (h : Stands chain e)
    (ha : Action.Admits e label mode callee body) :
    Stands (.call ⟨mode, callee⟩ :: chain) { e with context := ⟨mode, callee⟩ } := by
  have hallowed := ha.allowed
  rw [h.discipline_eq] at hallowed
  refine ⟨rfl, h.owner, ?_, h.lawful⟩
  split at hallowed
  case isTrue hyes => exact hyes
  case isFalse => cases hallowed

/-- One step further inside. -/
theorem enters {i : Instruction} {entry : Entry} {body : List Instruction} (h : Stands chain e)
    (hin : Enters e i entry body e') : Stands (entry :: chain) e' := by
  cases hin with
  | container hh => exact (h.registered _).container hh
  | conditional hh => exact (h.registered _).conditional hh
  | call ha => exact (h.registered _).call ha

end Stands

/-! ### Runs -/

/-- Running the code on `e`, inside the chain, comes to the instruction on `e'`, inside the longer chain. -/
inductive Reaches : Nat → Entries → List Instruction → Engine → Entries → Instruction → Engine → Prop
  | first {n : Nat} {chain : Entries} {i : Instruction} {code : List Instruction} {e : Engine} :
    Reaches (n + 1) chain (i :: code) e chain i e
  | next {n : Nat} {chain chain' : Entries} {i i' : Instruction} {code : List Instruction} {e e₁ e' : Engine}
    {j : List Diagnostic} (h : Action.step (Action.execute n) i e = .done () e₁ j)
    (hr : Reaches (n + 1) chain code e₁ chain' i' e') : Reaches (n + 1) chain (i :: code) e chain' i' e'
  | inside {n : Nat} {chain chain' : Entries} {i i' : Instruction} {code body : List Instruction} {entry : Entry}
    {e e₁ e' : Engine} (h : Enters e i entry body e₁) (hr : Reaches n (entry :: chain) body e₁ chain' i' e') :
    Reaches (n + 1) chain (i :: code) e chain' i' e'

theorem Reaches.stands {n : Nat} {chain chain' : Entries} {code : List Instruction} {i : Instruction} {e e' : Engine}
    (hr : Reaches n chain code e chain' i e') (h : Stands chain e) : Stands chain' e' := by
  induction hr with
  | first => exact h
  | @next n _ _ i _ _ e _ _ _ hstep _ ih =>
    have hconfined := Action.stable_confined.closed.step (Action.stable_confined.closed.execute n) i e
    rw [hstep] at hconfined
    exact ih (h.of_confined hconfined)
  | inside hin _ ih => exact ih (h.enters hin)

namespace Request

/-- A request on `e` comes to a call of a label on `e'`, which is made by the host itself or by code in the chain. -/
inductive Makes (n : Nat) (e : Engine) (r : Request) : Entries → String → Mode → Engine → Prop
  | host {label : String} {mode : Mode} {e' : Engine} (h : r.Calls n e label mode e') : Makes n e r [] label mode e'
  | code {entry : Option Entry} {code : List Instruction} {e₁ e' : Engine} {chain : Entries} {id : Key}
    {label : String} {mode : Mode} (hs : r.Starts n e entry code e₁)
    (hr : Reaches n entry.toList code e₁ chain (.single id (.call label mode)) e') :
    Makes n e r chain label mode (e'.registered id)

variable {n : Nat} {r : Request} {e e' : Engine}

theorem Calls.stands {label : String} {mode : Mode} (hc : r.Calls n e label mode e') (he : e.AtRest) :
    Stands [] e' :=
  .of_atRest (hc.related Action.hosted_rests.staged Action.hosted_rests.focus he)

theorem Starts.stands {entry : Option Entry} {code : List Instruction} (hs : r.Starts n e entry code e')
    (he : e.AtRest) : Stands entry.toList e' := by
  cases hs with
  | execute => exact .of_atRest he
  | container h => exact (Stands.of_atRest he).container h
  | conditional h => exact (Stands.of_atRest he).conditional h
  | call hc h => exact (hc.stands he).call h

theorem Makes.stands {chain : Entries} {label : String} {mode : Mode} (hm : r.Makes n e chain label mode e')
    (he : e.AtRest) : Stands chain e' := by
  cases hm with
  | host hc => exact hc.stands he
  | code hs hr => exact (hr.stands (hs.stands he)).registered _

end Request

/-! ### Calls that are made -/

namespace Action

/-- Tells of a call that has passed the check, and runs the section. -/
def enter (run : List Instruction → Action Unit) (site : Nat) (label : String) (mode : Mode) (callee : Section) :
    Action Unit := do
  log (.call (← Action.label site) label mode)
  match callee.body with
  | none => pure ()
  | some body => withContext ⟨mode, callee⟩ (run body)

theorem call_of_found {run : List Instruction → Action Unit} {site : Nat} {label : String} {mode : Mode} {e : Engine}
    {callee : Section} (hf : e.sections.find label = .ok callee) :
    call run site label mode e = (discipline callee mode >>= fun _ => enter run site label mode callee) e := by
  unfold call
  rw [bind_of_done (x := get _) rfl, Outcome.after_nil, hf, bind_of_done (x := ofExcept _) rfl, Outcome.after_nil]
  rfl

end Action

theorem Stands.call_eq {chain : Entries} {e : Engine} (h : Stands chain e) {run : List Instruction → Action Unit}
    {site : Nat} {label : String} {mode : Mode} {callee : Section} (hf : e.sections.find label = .ok callee) :
    Action.call run site label mode e =
      if Evaluation.allowed chain.owner.renderable callee mode then Action.enter run site label mode callee e
      else .failed (.callDiscipline callee.label mode) e [] := by
  have hd := h.discipline_eq callee mode
  rw [Action.call_of_found hf]
  by_cases hallowed : Evaluation.allowed chain.owner.renderable callee mode = true
  · rw [if_pos hallowed] at hd ⊢
    rw [Action.bind_of_done hd, Outcome.after_nil]
  · rw [if_neg hallowed] at hd ⊢
    rw [Action.bind_of_failed hd]

/-- Caller discipline. Wherever the host or code makes a call of a section in the course of a request, and through
whatever chain of containers, conditionals and calls it has come there, the call is decided by the mode, the section
and the owner of the innermost frame, which the chain tells. Under the callable mode the section must not be
renderable, under the mode that takes any it may be either, and under the renderable mode it must be as renderable as
the owner. The owner is the running section if that has opened a frame around the call, and else the owner where the
running section was called. It is as renderable as the running section in the first case, and also if that was entered
under the renderable mode. -/
theorem discipline_decided_by_frame {e : Engine} (he : e.Reachable) {n : Nat} {r : Request} {chain : Entries}
    {label : String} {mode : Mode} {e' : Engine} (hm : r.Makes n e chain label mode e') {callee : Section}
    (hf : e'.sections.find label = .ok callee) :
    e'.context = chain.context ∧
      (∀ run site, Action.call run site label mode e' =
        if Evaluation.allowed chain.owner.renderable callee mode then Action.enter run site label mode callee e'
        else .failed (.callDiscipline callee.label mode) e' []) ∧
      chain.owner = (if chain.framed then chain.context.code else chain.outer.owner) ∧
      (chain.framed = true ∨ chain.context.mode = .renderable →
        chain.owner.renderable = chain.context.code.renderable) := by
  have hstands := hm.stands he.atRest
  exact ⟨hstands.context, fun _ _ => hstands.call_eq hf, chain.owner_eq, hstands.lawful.renderable_eq⟩

/-- The main section is renderable. It calls a helper that is not, and the helper calls a section that is not. -/
def chaperoned : Program where
  sections := [
    ⟨mainLabel, true, [.single (.symbol "outer") (.call "helper" .any)]⟩,
    ⟨"helper", false, [.single (.symbol "inner") (.call "aside" .renderable)]⟩,
    ⟨"aside", false, []⟩]

/-- In the helper, which the main section has called. -/
def chaperonedChain : Entries :=
  [.call ⟨.any, .ofDefinition ⟨"helper", false, [.single (.symbol "inner") (.call "aside" .renderable)]⟩⟩,
    .call ⟨.renderable, .ofDefinition ⟨mainLabel, true, [.single (.symbol "outer") (.call "helper" .any)]⟩⟩]

theorem exists_makes_chaperoned :
    ∃ e' : Engine,
      (Request.boot .root).Makes 2 ((Engine.new {}).loaded chaperoned) chaperonedChain "aside" .renderable e' ∧
        e'.sections.find "aside" = .ok (.ofDefinition ⟨"aside", false, []⟩) :=
  ⟨_, .code (.call (.uninitialized rfl ⟨_, rfl⟩) ⟨rfl, rfl, rfl⟩) (.inside (.call ⟨rfl, rfl, rfl⟩) .first), rfl⟩

theorem discipline_decided_by_frame_chaperoned :
    chaperonedChain.owner = .root ∧ chaperonedChain.framed = false ∧ chaperonedChain.context.mode = .any ∧
      ∃ e' : Engine, e'.context = chaperonedChain.context ∧
        ∀ run site,
          Action.call run site "aside" .renderable e' = .failed (.callDiscipline "aside" .renderable) e' [] := by
  obtain ⟨e', hm, hf⟩ := exists_makes_chaperoned
  obtain ⟨hcontext, hcall, -, -⟩ := discipline_decided_by_frame (Engine.reachable_loaded {} chaperoned) hm hf
  exact ⟨rfl, rfl, rfl, e', hcontext, hcall⟩

/-- The helper and the section it calls are equally renderable, and still the check refuses the call, so that mounting
the program shows the fault. -/
theorem like_section_refused :
    ∃ (e' : Engine) (callee : Section),
      (Request.boot .root).Makes 2 ((Engine.new {}).loaded chaperoned) chaperonedChain "aside" .renderable e' ∧
        e'.sections.find "aside" = .ok callee ∧ callee.renderable = e'.context.code.renderable ∧
        Action.discipline callee .renderable e' = .failed (.callDiscipline "aside" .renderable) e' [] ∧
        ((Request.boot .root).run 2 ((Engine.new {}).loaded chaperoned)).engine?.map (·.report) =
          some (some (.ofFault (.callDiscipline "aside" .renderable))) := by
  obtain ⟨e', hm, hf⟩ := exists_makes_chaperoned
  have hstands := hm.stands (Engine.reachable_loaded {} chaperoned).atRest
  refine ⟨e', _, hm, hf, ?_, hstands.discipline_eq _ _, by decide +kernel⟩
  rw [hstands.context]
  rfl

end Trellis
