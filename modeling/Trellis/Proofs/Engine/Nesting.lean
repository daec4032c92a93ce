import Trellis.Proofs.Scheduling.Turn

/-!
# How code comes to run inside code

Only containers, conditionals and calls run code, and each of them runs one block at most. An instruction by itself is
never given up as too deep: if it is given up, then because the block that it runs is. This says which block that is
and on which engine it runs, whatever running a block means. A container or a conditional leaves the running section
as it is and may open a frame that belongs to this section; a call changes the running section and opens no frame.
-/
namespace Trellis

open Tree (Handle)

namespace Outcome

variable {α : Type}

@[simp] theorem after_eq_tooDeep {o : Outcome α} {j : List Diagnostic} : o.after j = .tooDeep ↔ o = .tooDeep := by
  cases o with
  | tooDeep => exact Iff.rfl
  | done | failed => exact ⟨nofun, nofun⟩

@[simp] theorem mapEngine_eq_tooDeep {o : Outcome α} {f : Engine → Engine} :
    o.mapEngine f = .tooDeep ↔ o = .tooDeep := by
  cases o with
  | tooDeep => exact Iff.rfl
  | done | failed => exact ⟨nofun, nofun⟩

end Outcome

namespace Action

variable {α β : Type} {e : Engine}

theorem bind_eq_tooDeep {x : Action α} {f : α → Action β} (hf : ∀ a, Halts (f a)) :
    (x >>= f) e = .tooDeep ↔ x e = .tooDeep := by
  cases hr : x e with
  | tooDeep => exact ⟨fun _ => rfl, fun _ => bind_of_tooDeep hr⟩
  | failed fault e' j =>
    rw [bind_of_failed hr]
    exact ⟨nofun, nofun⟩
  | done a e' j =>
    rw [bind_of_done hr, Outcome.after_eq_tooDeep]
    exact ⟨fun hdeep => absurd hdeep (hf a e'), nofun⟩

theorem bind_pure_eq_tooDeep {x : Action α} {f : α → β} : (x >>= fun a => pure (f a)) e = .tooDeep ↔ x e = .tooDeep :=
  bind_eq_tooDeep fun _ => compositional_halts.pure _

/-! ### Actions that run one block -/

/-- The action runs its block on `e₁`: it is given up exactly when the block is given up there. -/
def Hands (x : Action Unit → Action α) (e e₁ : Engine) : Prop := ∀ body, x body e = .tooDeep ↔ body e₁ = .tooDeep

/-- Either the action does not run its block, or it runs it on an engine of which `P` holds. -/
def Nests (x : Action Unit → Action α) (e : Engine) (P : Engine → Prop) : Prop :=
  (∀ body, x body e ≠ .tooDeep) ∨ ∃ e₁, P e₁ ∧ Hands x e e₁

theorem Hands.unique {x : Action Unit → Action α} {e₁ e₂ : Engine} (h₁ : Hands x e e₁) (h₂ : Hands x e e₂) :
    e₁ = e₂ := by
  classical
  -- a block that is given up on the first engine only
  refine Classical.byContradiction fun hne => ?_
  let trap : Action Unit := fun e => if e = e₁ then .tooDeep else .done () e []
  have hdeep : x trap e = .tooDeep := (h₁ trap).2 (if_pos rfl)
  have htrap : trap e₂ = .done () e₂ [] := if_neg (Ne.symm hne)
  exact nomatch htrap.symm.trans ((h₂ trap).1 hdeep)

namespace Nests

variable {P : Engine → Prop}

/-- Where the block is run if it is run at all. -/
theorem holds {x : Action Unit → Action α} {e₁ : Engine} (h : Nests x e P) (h₁ : Hands x e e₁) : P e₁ := by
  rcases h with hnever | ⟨e₂, hP, h₂⟩
  · exact absurd ((h₁ tooDeep).2 rfl) (hnever tooDeep)
  · exact h₁.unique h₂ ▸ hP

theorem tooDeep_iff {x : Action Unit → Action α} (h : Nests x e P) (body : Action Unit) :
    x body e = .tooDeep ↔ ∃ e₁, Hands x e e₁ ∧ body e₁ = .tooDeep := by
  rcases h with hnever | ⟨e₂, -, h₂⟩
  · refine ⟨fun hdeep => absurd hdeep (hnever body), fun ⟨e₁, h₁, hdeep⟩ => (h₁ body).2 hdeep⟩
  · exact ⟨fun hdeep => ⟨e₂, h₂, (h₂ body).1 hdeep⟩, fun ⟨e₁, h₁, hdeep⟩ => (h₁ body).2 hdeep⟩

theorem here (h : P e) : Nests (fun body => body) e P := .inr ⟨e, h, fun _ => Iff.rfl⟩

theorem never {x : Action α} (h : Halts x) : Nests (fun _ => x) e P := .inl fun _ => h e

theorem ite {c : Prop} [Decidable c] {x y : Action Unit → Action α} (hx : c → Nests x e P) (hy : ¬c → Nests y e P) :
    Nests (fun body => if c then x body else y body) e P := by
  by_cases h : c
  · simpa only [if_pos h] using hx h
  · simpa only [if_neg h] using hy h

theorem get {f : Engine → α} {g : α → Action Unit → Action β} (h : Nests (g (f e)) e P) :
    Nests (fun body => Action.get f >>= fun a => g a body) e P := by
  have hget : ∀ body, (Action.get f >>= fun a => g a body) e = g (f e) body e := fun body => by
    rw [bind_of_done (x := Action.get f) (e := e) rfl, Outcome.after_nil]
  simpa only [Nests, Hands, hget] using h

/-- What is done before the block is run. -/
theorem after {x : Action α} {f : α → Action Unit → Action β} (hx : Halts x) (hk : Keeps Confined x)
    (h : ∀ a e', Confined e e' → Nests (f a) e' P) : Nests (fun body => x >>= fun a => f a body) e P := by
  have hke := hk e
  cases hr : x e with
  | tooDeep => exact absurd hr (hx e)
  | failed fault e' j => exact .inl fun body hdeep => nomatch (bind_of_failed hr).symm.trans hdeep
  | done a e' j =>
    rw [hr] at hke
    have hbind : ∀ body, (x >>= fun a => f a body) e = .tooDeep ↔ f a body e' = .tooDeep := fun body => by
      rw [bind_of_done hr, Outcome.after_eq_tooDeep]
    simpa only [Nests, Hands, ne_eq, hbind] using h a e' hke

/-- What is done after it. -/
theorem before {x : Action Unit → Action α} {f : α → Action β} (h : Nests x e P) (hf : ∀ a, Halts (f a)) :
    Nests (fun body => x body >>= f) e P := by
  simpa only [Nests, Hands, ne_eq, bind_eq_tooDeep hf] using h

theorem bracket {enter : Engine → Engine} {leave : Engine → Engine → Engine} {x : Action Unit → Action α}
    (h : Nests x (enter e) P) : Nests (fun body => bracket enter leave (x body)) e P := by
  have hbracket : ∀ body, Action.bracket enter leave (x body) e = .tooDeep ↔ x body (enter e) = .tooDeep :=
    fun body => Outcome.mapEngine_eq_tooDeep
  simpa only [Nests, Hands, ne_eq, hbracket] using h

theorem onFault {f : Engine → Engine} {x : Action Unit → Action α} (h : Nests x e P) :
    Nests (fun body => onFault f (x body)) e P := by
  have honFault : ∀ body, Action.onFault f (x body) e = .tooDeep ↔ x body e = .tooDeep := fun body => by
    unfold Action.onFault
    cases x body e with
    | tooDeep => exact Iff.rfl
    | done | failed => exact ⟨nofun, nofun⟩
  simpa only [Nests, Hands, ne_eq, honFault] using h

end Nests

end Action

/-! ### Containers and conditionals -/

/-- The first engine with a frame that belongs to the running section in front of the others. -/
structure Engine.Framed (e e₁ : Engine) : Prop where
  context : e₁.context = e.context
  sections : e₁.sections = e.sections
  frames : ∃ frame : Frame Handle, frame.owner = e.context.code ∧ e₁.frames = frame :: e.frames

namespace Action

theorem halts_close (enclosure : Enclosure) (node : Handle) : Halts (close enclosure node) := by
  have hP := compositional_halts
  refine hP.bind hP.woven.target fun parent => hP.woven.ite ?_ (hP.onTree _)
  refine hP.bind (hP.ofTree _) fun children => hP.bind (hP.woven.appendAll parent children) fun _ => ?_
  exact hP.modify fun _ => rfl

theorem nests_container (site : Nat) (enclosure : Enclosure) (e : Engine) :
    Nests (container site enclosure) e fun e₁ => if e.context.plain then e₁ = e else e.Framed e₁ := by
  have hP := compositional_halts
  unfold container
  refine .get (.ite (fun hplain => .here ?_) fun hplain => ?_)
  · rw [if_pos (show e.context.plain = true from hplain)]
  -- making the element and telling of it
  refine .after (hP.make _) (stable_confined.woven.make (.createElement _)) fun node e₁ h₁ => .get ?_
  refine .after (hP.onTree _) (stable_confined.woven.place (.setAttribute node _ _)) fun _ e₂ h₂ => .get ?_
  refine .after (hP.log _) (stable_confined.log _) fun _ e₃ h₃ => ?_
  -- placing it when the block has ended
  refine .before (.onFault (.bracket (.bracket (.here ?_)))) fun _ => halts_close enclosure node
  have h := (h₁.trans h₂).trans h₃
  rw [if_neg (show ¬e.context.plain = true from hplain)]
  exact ⟨h.context, h.sections, _, rfl, congrArg (List.cons _) h.frames⟩

theorem nests_conditional (site : Nat) (e : Engine) : Nests (conditional site) e e.Framed := by
  have hP := compositional_halts
  unfold conditional
  refine .after (hP.woven.pop site) (stable_confined.woven.pop site) fun v e₁ h₁ => .get ?_
  refine .after (hP.log _) (stable_confined.log _) fun _ e₂ h₂ => .ite (fun _ => ?_) fun _ => .never (hP.pure ())
  refine .after hP.woven.target stable_confined.woven.target fun node e₃ h₃ => .get (.bracket (.here ?_))
  have h := (h₁.trans h₂).trans h₃
  exact ⟨h.context, h.sections, _, congrArg Context.code h.context, congrArg (List.cons _) h.frames⟩

/-! ### Calls -/

/-- A call of a label from `e` finds the section, passes the check and has a body to run. -/
structure Admits (e : Engine) (label : String) (mode : Mode) (callee : Section) (body : List Instruction) : Prop where
  found : e.sections.find label = .ok callee
  allowed : discipline callee mode e = .done () e []
  body : callee.body = some body

theorem call_tooDeep_iff {run : List Instruction → Action Unit} {site : Nat} {label : String} {mode : Mode}
    {e : Engine} :
    call run site label mode e = .tooDeep ↔
      ∃ callee body, Admits e label mode callee body ∧ run body { e with context := ⟨mode, callee⟩ } = .tooDeep := by
  unfold call
  rw [bind_of_done (x := get _) rfl, Outcome.after_eq_tooDeep]
  cases hfind : e.sections.find label with
  | error fault => exact ⟨nofun, fun ⟨_, _, h, _⟩ => nomatch hfind.symm.trans h.found⟩
  | ok callee =>
    rw [bind_of_done (x := ofExcept _) rfl, Outcome.after_eq_tooDeep]
    have hcallee : ∀ {callee' body}, Admits e label mode callee' body → callee' = callee := fun h =>
      Except.ok.inj (h.found.symm.trans hfind)
    rcases discipline_cases callee mode e with hd | ⟨fault, hd⟩
    · rw [bind_of_done hd, bind_of_done (x := Action.label site) rfl, bind_of_done (x := log _) rfl]
      simp only [Outcome.after_eq_tooDeep]
      cases hbody : callee.body with
      | none =>
        refine ⟨nofun, ?_⟩
        rintro ⟨callee', body, h, -⟩
        obtain rfl := hcallee h
        exact nomatch hbody.symm.trans h.body
      | some body =>
        refine Outcome.mapEngine_eq_tooDeep.trans ⟨fun hdeep => ⟨callee, body, ⟨hfind, hd, hbody⟩, hdeep⟩, ?_⟩
        rintro ⟨callee', body', h, hdeep⟩
        obtain rfl := hcallee h
        obtain rfl := Option.some.inj (h.body.symm.trans hbody)
        exact hdeep
    · rw [bind_of_failed hd]
      refine ⟨nofun, ?_⟩
      rintro ⟨callee', body, h, -⟩
      obtain rfl := hcallee h
      exact nomatch hd.symm.trans h.allowed

end Action

/-! ### Instructions -/

/-- A block or a call in which code runs. -/
inductive Entry where
  | container
  | conditional
  | call (context : Context)
deriving DecidableEq, Repr

/-- Running the instruction on `e` runs the code on `e₁`. -/
inductive Enters (e : Engine) : Instruction → Entry → List Instruction → Engine → Prop
  | container {id : Key} {enclosure : Enclosure} {body : List Instruction} {e₁ : Engine}
    (h : Action.Hands (Action.container (e.sites.resolve id).1 enclosure) (e.registered id) e₁) :
    Enters e (.container id enclosure body) .container body e₁
  | conditional {id : Key} {body : List Instruction} {e₁ : Engine}
    (h : Action.Hands (Action.conditional (e.sites.resolve id).1) (e.registered id) e₁) :
    Enters e (.conditional id body) .conditional body e₁
  | call {id : Key} {label : String} {mode : Mode} {callee : Section} {body : List Instruction}
    (h : Action.Admits (e.registered id) label mode callee body) :
    Enters e (.single id (.call label mode)) (.call ⟨mode, callee⟩) body
      { e.registered id with context := ⟨mode, callee⟩ }

/-- An instruction is given up exactly when it runs a block that is given up. -/
theorem step_tooDeep_iff {run : List Instruction → Action Unit} {i : Instruction} {e : Engine} :
    Action.step run i e = .tooDeep ↔ ∃ entry body e₁, Enters e i entry body e₁ ∧ run body e₁ = .tooDeep := by
  unfold Action.step
  rw [Action.bind_of_done (x := Action.resolve i.id) rfl, Outcome.after_eq_tooDeep]
  cases i with
  | container id enclosure body =>
    refine ((Action.nests_container _ enclosure (e.registered id)).tooDeep_iff (run body)).trans ⟨?_, ?_⟩
    · rintro ⟨e₁, h, hdeep⟩
      exact ⟨_, _, _, .container h, hdeep⟩
    · rintro ⟨_, _, e₁, hin, hdeep⟩
      cases hin with
      | container h => exact ⟨e₁, h, hdeep⟩
  | conditional id body =>
    refine ((Action.nests_conditional _ (e.registered id)).tooDeep_iff (run body)).trans ⟨?_, ?_⟩
    · rintro ⟨e₁, h, hdeep⟩
      exact ⟨_, _, _, .conditional h, hdeep⟩
    · rintro ⟨_, _, e₁, hin, hdeep⟩
      cases hin with
      | conditional h => exact ⟨e₁, h, hdeep⟩
  | single id operation =>
    by_cases hcall : ∃ label mode, operation = .call label mode
    · obtain ⟨label, mode, rfl⟩ := hcall
      refine Action.call_tooDeep_iff.trans ⟨?_, ?_⟩
      · rintro ⟨callee, body, h, hdeep⟩
        exact ⟨_, _, _, .call h, hdeep⟩
      · rintro ⟨_, _, _, hin, hdeep⟩
        cases hin with
        | call h => exact ⟨_, _, h, hdeep⟩
    · have hhalts : Action.Halts (Action.perform run (e.sites.resolve id).1 operation) :=
        Action.compositional_halts.woven.perform fun label mode h => absurd ⟨label, mode, h⟩ hcall
      refine ⟨fun hdeep => absurd hdeep (hhalts _), ?_⟩
      rintro ⟨_, _, _, hin, -⟩
      cases hin with
      | call h => exact absurd ⟨_, _, rfl⟩ hcall

theorem Enters.sections {e e₁ : Engine} {i : Instruction} {entry : Entry} {body : List Instruction}
    (h : Enters e i entry body e₁) : e₁.sections = e.sections := by
  cases h with
  | container h =>
    have hinner := (Action.nests_container _ _ _).holds h
    split at hinner
    · rw [hinner]
      rfl
    · exact hinner.sections
  | conditional h => exact ((Action.nests_conditional _ _).holds h).sections
  | call => rfl

/-! ### Requests -/

namespace Action

variable {n : Nat}

/-- Empties the mounted node for a render pass. -/
def clean : Action Unit := do
  let mount ← get (·.mount)
  onTree (·.clear mount)
  onTree (·.removeAttribute mount "style")
  onTree (·.removeAttribute mount "class")
  modify fun e => { e with stack := [], frames := e.frames.truncate 1, listeners := [], focus := none }

theorem rebuild_eq (n : Nat) : rebuild n = clean >>= fun _ => invoke n Engine.rootSite mainLabel .renderable := by
  simp only [clean, bind_assoc]
  rfl

theorem halts_clean : Halts clean := by
  have hP := compositional_halts
  refine hP.bind (hP.get _) fun mount => hP.bind (hP.onTree _) fun _ => hP.bind (hP.onTree _) fun _ => ?_
  exact hP.bind (hP.onTree _) fun _ => hP.modify fun _ => rfl

theorem Staged.clean {S R : Engine → Engine → Prop} (hR : Staged S R) : Keeps R clean := by
  refine hR.bind (hR.get _) fun mount => ?_
  refine hR.bind (hR.onTree fun _ => ⟨.clear mount, rfl⟩) fun _ => ?_
  refine hR.bind (hR.onTree fun _ => ⟨.removeAttribute mount _, rfl⟩) fun _ => ?_
  exact hR.bind (hR.onTree fun _ => ⟨.removeAttribute mount _, rfl⟩) fun _ => hR.empty

theorem halts_judge : Halts judge := by
  have hP := compositional_halts
  refine hP.bind (hP.get _) fun e => hP.woven.ite ?_ (hP.pure ())
  exact hP.bind (hP.modify fun _ => rfl) fun _ => hP.fail _

theorem render_eq_tooDeep : render n e = .tooDeep ↔ renderPass n e.started = .tooDeep := by
  refine ⟨fun hdeep => ?_, render_of_tooDeep⟩
  cases hp : renderPass n e.started with
  | tooDeep => rfl
  | done _ e' j =>
    obtain ⟨_, -, hdone⟩ := render_of_passed hp
    exact nomatch hdone.symm.trans hdeep
  | failed fault e₁ j =>
    obtain ⟨e₂, _, _, hrec, -⟩ := recover_done fault e₁
    obtain ⟨_, -, hdone⟩ := render_of_faulted hp hrec
    exact nomatch hdone.symm.trans hdeep

/-- A render on `e` comes to call the main section on `e₁`. -/
def Readies (e e₁ : Engine) : Prop := ∃ j, clean e.started = .done () e₁ j

theorem Staged.readies {S R : Engine → Engine → Prop} (hR : Staged S R) {e₁ : Engine} (h : Readies e e₁) : R e e₁ := by
  obtain ⟨j, hclean⟩ := h
  have hkept := hR.clean e.started
  rw [hclean] at hkept
  exact hR.trans (hR.clock e _) (hR.trans (hR.schedule e.timed _) hkept)

theorem render_tooDeep_iff :
    render n e = .tooDeep ↔ ∃ e₁, Readies e e₁ ∧ invoke n Engine.rootSite mainLabel .renderable e₁ = .tooDeep := by
  rw [render_eq_tooDeep, renderPass_eq, bind_eq_tooDeep fun _ => halts_judge, rebuild_eq]
  cases hclean : clean e.started with
  | tooDeep => exact absurd hclean (halts_clean _)
  | failed fault e₁ j =>
    rw [bind_of_failed hclean]
    exact ⟨nofun, fun ⟨_, ⟨_, h⟩, _⟩ => nomatch hclean.symm.trans h⟩
  | done _ e₁ j =>
    rw [bind_of_done hclean, Outcome.after_eq_tooDeep]
    refine ⟨fun hdeep => ⟨e₁, ⟨j, hclean⟩, hdeep⟩, ?_⟩
    rintro ⟨e₂, ⟨j', h⟩, hdeep⟩
    cases hclean.symm.trans h
    exact hdeep

/-- Of the handlers in a list, started one after the other on `e`, this one is called on `e₁`. -/
inductive Delivers (n : Nat) (target : Handle) : List Listener → Engine → Listener → Engine → Prop
  | first {l : Listener} {ls : List Listener} {e : Engine} :
    Delivers n target (l :: ls) e l { e with focus := some target }
  | next {l l' : Listener} {ls : List Listener} {e e' e₁ : Engine} {j : List Diagnostic}
    (h : withFocus target (invoke n l.site l.handler .callable) e = .done () e' j)
    (hd : Delivers n target ls e' l' e₁) :
    Delivers n target (l :: ls) e l' e₁

theorem Staged.delivers {S R : Engine → Engine → Prop} (hR : Staged S R) (hf : ∀ e focus, R e { e with focus })
    {target : Handle} {ls : List Listener} {l : Listener} {e₁ : Engine} (h : Delivers n target ls e l e₁) : R e e₁ := by
  induction h with
  | first => exact hf _ _
  | @next l _ _ e e' _ _ hr _ ih =>
    have hrun := hR.stable.withFocus target (hR.stable.closed.invoke n l.site l.handler .callable)
    have hkept := hR.keeps hrun e
    rw [hr] at hkept
    exact hR.trans hkept ih

theorem deliver_tooDeep_iff {target : Handle} {ls : List Listener} {e : Engine} :
    deliver n target ls e = .tooDeep ↔
      ∃ l e₁, Delivers n target ls e l e₁ ∧ invoke n l.site l.handler .callable e₁ = .tooDeep := by
  induction ls generalizing e with
  | nil =>
    constructor
    · intro hdeep
      cases hdeep
    · rintro ⟨l, e₁, hd, -⟩
      cases hd
  | cons l ls ih =>
    have hfirst : withFocus target (invoke n l.site l.handler .callable) e = .tooDeep ↔
        invoke n l.site l.handler .callable { e with focus := some target } = .tooDeep :=
      Outcome.mapEngine_eq_tooDeep
    unfold deliver
    cases hr : withFocus target (invoke n l.site l.handler .callable) e with
    | tooDeep =>
      rw [attempt_of_tooDeep hr]
      exact ⟨fun _ => ⟨l, _, .first, hfirst.1 hr⟩, fun _ => rfl⟩
    | failed fault e' j =>
      rw [attempt_of_failed hr, Outcome.after_eq_tooDeep]
      refine ⟨fun hdeep => absurd (bind_pure_eq_tooDeep.1 hdeep) (compositional_halts.recover fault e'), ?_⟩
      rintro ⟨l', e₁, hd, hdeep⟩
      cases hd with
      | first => cases hr.symm.trans (hfirst.2 hdeep)
      | next h hd => cases hr.symm.trans h
    | done _ e' j =>
      rw [attempt_of_done hr, Outcome.after_eq_tooDeep]
      refine bind_pure_eq_tooDeep.trans (ih.trans ⟨?_, ?_⟩)
      · rintro ⟨l', e₁, hd, hdeep⟩
        exact ⟨l', e₁, .next hr hd, hdeep⟩
      · rintro ⟨l', e₁, hd, hdeep⟩
        cases hd with
        | first => cases hr.symm.trans (hfirst.2 hdeep)
        | next h hd =>
          cases hr.symm.trans h
          exact ⟨l', e₁, hd, hdeep⟩

end Action

namespace Request

open Action (Readies Delivers Hands Admits)

/-- A request on `e` comes to call a label on `e₁`. -/
inductive Calls (n : Nat) (e : Engine) : Request → String → Mode → Engine → Prop
  | perform {site : Nat} {label : String} {mode : Mode} : Calls n e (.perform site (.call label mode)) label mode e
  | render {e₁ : Engine} (h : Readies e e₁) : Calls n e .render mainLabel .renderable e₁
  | poll {e₁ : Engine} (hd : e.isDue = true) (h : Readies (Action.disarmed e) e₁) :
    Calls n e .poll mainLabel .renderable e₁
  | init {mount : Handle} (hi : e.sections.contains initLabel = true) :
    Calls n e (.boot mount) initLabel .callable (Action.mounted mount e)
  | initialized {mount : Handle} {e₁ e₂ : Engine} {j : List Diagnostic} (hi : e.sections.contains initLabel = true)
    (hr : Action.invoke n Engine.rootSite initLabel .callable (Action.mounted mount e) = .done () e₁ j)
    (h : Readies e₁ e₂) : Calls n e (.boot mount) mainLabel .renderable e₂
  | uninitialized {mount : Handle} {e₁ : Engine} (hi : e.sections.contains initLabel = false)
    (h : Readies (Action.mounted mount e) e₁) : Calls n e (.boot mount) mainLabel .renderable e₁
  | handler {target : Handle} {event : String} {l : Listener} {e₁ : Engine}
    (h : Delivers n target (Action.listenersOn (e.tree.lineage target) event e.listeners) e l e₁) :
    Calls n e (.dispatch target event) l.handler .callable e₁

/-- A request on `e` runs the code on `e₁`, inside the entry if there is one. -/
inductive Starts (n : Nat) (e : Engine) : Request → Option Entry → List Instruction → Engine → Prop
  | execute {code : List Instruction} : Starts n e (.execute code) none code e
  | container {site : Nat} {enclosure : Enclosure} {code : List Instruction} {e₁ : Engine}
    (h : Hands (Action.container site enclosure) e e₁) :
    Starts n e (.container site enclosure code) (some .container) code e₁
  | conditional {site : Nat} {code : List Instruction} {e₁ : Engine} (h : Hands (Action.conditional site) e e₁) :
    Starts n e (.conditional site code) (some .conditional) code e₁
  | call {r : Request} {label : String} {mode : Mode} {e₁ : Engine} {callee : Section} {body : List Instruction}
    (hc : Calls n e r label mode e₁) (h : Admits e₁ label mode callee body) :
    Starts n e r (some (.call ⟨mode, callee⟩)) body { e₁ with context := ⟨mode, callee⟩ }

variable {n : Nat} {r : Request} {e : Engine}

/-- What a request does before it calls a label. -/
theorem Calls.related {S R : Engine → Engine → Prop} (hR : Action.Staged S R) (hf : ∀ e focus, R e { e with focus })
    {label : String} {mode : Mode} {e₁ : Engine} (h : r.Calls n e label mode e₁) : R e e₁ := by
  cases h with
  | perform => exact hR.refl e
  | render h => exact hR.readies h
  | poll hd h =>
    have hticked : R e (Action.ticked e) := hR.trans (hR.clock e _) (hR.schedule e.timed _)
    exact hR.trans hticked (hR.trans (hR.schedule (Action.ticked e) _) (hR.readies h))
  | init hi => exact hR.mount e _
  | @initialized mount _ _ _ hi hr h =>
    have hkept := hR.invoke n Engine.rootSite initLabel .callable (Action.mounted mount e)
    rw [hr] at hkept
    exact hR.trans (hR.mount e _) (hR.trans hkept (hR.readies h))
  | uninitialized hi h => exact hR.trans (hR.mount e _) (hR.readies h)
  | handler h => exact hR.delivers hf h

theorem boot_tooDeep_iff {mount : Handle} :
    Action.boot n mount e = .tooDeep ↔
      ∃ label mode e₁, Calls n e (.boot mount) label mode e₁ ∧
        Action.invoke n Engine.rootSite label mode e₁ = .tooDeep := by
  cases hi : e.sections.contains initLabel with
  | false =>
    rw [Action.boot_without_init n mount hi, Outcome.after_eq_tooDeep, Action.render_tooDeep_iff]
    constructor
    · rintro ⟨e₁, h, hdeep⟩
      exact ⟨_, _, e₁, .uninitialized hi h, hdeep⟩
    · rintro ⟨_, _, e₁, hc, hdeep⟩
      cases hc with
      | init hi' => exact nomatch hi.symm.trans hi'
      | initialized hi' => exact nomatch hi.symm.trans hi'
      | uninitialized _ h => exact ⟨e₁, h, hdeep⟩
  | true =>
    rw [Action.boot_with_init n mount hi, Outcome.after_eq_tooDeep]
    cases hr : Action.invoke n Engine.rootSite initLabel .callable (Action.mounted mount e) with
    | tooDeep =>
      rw [Action.attempt_of_tooDeep hr]
      exact ⟨fun _ => ⟨_, _, _, .init hi, hr⟩, fun _ => rfl⟩
    | failed fault e₁ j =>
      -- the fault is shown instead of a render, which is never too deep
      rw [Action.attempt_of_failed hr, Outcome.after_eq_tooDeep]
      refine ⟨fun hdeep => absurd hdeep (Action.compositional_halts.recover fault e₁), ?_⟩
      rintro ⟨_, _, e₂, hc, hdeep⟩
      cases hc with
      | init => exact nomatch hr.symm.trans hdeep
      | initialized _ hr' => exact nomatch hr.symm.trans hr'
      | uninitialized hi' => exact nomatch hi.symm.trans hi'
    | done _ e₁ j =>
      rw [Action.attempt_of_done hr, Outcome.after_eq_tooDeep]
      refine Action.render_tooDeep_iff.trans ⟨?_, ?_⟩
      · rintro ⟨e₂, h, hdeep⟩
        exact ⟨_, _, e₂, .initialized hi hr h, hdeep⟩
      · rintro ⟨_, _, e₂, hc, hdeep⟩
        cases hc with
        | init => exact nomatch hr.symm.trans hdeep
        | initialized _ hr' h =>
          cases hr.symm.trans hr'
          exact ⟨e₂, h, hdeep⟩
        | uninitialized hi' => exact nomatch hi.symm.trans hi'

theorem poll_tooDeep_iff :
    Action.poll n e = .tooDeep ↔
      e.isDue = true ∧ ∃ e₁, Readies (Action.disarmed e) e₁ ∧
        Action.invoke n Engine.rootSite mainLabel .renderable e₁ = .tooDeep := by
  cases hd : e.isDue with
  | false =>
    rw [Action.poll_of_early n hd]
    exact ⟨nofun, nofun⟩
  | true =>
    rw [Action.poll_of_due n hd, Action.bind_pure_eq_tooDeep, Action.render_tooDeep_iff]
    exact ⟨fun h => ⟨rfl, h⟩, And.right⟩

/-- A request is given up exactly when it runs code that is given up. -/
theorem run_tooDeep_iff :
    r.run n e = .tooDeep ↔ ∃ entry code e₁, r.Starts n e entry code e₁ ∧ Action.execute n code e₁ = .tooDeep := by
  have hcalled : ∀ {site label mode e₁}, Calls n e r label mode e₁ → Action.invoke n site label mode e₁ = .tooDeep →
      ∃ entry code e₂, r.Starts n e entry code e₂ ∧ Action.execute n code e₂ = .tooDeep := by
    intro site label mode e₁ hc hdeep
    obtain ⟨callee, body, h, hdeep⟩ := Action.call_tooDeep_iff.1 hdeep
    exact ⟨_, _, _, .call hc h, hdeep⟩
  constructor
  · intro hdeep
    cases r with
    | load p =>
      obtain ⟨j, hload⟩ := Action.loadProgram_eq p e
      exact nomatch hload.symm.trans hdeep
    | define d =>
      obtain ⟨j, hdefine⟩ := Action.define_eq (.ofDefinition d) e
      exact nomatch hdefine.symm.trans hdeep
    | strings | constants | trust | advance | lapse | edit | focus | register => exact nomatch hdeep
    | boot mount =>
      obtain ⟨_, _, _, hc, hdeep⟩ := boot_tooDeep_iff.1 hdeep
      exact hcalled hc hdeep
    | render =>
      obtain ⟨_, h, hdeep⟩ := Action.render_tooDeep_iff.1 hdeep
      exact hcalled (.render h) hdeep
    | poll =>
      obtain ⟨hd, _, h, hdeep⟩ := poll_tooDeep_iff.1 (Action.bind_pure_eq_tooDeep.1 hdeep)
      exact hcalled (.poll hd h) hdeep
    | dispatch target event =>
      have hdispatch := Action.bind_pure_eq_tooDeep.1 hdeep
      rw [Action.dispatch_eq, Outcome.after_eq_tooDeep] at hdispatch
      obtain ⟨_, _, h, hdeep⟩ := Action.deliver_tooDeep_iff.1 hdispatch
      exact hcalled (.handler h) hdeep
    | execute code => exact ⟨_, _, _, .execute, hdeep⟩
    | container site enclosure code =>
      obtain ⟨_, h, hdeep⟩ := ((Action.nests_container site enclosure e).tooDeep_iff _).1 hdeep
      exact ⟨_, _, _, .container h, hdeep⟩
    | conditional site code =>
      obtain ⟨_, h, hdeep⟩ := ((Action.nests_conditional site e).tooDeep_iff _).1 hdeep
      exact ⟨_, _, _, .conditional h, hdeep⟩
    | perform site operation =>
      by_cases hcall : ∃ label mode, operation = .call label mode
      · obtain ⟨label, mode, rfl⟩ := hcall
        exact hcalled .perform hdeep
      · have hhalts : Action.Halts (Action.perform (Action.execute n) site operation) :=
          Action.compositional_halts.woven.perform fun label mode h => absurd ⟨label, mode, h⟩ hcall
        exact absurd hdeep (hhalts e)
    | push site v => exact absurd hdeep (Action.compositional_halts.woven.push site v e)
    | value site raw content => exact absurd hdeep (Action.compositional_halts.woven.value site raw content e)
  · rintro ⟨entry, code, e₁, hs, hdeep⟩
    cases hs with
    | execute => exact hdeep
    | container h => exact (h _).2 hdeep
    | conditional h => exact (h _).2 hdeep
    | call hc h =>
      have hinvoke : ∀ site, Action.invoke n site _ _ _ = .tooDeep := fun site =>
        Action.call_tooDeep_iff.2 ⟨_, _, h, hdeep⟩
      cases hc with
      | perform => exact hinvoke _
      | render hready => exact Action.render_tooDeep_iff.2 ⟨_, hready, hinvoke _⟩
      | poll hd hready =>
        exact Action.bind_pure_eq_tooDeep.2 (poll_tooDeep_iff.2 ⟨hd, _, hready, hinvoke _⟩)
      | init hi => exact boot_tooDeep_iff.2 ⟨_, _, _, .init hi, hinvoke _⟩
      | initialized hi hr hready => exact boot_tooDeep_iff.2 ⟨_, _, _, .initialized hi hr hready, hinvoke _⟩
      | uninitialized hi hready => exact boot_tooDeep_iff.2 ⟨_, _, _, .uninitialized hi hready, hinvoke _⟩
      | handler hd =>
        refine Action.bind_pure_eq_tooDeep.2 ?_
        rw [Action.dispatch_eq, Outcome.after_eq_tooDeep]
        exact Action.deliver_tooDeep_iff.2 ⟨_, _, hd, hinvoke _⟩

end Request

end Trellis
