import Trellis.Proofs.Engine.Trace
import Trellis.Proofs.Rendering.Simulation

/-!
# The listeners that code binds

An engine keeps its listeners by the numbers of their sites and the handles of their nodes, which depend on what it
has done before. A program knows neither: it names a call site by its key, an event and a handler. This is the
evaluator of that side of a program, and running code binds just what it says, in the same order, up to the first
fault. The sites of listeners are registered, and a registry that grows goes on showing them by the same keys.
-/
namespace Trellis

open Tree (Handle Node)
open Evaluation (Place Page Result Loaded)

/-- A listener as a program names it. -/
structure Binding where
  /-- The key of the call site as text. -/
  site : String
  event : String
  handler : String
deriving DecidableEq, Repr

namespace Evaluation

/-- What code binds where it stands. -/
abbrev Binder := List Instruction → Place → Page → List Binding

def callBindings (loaded : Loaded) (binder : Binder) (label : String) (mode : Mode) (place : Place) (p : Page) :
    List Binding :=
  match loaded.sections.find label with
  | .error _ => []
  | .ok callee =>
    if allowed place.owner callee mode then
      match callee.body with
      | none => []
      | some body => binder body { place with mode, renderable := callee.renderable } p
    else []

def performBindings (loaded : Loaded) (binder : Binder) (name : String) (place : Place) (p : Page) :
    Operation → List Binding
  | .call label mode => callBindings loaded binder label mode place p
  | .listen event handler => [⟨name, event, handler⟩]
  | _ => []

def stepBindings (loaded : Loaded) (binder : Binder) (place : Place) (p : Page) : Instruction → List Binding
  | .container _ enclosure body =>
    if !place.renderable || place.mode = .callable then binder body place p
    else binder body { place with owner := place.renderable, inside := some enclosure.tag.toLower } ⟨p.stack, []⟩
  | .conditional _ body =>
    match p.stack with
    | [] => []
    | v :: stack =>
      if v.isTrue then binder body { place with owner := place.renderable } { p with stack } else []
  | .single id operation => performBindings loaded binder id.label place p operation

/-- An instruction after a fault binds nothing. -/
def sequenceBindings (one : Place → Page → Instruction → Result)
    (binds : Place → Page → Instruction → List Binding) : Binder
  | [], _, _ => []
  | i :: is, place, p =>
    binds place p i ++
      match one place p i with
      | .done q => sequenceBindings one binds is place q
      | _ => []

def bindings (loaded : Loaded) : Nat → Binder
  | 0, _, _, _ => []
  | n + 1, code, place, p =>
    sequenceBindings (step loaded (evaluate loaded n)) (stepBindings loaded (bindings loaded n)) code place p

/-- What a render binds. -/
def mainBindings (loaded : Loaded) (n : Nat) : List Binding :=
  callBindings loaded (bindings loaded n) mainLabel .renderable ⟨.any, true, true, none⟩ ⟨[], []⟩

end Evaluation

namespace Engine

/-- The listeners in order, as the program names them. -/
def bindings (e : Engine) : List Binding := e.listeners.map fun l => ⟨e.sites.label l.site, l.event, l.handler⟩

/-- Only one instruction binds listeners. -/
def binding : Notes Binding where
  resolved _ _ := []
  performed site e
    | .listen event handler => [⟨e.sites.label site, event, handler⟩]
    | _ => []
  closed _ bs := bs

/-- The sites of all listeners are registered. -/
def Registered (e : Engine) : Prop := ∀ l ∈ e.listeners, l.site < e.sites.keys.length

end Engine

theorem Registry.label_append {r r' : Registry} {more : List Key} (h : r'.keys = r.keys ++ more) {site : Nat}
    (hs : site < r.keys.length) : r'.label site = r.label site := by
  simp only [label, key?, h, List.getElem?_append_left hs]

/-- Between two engines these listeners have been bound after the others. -/
def Binds (bs : List Binding) (e e' : Engine) : Prop :=
  e.Registered → e'.Registered ∧ e'.bindings = e.bindings ++ bs

namespace Binds

variable {e e' e'' : Engine} {bs bs' : List Binding}

theorem refl (e : Engine) : Binds [] e e := fun h => ⟨h, (List.append_nil _).symm⟩

theorem trans (h : Binds bs e e') (h' : Binds bs' e' e'') : Binds (bs ++ bs') e e'' := by
  intro hr
  obtain ⟨hr', hb⟩ := h hr
  obtain ⟨hr'', hb'⟩ := h' hr'
  exact ⟨hr'', by rw [hb', hb, List.append_assoc]⟩

/-- Registering sites binds nothing. -/
theorem register (hl : e'.listeners = e.listeners) (hs : ∃ more, e'.sites.keys = e.sites.keys ++ more) :
    Binds [] e e' := by
  obtain ⟨more, hs⟩ := hs
  intro hr
  refine ⟨fun l h => ?_, ?_⟩
  · rw [hl] at h
    rw [hs, List.length_append]
    exact Nat.lt_add_right _ (hr l h)
  · rw [List.append_nil, Engine.bindings, Engine.bindings, hl]
    refine List.map_congr_left fun l h => ?_
    rw [Registry.label_append hs (hr l h)]

theorem listener (e : Engine) {l : Listener} (hl : l.site < e.sites.keys.length) (t : Tree) :
    Binds [⟨e.sites.label l.site, l.event, l.handler⟩] e { e with tree := t, listeners := e.listeners ++ [l] } := by
  intro hr
  refine ⟨fun l' h => ?_, by simp [Engine.bindings]⟩
  rcases List.mem_append.1 h with h | h
  · exact hr l' h
  · rw [List.mem_singleton.1 h]
    exact hl

end Binds

namespace Action

open Engine

variable {α : Type} {loaded : Loaded} {place : Place} {p : Page} {h : Handle} {e : Engine}

/-- Apart from output, calls and the instruction that binds, no instruction binds anything. -/
theorem quiet_binds : Quiet (Binds []) where
  refl := Binds.refl
  trans := Binds.trans
  stack _ e := Binds.refl e
  time e := Binds.refl e
  arm e _ := Binds.refl e
  count e _ := Binds.refl e
  pending e := Binds.refl e
  focus _ h := h
  context _ h := h

theorem Adds.binds {ms : List Markup} {o : Outcome Unit} (ho : Adds h e ms o) : o.Leaves (Binds [] e) := by
  obtain ⟨t, ns, rfl, -, -⟩ := ho
  exact Binds.refl e

theorem perform_binds {operation : Operation} (hother : ∀ label mode, operation ≠ .call label mode) (hw : e.Writable h)
    (run : List Instruction → Action Unit) {site : Nat} (hsite : site < e.sites.keys.length) :
    (perform run site operation e).Leaves (Binds (binding.performed site e operation) e) := by
  cases operation with
  | element tag => exact (leaf_adds hw site tag).binds
  | value raw source =>
    obtain ⟨journal, hr⟩ := load_eq site source e
    refine leaves_bind (fun v e₁ _ hl => ?_) (fun fault e₁ _ hl => ?_)
    · rw [hr] at hl
      split at hl
      · cases hl
        exact (value_adds hw site raw v).binds
      · cases hl
    · rw [hr] at hl
      split at hl
      · cases hl
      · cases hl
        exact Binds.refl e
  | call label mode => exact absurd rfl (hother label mode)
  | listen event handler =>
    obtain ⟨t, journal, heq, -⟩ := listen_of_writable hw site event handler
    rw [perform, heq]
    exact Binds.listener e hsite t
  | _ => exact quiet_binds.inward.quiet rfl run site e

theorem container_binds {site : Nat} {enclosure : Enclosure} {body : Action Unit} {bs : List Binding}
    (hplain : e.context.plain = false) (hgrows : Keeps Grows body) (hw : e.Writable h)
    (hbody : (body (e.opened site enclosure)).Leaves (Binds bs (e.opened site enclosure))) :
    (container site enclosure body e).Leaves (Binds bs e) := by
  simp only [Context.plain, Bool.or_eq_false_iff, Bool.not_eq_false', decide_eq_false_iff_not] at hplain
  obtain ⟨hr, hm⟩ := hplain
  have hge := hgrows (e.opened site enclosure)
  have hwo := opened_writable hw.sound site enclosure
  cases hb : body (e.opened site enclosure) with
  | done a e' j =>
    rw [hb] at hbody hge
    obtain ⟨ns, events, hg⟩ := hge.tree _ hwo
    obtain ⟨t, journal, made, heq, -⟩ := container_of_done hw hr hm hb (congrArg List.tail hge.frames) hg
    rw [heq]
    exact hbody
  | failed fault e' j =>
    rw [hb] at hbody hge
    obtain ⟨ns, events, hg⟩ := hge.tree _ hwo
    obtain ⟨t, journal, heq, -⟩ := @container_of_failed site enclosure body e e' h fault j ns events
      hw.sound hr hm hb (congrArg List.tail hge.frames) hg
    rw [heq]
    exact hbody
  | tooDeep =>
    obtain ⟨journal, heq⟩ := @container_eq site enclosure body e hw.sound hr hm
    rw [heq, hb]
    trivial

/-- Running code binds what is noted for it. -/
theorem noting_bindings : Noting binding Grows fun e bs o => ∀ h, e.Writable h → o.Leaves (Binds bs e) where
  keeps := closed_grows
  tooDeep _ _ := trivial
  after _ ho h hw := Outcome.leaves_after.2 (ho h hw)
  idle e _ _ _ := Binds.refl e
  failed e _ _ _ _ := Binds.refl e
  seq hgrows hx ho h hw := Outcome.leaves_after.2 ((ho h (hgrows.writable hw)).mono fun _ => (hx h hw).trans)
  context ho h hw := Outcome.leaves_mapEngine.2 (ho h ⟨hw.sound, hw.target, hw.element⟩)
  frame {e stack site frame bs o} hf ho h hw := by
    have hh : frame.target = h := Option.some.inj ((congrArg (Option.map _) hf).symm.trans hw.target)
    exact Outcome.leaves_mapEngine.2 (ho h ⟨hw.sound, congrArg some hh, hw.element⟩)
  resolve {e key bs o} ho h hw := by
    have hregister : Binds [] e (e.registered key) := .register rfl (e.sites.resolve_keys key)
    exact (ho h ⟨hw.sound, hw.target, hw.element⟩).mono fun _ hb => hregister.trans hb
  perform run hsite hother _ hw := perform_binds hother hw run hsite
  container hplain hgrows hbody h hw := container_binds hplain hgrows hw (hbody _ (opened_writable hw.sound _ _))

section

variable {trace : Tracer Binding} {binder : Evaluation.Binder}

/-- What is noted for code is what the evaluator says it binds. -/
def NotedAs (loaded : Loaded) (trace : Tracer Binding) (binder : Evaluation.Binder) : Prop :=
  ∀ code {place p h e}, Follows loaded place p h e → trace code e = binder code place p

theorem callTrace_eq (htrace : NotedAs loaded trace binder) (hf : Follows loaded place p h e) (label : String)
    (mode : Mode) : callTrace trace label mode e = Evaluation.callBindings loaded binder label mode place p := by
  have hfind : e.sections.find label = loaded.sections.find label := by rw [hf.sections]
  rw [callTrace, Evaluation.callBindings, hfind]
  cases loaded.sections.find label with
  | error fault => rfl
  | ok callee =>
    simp only [discipline_eq hf callee mode]
    by_cases ha : Evaluation.allowed place.owner callee mode = true
    · simp only [if_pos ha]
      cases callee.body with
      | none => rfl
      | some body =>
        have hf' : Follows loaded { place with mode, renderable := callee.renderable } p h
            { e with context := ⟨mode, callee⟩ } := { hf with mode := rfl, renderable := rfl }
        exact htrace body hf'
    · simp only [if_neg ha]

theorem conditionalTrace_eq (htrace : NotedAs loaded trace binder) (hf : Follows loaded place p h e) (id : Key)
    (site : Nat) (body : List Instruction) :
    conditionalTrace trace site body e = Evaluation.stepBindings loaded binder place p (.conditional id body) := by
  obtain ⟨frame, hframe, rfl⟩ := Option.map_eq_some_iff.1 hf.target
  rw [conditionalTrace, Evaluation.stepBindings, hframe, hf.stack]
  cases p.stack with
  | nil => rfl
  | cons v stack =>
    by_cases hv : v.isTrue = true
    · simp only [if_pos hv]
      have hf' : Follows loaded { place with owner := place.renderable } { p with stack } frame.target
          { e with stack, frames := ⟨site, e.context.code, frame.target, .conditional⟩ :: e.frames } :=
        { hf with target := rfl, owner := congrArg some hf.renderable, stack := rfl }
      exact htrace body hf'
    · simp only [if_neg hv]

theorem containerTrace_eq (htrace : NotedAs loaded trace binder) (hf : Follows loaded place p h e) (id : Key)
    (site : Nat) (enclosure : Enclosure) (body : List Instruction) :
    containerTrace binding trace site enclosure body e =
      Evaluation.stepBindings loaded binder place p (.container id enclosure body) := by
  rw [containerTrace, Evaluation.stepBindings, Context.plain, hf.renderable, hf.mode]
  by_cases hplain : (!place.renderable || place.mode = .callable) = true
  · rw [if_pos hplain, if_pos hplain]
    exact htrace body hf
  · rw [if_neg hplain, if_neg hplain]
    exact htrace body (hf.opened site enclosure)

theorem stepTrace_eq (htrace : NotedAs loaded trace binder) (hf : Follows loaded place p h e) (i : Instruction) :
    stepTrace binding trace e i = Evaluation.stepBindings loaded binder place p i := by
  have hf' : Follows loaded place p h (e.registered i.id) := hf.withSites _
  unfold stepTrace
  cases i with
  | container id enclosure body => exact containerTrace_eq htrace hf' id _ enclosure body
  | conditional id body => exact conditionalTrace_eq htrace hf' id _ body
  | single id operation =>
    have hlabel : (e.registered id).sites.label (e.sites.resolve id).1 = id.label := e.sites.label_resolve id
    cases operation with
    | call label mode => exact callTrace_eq htrace hf' label mode
    | listen event handler =>
      change [Binding.mk ((e.registered id).sites.label (e.sites.resolve id).1) event handler] = _
      rw [hlabel]
      rfl
    | _ => rfl

end

/-- The next instruction binds where the last one has left the evaluator. -/
theorem sequenceTrace_eq {one : Instruction → Action Unit} {meaning : Place → Page → Instruction → Result}
    {trace : Engine → Instruction → List Binding} {binds : Place → Page → Instruction → List Binding}
    (hone : ∀ i {place p h e}, Follows loaded place p h e → Agrees loaded place h (one i e) (meaning place p i))
    (htrace : ∀ i {place p h e}, Follows loaded place p h e → trace e i = binds place p i) :
    NotedAs loaded (sequenceTrace one trace) (Evaluation.sequenceBindings meaning binds) := by
  intro code
  induction code with
  | nil => exact fun _ => rfl
  | cons i code ih =>
    intro place p h e hf
    have hi := hone i hf
    rw [sequenceTrace, Evaluation.sequenceBindings, htrace i hf]
    generalize meaning place p i = r at hi ⊢
    congr 1
    cases ho : one i e with
    | done a e' journal =>
      rw [ho] at hi
      cases r with
      | done q => exact ih hi
      | failed | tooDeep => exact hi.elim
    | failed fault e' journal =>
      rw [ho] at hi
      cases r with
      | done => exact hi.elim
      | failed | tooDeep => rfl
    | tooDeep =>
      rw [ho] at hi
      cases r with
      | done => exact hi.elim
      | failed | tooDeep => rfl

theorem trace_eq (loaded : Loaded) (n : Nat) : NotedAs loaded (trace binding n) (Evaluation.bindings loaded n) := by
  induction n with
  | zero => exact fun _ _ _ _ _ _ => rfl
  | succ n ih =>
    exact sequenceTrace_eq (fun i _ _ _ _ hf => step_agrees (execute_simulates loaded n) hf i)
      fun i _ _ _ _ hf => stepTrace_eq ih hf i

/-- The main section binds what a render binds. -/
theorem invoke_main_binds (hf : Follows loaded ⟨.any, true, true, none⟩ ⟨[], []⟩ h e) (n : Nat) :
    (invoke n Engine.rootSite mainLabel .renderable e).Leaves (Binds (Evaluation.mainBindings loaded n) e) := by
  have hbinds := noting_bindings.invoke n Engine.rootSite mainLabel .renderable e h hf.writable
  rwa [callTrace_eq (trace_eq loaded n) hf] at hbinds

end Action
end Trellis
