import Trellis.Proofs.Engine.Growth

/-!
# Running code does what the evaluator says

The evaluator knows where code stands, the operands and the markup made so far. `Follows` says that an engine is in
such a situation: its innermost frame writes to a live element that holds just that markup, and inside a container
the focus is on that element. If an engine follows the evaluator before some code, then both end in the same way,
and the engine follows the evaluator afterwards. Every instruction is one case of this; the rest is induction on the
nesting of the code.
-/
namespace Trellis

open Tree (Handle Node Grown)
open Evaluation (Place Page Result Loaded)

/-- What the focus and the innermost element are, inside a container and outside. -/
def Focused (inside : Option String) (h : Handle) (n : Node) (focus : Option Handle) : Prop :=
  match inside with
  | none => focus = none
  | some tag => focus = some h ∧ n.tag? = some tag ∧ n.attribute? "type" = none ∧ n.attribute? "value" = none

/-- The engine is in the situation that the evaluator describes. -/
structure Follows (loaded : Loaded) (place : Place) (p : Page) (h : Handle) (e : Engine) : Prop where
  sound : e.tree.Sound
  target : e.frames.head?.map (·.target) = some h
  owner : e.frames.head?.map (·.owner.renderable) = some place.owner
  mode : e.context.mode = place.mode
  renderable : e.context.code.renderable = place.renderable
  resources : e.resources = loaded.resources
  sections : e.sections = loaded.sections
  stack : e.stack = p.stack
  node : ∃ n, e.tree.find? h = some n ∧ n.isText = false ∧ Node.toMarkupAll n.children = p.nodes ∧
    Focused place.inside h n e.focus

/-- The engine and the evaluator have ended in the same way. -/
def Agrees (loaded : Loaded) (place : Place) (h : Handle) : Outcome Unit → Result → Prop
  | .done _ e _, .done p => Follows loaded place p h e
  | .failed fault e _, .failed fault' stack => fault = fault' ∧ e.stack = stack
  | .tooDeep, .tooDeep => True
  | _, _ => False

@[simp] theorem agrees_after {loaded : Loaded} {place : Place} {h : Handle} {o : Outcome Unit} {r : Result}
    {journal : List Diagnostic} : Agrees loaded place h (o.after journal) r ↔ Agrees loaded place h o r := by
  cases o <;> cases r <;> rfl

/-- An engine that is put back after some code goes on following. -/
theorem Agrees.mapEngine {loaded : Loaded} {inner outer : Place} {h : Handle} {o : Outcome Unit} {r : Result}
    {P : Engine → Prop} {f : Engine → Engine} (ho : Agrees loaded inner h o r) (hl : o.Leaves P)
    (hs : ∀ e, (f e).stack = e.stack)
    (hf : ∀ e p, P e → Follows loaded inner p h e → Follows loaded outer p h (f e)) :
    Agrees loaded outer h (o.mapEngine f) r := by
  cases o with
  | done a e journal =>
    cases r with
    | done p => exact hf e p hl ho
    | failed | tooDeep => exact ho
  | failed fault e journal =>
    cases r with
    | failed fault' stack => exact ⟨ho.1, (hs e).trans ho.2⟩
    | done | tooDeep => exact ho
  | tooDeep =>
    cases r with
    | done | failed | tooDeep => exact ho

namespace Follows

variable {loaded : Loaded} {place : Place} {p : Page} {h : Handle} {e e' : Engine}

theorem writable (hf : Follows loaded place p h e) : e.Writable h := by
  obtain ⟨n, hn, hnt, -⟩ := hf.node
  exact ⟨hf.sound, hf.target, n, hn, hnt⟩

/-- Code that adds to the innermost element and changes nothing else is followed by adding to the markup. -/
theorem grown {ns : List Node} {events : List String} {stack : Operands} (hf : Follows loaded place p h e)
    (hc : Confined e e') (hg : Grown h e.tree e'.tree ns events) (hs : e'.stack = stack) :
    Follows loaded place ⟨stack, p.nodes ++ Node.toMarkupAll ns⟩ h e' where
  sound := hg.sound
  target := by rw [hc.frames, hf.target]
  owner := by rw [hc.frames, hf.owner]
  mode := by rw [hc.context, hf.mode]
  renderable := by rw [hc.context, hf.renderable]
  resources := by rw [hc.resources, hf.resources]
  sections := by rw [hc.sections, hf.sections]
  stack := hs
  node := by
    obtain ⟨n, hn, hnt, hnodes, hfocus⟩ := hf.node
    refine ⟨n.extend ns events, hg.find? hn, by simpa using hnt, ?_, ?_⟩
    · rw [Node.children_extend hnt, Node.toMarkupAll_append, hnodes]
    · rw [hc.focus]
      unfold Focused at hfocus ⊢
      cases hi : place.inside with
      | none => simpa [hi] using hfocus
      | some tag => simpa [hi] using hfocus

theorem withStack (hf : Follows loaded place p h e) (stack : Operands) :
    Follows loaded place { p with stack } h { e with stack } :=
  { hf with stack := rfl }

theorem withSites (hf : Follows loaded place p h e) (sites : Registry) :
    Follows loaded place p h { e with sites } :=
  { hf with }

theorem asked (hf : Follows loaded place p h e) : Follows loaded place p h e.asked := { hf with }

/-- An instruction that adds some markup is followed. -/
theorem adds {ms : List Markup} {o : Outcome Unit} (hf : Follows loaded place p h e) (ho : Action.Adds h e ms o) :
    Agrees loaded place h o (.done (p.add ms)) := by
  obtain ⟨t, ns, rfl, hg, rfl, -⟩ := ho
  exact @Follows.grown loaded place p h e { e with tree := t } ns [] p.stack hf { Confined.refl e with } hg hf.stack

/-- The code of a container starts with no markup, inside a new element. -/
theorem opened (hf : Follows loaded place p h e) (site : Nat) (enclosure : Enclosure) :
    Follows loaded { place with owner := place.renderable, inside := some enclosure.tag.toLower } ⟨p.stack, []⟩
      e.tree.pool.take.1 (e.opened site enclosure) where
  sound := Action.sound_tagged hf.sound enclosure.tag _
  target := rfl
  owner := congrArg some hf.renderable
  mode := hf.mode
  renderable := hf.renderable
  resources := hf.resources
  sections := hf.sections
  stack := hf.stack
  node := ⟨_, Action.find?_opened hf.sound site enclosure, rfl, rfl, rfl, rfl, rfl, rfl⟩

end Follows

/-- A site that has just been registered is shown by its key. -/
theorem Registry.label_resolve (r : Registry) (key : Key) :
    (r.resolve key).2.label (r.resolve key).1 = key.label := by rw [label, key?_resolve]

namespace Action

variable {α β γ : Type} {loaded : Loaded} {place : Place} {p : Page} {h : Handle} {e : Engine}

/-! ### Operands -/

/-- An action that changes nothing and does not fail. -/
def Silent (x : Action α) : Prop := ∀ e, ∃ a journal, x e = .done a e journal

/-- An action that does to the stack what an operation on it does, and nothing else. -/
def Performs (f : Operands → Operands.Result α) (x : Action β) : Prop :=
  ∀ e, match f e.stack with
    | (.ok _, stack) => ∃ b journal, x e = .done b { e with stack } journal
    | (.error fault, stack) => ∃ journal, x e = .failed fault { e with stack } journal

theorem performs_onStack (f : Operands → Operands.Result α) : Performs f (onStack f) := by
  intro e
  unfold onStack
  rcases f e.stack with ⟨fault | a, stack⟩
  · exact ⟨_, rfl⟩
  · exact ⟨_, _, rfl⟩

theorem Performs.bind {f : Operands → Operands.Result α} {x : Action β} {g : β → Action γ} (hx : Performs f x)
    (hg : ∀ b, Silent (g b)) : Performs f (x >>= g) := by
  intro e
  have hxe := hx e
  split
  · next hs =>
    rw [hs] at hxe
    obtain ⟨b, journal, hr⟩ := hxe
    obtain ⟨c, journal', hr'⟩ := hg b _
    rw [bind_of_done hr, hr']
    exact ⟨c, _, rfl⟩
  · next hs =>
    rw [hs] at hxe
    obtain ⟨journal, hr⟩ := hxe
    exact ⟨journal, bind_of_failed hr⟩

theorem Performs.agrees {f : Operands → Operands.Result α} {x : Action Unit} (hx : Performs f x)
    (hf : Follows loaded place p h e) : Agrees loaded place h (x e) (Evaluation.onStack f p) := by
  have hxe := hx e
  rw [hf.stack] at hxe
  unfold Evaluation.onStack
  cases hs : f p.stack with
  | mk result stack =>
    rw [hs] at hxe
    cases result with
    | ok a =>
      obtain ⟨b, journal, hr⟩ := hxe
      rw [hr]
      exact hf.withStack stack
    | error fault =>
      obtain ⟨journal, hr⟩ := hxe
      rw [hr]
      exact ⟨rfl, rfl⟩

theorem performs_pop (site : Nat) : Performs Operands.pop (pop site) :=
  (performs_onStack _).bind fun _ _ => ⟨_, _, rfl⟩

theorem performs_copy (site : Nat) : Performs Operands.copy (copy site) :=
  (performs_onStack _).bind fun _ _ => ⟨_, _, rfl⟩

theorem performs_swap (site a b : Nat) : Performs (Operands.swap a b) (swap site a b) :=
  (performs_onStack _).bind fun _ _ => ⟨_, _, rfl⟩

theorem performs_compare (site : Nat) : Performs Operands.compare (compare site) :=
  (performs_onStack _).bind fun _ _ => ⟨_, _, rfl⟩

theorem performs_push (site : Nat) (v : Value) : Performs (Operands.push v) (push site v) := by
  intro e
  have hstack := performs_onStack (Operands.push v) e
  unfold push
  rw [bind_of_done (x := label site) rfl, bind_of_done (x := log _) rfl]
  split
  · next hs =>
    rw [hs] at hstack
    obtain ⟨b, journal, hr⟩ := hstack
    rw [hr]
    exact ⟨b, _, rfl⟩
  · next hs =>
    rw [hs] at hstack
    obtain ⟨journal, hr⟩ := hstack
    rw [hr]
    exact ⟨_, rfl⟩

theorem calculate_agrees (hf : Follows loaded place p h e) (site : Nat) (symbol : String) :
    Agrees loaded place h ((do let _ ← calculate site symbol) e)
      (match Operator.ofSymbol? symbol with
      | none => .failed (.unknownOperator symbol) p.stack
      | some operator => Evaluation.onStack (Operands.calculate operator) p) := by
  unfold calculate
  cases Operator.ofSymbol? symbol with
  | none => exact ⟨rfl, hf.stack⟩
  | some operator =>
    have hcalc : Performs (Operands.calculate operator) (do
        let v ← onStack (Operands.calculate operator)
        log (.calculate (← label site) operator.symbol v.shown)
        return v) := (performs_onStack _).bind fun _ _ => ⟨_, _, rfl⟩
    exact (hcalc.bind fun _ _ => ⟨_, _, rfl⟩).agrees hf

/-- What is done with the value of a source is followed if the value is. -/
theorem load_agrees {f : Value → Action Unit} {g : Value → Result} (hf : Follows loaded place p h e) (site : Nat)
    (source : Source) (hg : ∀ v, Agrees loaded place h (f v e) (g v)) :
    Agrees loaded place h ((load site source >>= f) e)
      (match Evaluation.load loaded.resources p.stack source with
      | .ok v => g v
      | .error fault => .failed fault p.stack) := by
  obtain ⟨journal, hr⟩ := load_eq site source e
  rw [hf.resources, hf.stack] at hr
  cases hl : Evaluation.load loaded.resources p.stack source with
  | ok v =>
    rw [hl] at hr
    rw [bind_of_done hr, agrees_after]
    exact hg v
  | error fault =>
    rw [hl] at hr
    rw [bind_of_failed hr]
    exact ⟨rfl, hf.stack⟩

/-- An element that has neither a type nor a value is read as the markup of what it holds, and an input as no
text. -/
theorem read_eq {t : Tree} {n : Node} {tag : String} (hn : t.find? h = some n) (htag : n.tag? = some tag)
    (htype : n.attribute? "type" = none) (hvalue : n.attribute? "value" = none) :
    t.read h = .ok (.text
      (if tag = "input" then "" else String.ofList (Markup.writeAll (Node.toMarkupAll n.children)))) := by
  have hnode : t.node h = .ok n := by rw [Tree.node, hn]
  have htext : "text" ∈ Tree.textTypes := by decide
  by_cases hinput : tag = "input"
  · simp [Tree.read, hnode, htag, hinput, htype, hvalue, htext, bind, Except.bind, pure, Except.pure]
  · simp [Tree.read, hnode, htag, hinput, Tree.innerMarkup, hn, bind, Except.bind, pure, Except.pure]

theorem read_agrees (hf : Follows loaded place p h e) (site : Nat) :
    Agrees loaded place h (read site e)
      (match place.inside with
      | none => .failed .noFocus p.stack
      | some tag =>
        let text := if tag = "input" then "" else String.ofList (Markup.writeAll p.nodes)
        .done { p with stack := .text text :: p.stack }) := by
  obtain ⟨n, hn, hnt, hnodes, hfocus⟩ := hf.node
  unfold Focused at hfocus
  cases hi : place.inside with
  | none =>
    simp only [hi] at hfocus
    have hget : get (·.focus) e = .done none e [] := by rw [get, hfocus]
    have hrun : read site e = .failed .noFocus e [] := bind_of_done hget
    rw [hrun]
    exact ⟨rfl, hf.stack⟩
  | some tag =>
    simp only [hi] at hfocus
    obtain ⟨hfocus, htag, htype, hvalue⟩ := hfocus
    dsimp only
    generalize htext : (if tag = "input" then "" else String.ofList (Markup.writeAll p.nodes)) = text
    have hget : get (·.focus) e = .done (some h) e [] := by rw [get, hfocus]
    have hof : ofTree (·.read h) e = .done (.text text) e [] := by
      rw [ofTree, read_eq hn htag htype hvalue, hnodes, htext]
    have hrun : read site e = ((push site (.text text) e).after []).after [] :=
      (bind_of_done hget).trans (congrArg _ (bind_of_done hof))
    rw [hrun, agrees_after, agrees_after]
    exact (performs_push site _).agrees hf

/-! ### Calls -/

theorem discipline_eq (hf : Follows loaded place p h e) (callee : Section) (mode : Mode) :
    discipline callee mode e =
      if Evaluation.allowed place.owner callee mode then .done () e []
      else .failed (.callDiscipline callee.label mode) e [] := by
  obtain ⟨frame, hframe, howner⟩ := Option.map_eq_some_iff.1 hf.owner
  rw [discipline_of_frame hframe, howner]

/-- Running code only adds to its element, and follows its meaning wherever the engine does. -/
structure Simulates (loaded : Loaded) (run : List Instruction → Action Unit) (meaning : Evaluation.Meaning) :
    Prop where
  grows : ∀ code, Keeps Grows (run code)
  agrees : ∀ code {place p h e}, Follows loaded place p h e →
    Agrees loaded place h (run code e) (meaning code place p)

theorem call_agrees {run : List Instruction → Action Unit} {meaning : Evaluation.Meaning}
    (hrun : Simulates loaded run meaning) (hf : Follows loaded place p h e) (site : Nat) (label : String)
    (mode : Mode) :
    Agrees loaded place h (call run site label mode e) (Evaluation.call loaded meaning label mode place p) := by
  unfold call Evaluation.call
  rw [bind_of_done (x := get _) rfl, agrees_after, hf.sections]
  cases hfind : loaded.sections.find label with
  | error fault => exact ⟨rfl, hf.stack⟩
  | ok callee =>
    have hd := discipline_eq hf callee mode
    rw [bind_of_done (x := ofExcept (.ok callee)) rfl, agrees_after]
    cases ha : Evaluation.allowed place.owner callee mode with
    | false =>
      rw [ha] at hd
      rw [bind_of_failed hd]
      simp only [ha]
      exact ⟨rfl, hf.stack⟩
    | true =>
      rw [ha] at hd
      rw [bind_of_done hd, bind_of_done (x := Action.label site) rfl, bind_of_done (x := log _) rfl]
      simp only [agrees_after, ha]
      cases hbody : callee.body with
      | none => exact hf
      | some body =>
        have hf' : Follows loaded { place with mode, renderable := callee.renderable } p h
            { e with context := ⟨mode, callee⟩ } := { hf with mode := rfl, renderable := rfl }
        refine (hrun.agrees body hf').mapEngine (hrun.grows body _) (fun _ => rfl) fun e' q _ hq => ?_
        exact { hq with mode := hf.mode, renderable := hf.renderable }

/-! ### Blocks -/

theorem conditional_agrees {run : List Instruction → Action Unit} {meaning : Evaluation.Meaning}
    (hrun : Simulates loaded run meaning) (hf : Follows loaded place p h e) (site : Nat)
    (body : List Instruction) :
    Agrees loaded place h (conditional site (run body) e)
      (match p.stack with
      | [] => .failed (.underflow .pop) []
      | v :: stack =>
        if v.isTrue then meaning body { place with owner := place.renderable } { p with stack }
        else .done { p with stack }) := by
  obtain ⟨journal, heq⟩ := conditional_eq site (run body) hf.target
  rw [heq, agrees_after, hf.stack]
  cases hs : p.stack with
  | nil => exact ⟨rfl, rfl⟩
  | cons v stack =>
    by_cases hv : v.isTrue = true
    · simp only [if_pos hv]
      have hf' : Follows loaded { place with owner := place.renderable } { p with stack } h
          { e with stack, frames := ⟨site, e.context.code, h, .conditional⟩ :: e.frames } :=
        { hf with target := rfl, owner := congrArg some hf.renderable, stack := rfl }
      refine (hrun.agrees body hf').mapEngine (hrun.grows body _) (fun _ => rfl) fun e' q hg hq => ?_
      -- the frame is off again, so that the innermost one is the one from before
      have hframes : e'.frames.tail = e.frames := by rw [hg.frames]; rfl
      exact { hq with target := by rw [hframes, hf.target], owner := by rw [hframes, hf.owner] }
    · simp only [if_neg hv]
      exact hf.withStack stack

theorem container_agrees {run : List Instruction → Action Unit} {meaning : Evaluation.Meaning}
    (hrun : Simulates loaded run meaning) (hf : Follows loaded place p h e) (site : Nat) (enclosure : Enclosure)
    (body : List Instruction) :
    Agrees loaded place h (container site enclosure (run body) e)
      (if !place.renderable || place.mode = .callable then meaning body place p
      else
        let tag := enclosure.tag.toLower
        match meaning body { place with owner := place.renderable, inside := some tag } ⟨p.stack, []⟩ with
        | .done q =>
          let made :=
            if enclosure = .root then q.nodes
            else [Evaluation.element tag ("container-" ++ e.sites.label site) q.nodes]
          .done ⟨q.stack, p.nodes ++ made⟩
        | .failed fault stack => .failed fault stack
        | .tooDeep => .tooDeep) := by
  by_cases hplain : (!place.renderable || place.mode = .callable) = true
  · rw [container_of_plain (by rw [hf.renderable, hf.mode]; exact hplain), if_pos hplain]
    exact hrun.agrees body hf
  · rw [if_neg hplain]
    simp only [Bool.or_eq_true, Bool.not_eq_true', decide_eq_true_eq, not_or, Bool.not_eq_false] at hplain
    have hr := hf.renderable.trans hplain.1
    have hm : e.context.mode ≠ .callable := by rw [hf.mode]; exact hplain.2
    have hfo := hf.opened site enclosure
    have hbe := hrun.agrees body hfo
    have hge := hrun.grows body (e.opened site enclosure)
    dsimp only
    generalize meaning body _ _ = r at hbe ⊢
    cases hb : run body (e.opened site enclosure) with
    | done a e' j =>
      rw [hb] at hbe hge
      cases r with
      | failed | tooDeep => exact hbe.elim
      | done q =>
        -- the body has only added to the new element, which is then placed whole or gives up what it holds
        obtain ⟨ns, events, hg⟩ := hge.tree _ hfo.writable
        obtain ⟨t, journal, made, heq, hg', hmade⟩ := container_of_done hf.writable hr hm hb
          (congrArg List.tail hge.frames) hg
        have hns : Node.toMarkupAll ns = q.nodes := by
          obtain ⟨n, hn, -, hnodes, -⟩ := hbe.node
          rw [hg.find? (find?_opened hf.sound site enclosure), Option.some.injEq] at hn
          rw [← hnodes, ← hn, Node.children_extend rfl]
          rfl
        have hc : Confined e { e' with tree := t, frames := e.frames, focus := e.focus } :=
          { hge.toConfined with frames := rfl, focus := rfl }
        rw [heq]
        rw [hns] at hmade
        dsimp only
        rw [← hmade]
        exact hf.grown hc hg' hbe.stack
    | failed fault e' j =>
      rw [hb] at hbe hge
      cases r with
      | done | tooDeep => exact hbe.elim
      | failed fault' stack =>
        obtain ⟨ns, events, hg⟩ := hge.tree _ hfo.writable
        obtain ⟨t, journal, heq, -⟩ := @container_of_failed site enclosure (run body) e e' h fault j ns events
          hf.sound hr hm hb (congrArg List.tail hge.frames) hg
        rw [heq]
        exact hbe
    | tooDeep =>
      rw [hb] at hbe
      cases r with
      | done | failed => exact hbe.elim
      | tooDeep =>
        obtain ⟨journal, heq⟩ := @container_eq site enclosure (run body) e hf.sound hr hm
        rw [heq, hb]
        trivial

/-! ### Code -/

theorem perform_agrees {run : List Instruction → Action Unit} {meaning : Evaluation.Meaning}
    (hrun : Simulates loaded run meaning) (hf : Follows loaded place p h e) (site : Nat) (operation : Operation) :
    Agrees loaded place h (perform run site operation e)
      (Evaluation.perform loaded meaning (e.sites.label site) place p operation) := by
  cases operation with
  | element tag => exact hf.adds (leaf_adds hf.writable site tag)
  | value raw source =>
    exact load_agrees hf site source fun v => hf.adds (value_adds hf.writable site raw v)
  | call label mode => exact call_agrees hrun hf site label mode
  | render =>
    obtain ⟨journal, heq⟩ := rerender_eq site e
    rw [perform, heq]
    exact hf.asked
  | listen event handler =>
    obtain ⟨t, journal, heq, hg⟩ := listen_of_writable hf.writable site event handler
    have hc : Confined e { e with tree := t, listeners := e.listeners ++ [⟨site, h, event, handler⟩] } :=
      { Confined.refl e with listeners := ⟨_, rfl⟩ }
    have hf' := hf.grown hc hg hf.stack
    rw [Node.toMarkupAll_nil, List.append_nil] at hf'
    rw [perform, heq]
    exact hf'
  | push source => exact load_agrees hf site source fun v => (performs_push site v).agrees hf
  | copy => exact (performs_copy site).agrees hf
  | pop => exact ((performs_pop site).bind fun _ _ => ⟨_, _, rfl⟩).agrees hf
  | swap a b => exact (performs_swap site _ _).agrees hf
  | compare => exact ((performs_compare site).bind fun _ _ => ⟨_, _, rfl⟩).agrees hf
  | read => exact read_agrees hf site
  | calculate symbol => exact calculate_agrees hf site symbol

theorem step_agrees {run : List Instruction → Action Unit} {meaning : Evaluation.Meaning}
    (hrun : Simulates loaded run meaning) (hf : Follows loaded place p h e) (i : Instruction) :
    Agrees loaded place h (step run i e) (Evaluation.step loaded meaning place p i) := by
  have hlabel := e.sites.label_resolve i.id
  obtain ⟨site, sites, hsite⟩ : ∃ site sites, e.sites.resolve i.id = (site, sites) := ⟨_, _, rfl⟩
  have hresolve : resolve i.id e = .done site { e with sites } [] := by rw [resolve, hsite]
  rw [hsite] at hlabel
  have hf' := hf.withSites sites
  unfold step
  rw [bind_of_done hresolve, agrees_after]
  cases i with
  | container id enclosure body =>
    have hc := container_agrees hrun hf' site enclosure body
    rw [hlabel] at hc
    exact hc
  | conditional id body => exact conditional_agrees hrun hf' site body
  | single id operation =>
    have hp := perform_agrees hrun hf' site operation
    rw [hlabel] at hp
    exact hp

theorem sequence_agrees {one : Instruction → Action Unit} {meaning : Place → Page → Instruction → Result}
    (hone : ∀ i {place p h e}, Follows loaded place p h e → Agrees loaded place h (one i e) (meaning place p i))
    (code : List Instruction) (hf : Follows loaded place p h e) :
    Agrees loaded place h (sequence one code e) (Evaluation.sequence meaning code place p) := by
  induction code generalizing p e with
  | nil => exact hf
  | cons i code ih =>
    have hi := hone i hf
    rw [sequence, Evaluation.sequence]
    generalize meaning place p i = r at hi ⊢
    cases ho : one i e with
    | done a e' journal =>
      rw [ho] at hi
      rw [bind_of_done ho, agrees_after]
      cases r with
      | done q => exact ih hi
      | failed | tooDeep => exact hi.elim
    | failed fault e' journal =>
      rw [ho] at hi
      rw [bind_of_failed ho]
      cases r with
      | failed => exact hi
      | done | tooDeep => exact hi.elim
    | tooDeep =>
      rw [ho] at hi
      rw [bind_of_tooDeep ho]
      cases r with
      | tooDeep => trivial
      | done | failed => exact hi.elim

/-- Code of any depth follows the evaluator, by induction on how deep it may be. -/
theorem execute_simulates (loaded : Loaded) (n : Nat) :
    Simulates loaded (execute n) (Evaluation.evaluate loaded n) := by
  induction n with
  | zero => exact ⟨closed_grows.execute 0, fun _ _ _ _ _ _ => trivial⟩
  | succ n ih =>
    refine ⟨closed_grows.execute (n + 1), fun code _ _ _ _ hf => ?_⟩
    exact sequence_agrees (fun i _ _ _ _ hf => step_agrees ih hf i) code hf

/-- The main section follows what a render means. -/
theorem invoke_main_agrees (hf : Follows loaded ⟨.any, true, true, none⟩ ⟨[], []⟩ h e) (n : Nat) :
    Agrees loaded ⟨.any, true, true, none⟩ h (invoke n Engine.rootSite mainLabel .renderable e)
      (Evaluation.main loaded n) :=
  call_agrees (execute_simulates loaded n) hf Engine.rootSite mainLabel .renderable

end Action
end Trellis
