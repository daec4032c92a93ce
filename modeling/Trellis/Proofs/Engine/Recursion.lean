import Mathlib.Logic.Relation
import Trellis.Proofs.Engine.Depth
import Trellis.Proofs.Engine.Nesting

/-!
# Only recursion runs on for ever

Code is nested in code by its text and by calls. The text is finite, so that code without an end needs a section that
comes to call itself. If the call graph of a program has no cycle, then all code ends, and so does whatever a host asks
for: how deep execution is nested is bounded by the sum of the depths of the sections. On a chain of calls no section
occurs twice, so that each of them pays for its own text once.
-/
namespace Trellis

open Tree (Handle)

/-! ### Call graphs -/

mutual

/-- The labels that an instruction and the code it holds call, in the order of the code. -/
def Instruction.calls : Instruction → List String
  | .container _ _ body => Instruction.callsAll body
  | .conditional _ body => Instruction.callsAll body
  | .single _ (.call label _) => [label]
  | .single _ _ => []

def Instruction.callsAll : List Instruction → List String
  | [] => []
  | i :: is => i.calls ++ Instruction.callsAll is

end

mutual

/-- How deep the text of an instruction is nested. -/
def Instruction.depth : Instruction → Nat
  | .container _ _ body => Instruction.depthAll body
  | .conditional _ body => Instruction.depthAll body
  | .single _ _ => 0

/-- How deep the text of a block is nested, the block itself included. -/
def Instruction.depthAll : List Instruction → Nat
  | [] => 1
  | i :: is => max (i.depth + 1) (Instruction.depthAll is)

end

/-- The depths of sections together. -/
def Definition.depths : List Definition → Nat
  | [] => 0
  | d :: ds => Instruction.depthAll d.body + depths ds

namespace Program

variable {p : Program}

/-- An edge of the call graph: the section that counts for a label has a call of another label in its body. -/
def CallsInto (p : Program) (a b : String) : Prop := ∃ d, p.section? a = some d ∧ b ∈ Instruction.callsAll d.body

def Acyclic (p : Program) : Prop := ∀ a, ¬Relation.TransGen p.CallsInto a a

/-- How deep execution of the program's sections is nested at most. -/
def nesting (p : Program) : Nat := Definition.depths p.sections

theorem mem_of_section? {label : String} {d : Definition} (h : p.section? label = some d) : d ∈ p.sections :=
  List.mem_reverse.1 (List.mem_of_find?_eq_some h)

theorem label_of_section? {label : String} {d : Definition} (h : p.section? label = some d) : d.label = label :=
  by simpa using List.find?_some h

/-- A program in which every section that counts calls only labels of a lower rank. -/
theorem acyclic_of_rank (rank : String → Nat)
    (h : ∀ d ∈ p.sections, p.section? d.label = some d →
      ∀ label ∈ Instruction.callsAll d.body, rank label < rank d.label) : p.Acyclic := by
  have hstep : ∀ {a b}, p.CallsInto a b → rank b < rank a := by
    rintro a b ⟨d, hd, hb⟩
    obtain rfl := label_of_section? hd
    exact h d (mem_of_section? hd) hd b hb
  intro a ha
  have hlt : ∀ {b}, Relation.TransGen p.CallsInto a b → rank b < rank a := by
    intro b hb
    induction hb with
    | single h => exact hstep h
    | tail _ h ih => exact Nat.lt_trans (hstep h) ih
  exact absurd (hlt ha) (Nat.lt_irrefl _)

/-- Calls from the code lead to the section. -/
def Leads (p : Program) (code : List Instruction) (d : Definition) : Prop :=
  ∃ a ∈ Instruction.callsAll code, ∃ b, Relation.ReflTransGen p.CallsInto a b ∧ p.section? b = some d

/-- The sections to which calls from the code lead are all among these. -/
def Covers (p : Program) (ds : List Definition) (code : List Instruction) : Prop := ∀ d, p.Leads code d → d ∈ ds

theorem covers_all (p : Program) (code : List Instruction) : p.Covers p.sections code :=
  fun _ ⟨_, _, _, _, h⟩ => mem_of_section? h

theorem Covers.mono {ds : List Definition} {code code' : List Instruction} (h : p.Covers ds code)
    (hc : ∀ label ∈ Instruction.callsAll code', label ∈ Instruction.callsAll code) : p.Covers ds code' :=
  fun d ⟨a, ha, hrest⟩ => h d ⟨a, hc a ha, hrest⟩

/-- What a called section leads to is led to by the call, and is another section. -/
theorem Covers.enter {ds : List Definition} {label : String} {code : List Instruction} {d : Definition}
    (hp : p.Acyclic) (h : p.Covers ds code) (hl : label ∈ Instruction.callsAll code) (hd : p.section? label = some d) :
    p.Covers (ds.erase d) d.body := by
  rintro d' ⟨a, ha, b, hab, hb⟩
  have hinto : p.CallsInto label a := ⟨d, hd, ha⟩
  have hne : d' ≠ d := by
    rintro rfl
    obtain rfl : b = label := (label_of_section? hb).symm.trans (label_of_section? hd)
    exact hp b (.head' hinto hab)
  exact (List.mem_erase_of_ne hne).2 (h d' ⟨label, hl, b, .head hinto hab, hb⟩)

end Program

theorem Definition.depths_erase {ds : List Definition} {d : Definition} (h : d ∈ ds) :
    Instruction.depthAll d.body + depths (ds.erase d) = depths ds := by
  induction ds with
  | nil => exact absurd h List.not_mem_nil
  | cons d' ds ih =>
    by_cases hd : d' = d
    · rw [hd, List.erase_cons_head, depths]
    · have hmem : d ∈ ds := (List.mem_cons.1 h).resolve_left (Ne.symm hd)
      have htail := ih hmem
      rw [List.erase_cons_tail (by simpa using hd), depths, depths]
      omega

theorem Instruction.depthAll_pos (code : List Instruction) : 0 < Instruction.depthAll code := by
  cases code with
  | nil => exact Nat.one_pos
  | cons i is =>
    rw [depthAll]
    omega

/-! ### Engines with a program -/

/-- The sections of the engine are those of the program. -/
def Engine.Holds (p : Program) (e : Engine) : Prop :=
  ∀ label, e.sections.get? label = (p.section? label).map .ofDefinition

/-- The request defines sections. -/
def Request.Redefines : Request → Prop
  | .load _ | .define _ => True
  | _ => False

namespace Engine

variable {p : Program} {e e' : Engine}

theorem holds_loaded (config : Config) (p : Program) : ((Engine.new config).loaded p).Holds p := by
  intro label
  rw [get?_loaded]
  exact Option.or_none

theorem Holds.of_sections (he : e.Holds p) (h : e'.sections = e.sections) : e'.Holds p :=
  fun label => h ▸ he label

theorem Holds.found (he : e.Holds p) {label : String} {callee : Section} (h : e.sections.find label = .ok callee) :
    ∃ d, p.section? label = some d ∧ callee = .ofDefinition d := by
  unfold Sections.find at h
  rw [he label] at h
  cases hd : p.section? label with
  | none =>
    rw [hd] at h
    cases h
  | some d =>
    rw [hd] at h
    cases h
    exact ⟨d, rfl, rfl⟩

end Engine

namespace Action

theorem staged_sections : Staged Confined fun e e' => e'.sections = e.sections where
  refl _ := rfl
  trans hab hbc := hbc.trans hab
  stable := stable_confined
  of h := h.sections
  clock _ _ := rfl
  schedule _ _ := rfl
  report _ _ := rfl
  mount _ _ := rfl
  empty _ := rfl
  stop _ _ := rfl

end Action

/-- A request leaves the sections alone unless it defines some. -/
theorem Engine.Holds.request {p : Program} {e e' : Engine} {n : Nat} {r : Request} (he : e.Holds p)
    (hr : ¬r.Redefines) (hrun : (r.run n e).engine? = some e') : e'.Holds p := by
  have hs := Action.staged_sections
  have hcode := Action.stable_confined.closed.execute n
  refine he.of_sections (Outcome.Leaves.engine (P := fun e' => e'.sections = e.sections) ?_ hrun)
  cases r with
  | load | define => exact absurd trivial hr
  | strings | constants | trust | advance | lapse | edit | focus | register => rfl
  | boot mount => exact hs.boot n mount e
  | render => exact hs.render n e
  | poll => exact hs.bind (hs.poll n) (fun _ => hs.pure ()) e
  | dispatch target event => exact hs.bind (hs.dispatch n target event) (fun _ => hs.pure ()) e
  | execute code => exact hs.keeps (hcode code) e
  | container site enclosure code => exact hs.keeps (hs.stable.woven.container site enclosure (hcode code)) e
  | conditional site code => exact hs.keeps (hs.stable.woven.conditional site (hcode code)) e
  | perform site operation => exact hs.keeps (hs.stable.closed.perform hcode site operation) e
  | push site v => exact hs.keeps (hs.stable.woven.push site v) e
  | value site raw content => exact hs.keeps (hs.stable.woven.value site raw content) e

/-! ### Code that ends -/

namespace Action

variable {p : Program} {e : Engine} {n : Nat}

/-- Code that is started with room for its own text and for every section to which its calls lead. Entering a block
leaves room for less text, and entering a section trades the section for its text. -/
theorem execute_ne_tooDeep (hp : p.Acyclic) {ds : List Definition} {code : List Instruction} (he : e.Holds p)
    (hds : p.Covers ds code) (hn : Instruction.depthAll code + Definition.depths ds ≤ n) :
    execute n code e ≠ .tooDeep := by
  -- the room that is left decreases from block to block; within a block the code gets shorter
  induction n generalizing ds code e with
  | zero =>
    have hpos := Instruction.depthAll_pos code
    omega
  | succ n ih =>
    rw [execute]
    induction code generalizing e with
    | nil =>
      intro hdeep
      cases hdeep
    | cons i code ihcode =>
      rw [Instruction.depthAll] at hn
      have hblock : ∀ {body e₁}, e₁.Holds p → i.calls = Instruction.callsAll body →
          i.depth = Instruction.depthAll body → execute n body e₁ ≠ .tooDeep := by
        intro body e₁ he₁ hcalls hdepth
        refine ih he₁ (hds.mono fun label hl => ?_) (by omega)
        rw [Instruction.callsAll, hcalls]
        exact List.mem_append_left _ hl
      have hfirst : step (execute n) i e ≠ .tooDeep := by
        intro hstep
        obtain ⟨entry, body, e₁, hin, hdeep⟩ := step_tooDeep_iff.1 hstep
        have he₁ := he.of_sections hin.sections
        cases hin with
        | container h => exact hblock he₁ (by rw [Instruction.calls]) (by rw [Instruction.depth]) hdeep
        | conditional h => exact hblock he₁ (by rw [Instruction.calls]) (by rw [Instruction.depth]) hdeep
        | @call id label mode callee body h =>
          obtain ⟨d, hd, rfl⟩ := Engine.Holds.found (e := e.registered id) he h.found
          obtain rfl : d.body = body := Option.some.inj h.body
          have hl : label ∈ Instruction.callsAll (.single id (.call label mode) :: code) := List.mem_cons_self
          have hmem : d ∈ ds := hds d ⟨label, hl, label, .refl, hd⟩
          -- no call leads back to the section, so it need not be paid for twice
          have htrade := Definition.depths_erase hmem
          exact ih he₁ (hds.enter hp hl hd) (by omega) hdeep
      have hconfined := stable_confined.closed.step (stable_confined.closed.execute n) i e
      rw [sequence]
      cases hr : step (execute n) i e with
      | tooDeep => exact absurd hr hfirst
      | failed fault e' j =>
        intro hdeep
        cases (bind_of_failed hr).symm.trans hdeep
      | done _ e' j =>
        rw [hr] at hconfined
        rw [bind_of_done hr, ne_eq, Outcome.after_eq_tooDeep]
        refine ihcode (he.of_sections hconfined.sections) (hds.mono fun label hl => ?_) (by omega)
        exact List.mem_append_right _ hl

/-- The body of a section that has been called. -/
theorem execute_ne_tooDeep_of_admits (hp : p.Acyclic) (he : e.Holds p) {label : String} {mode : Mode}
    {callee : Section} {body : List Instruction} (h : Admits e label mode callee body) (hn : p.nesting ≤ n) :
    execute n body { e with context := ⟨mode, callee⟩ } ≠ .tooDeep := by
  obtain ⟨d, hd, rfl⟩ := he.found h.found
  obtain rfl : d.body = body := Option.some.inj h.body
  have htrade := Definition.depths_erase (Program.mem_of_section? hd)
  -- a block that calls the label and nothing else
  have hcovers := (p.covers_all [.single .root (.call label mode)]).enter hp List.mem_cons_self hd
  refine execute_ne_tooDeep (e := { e with context := ⟨mode, .ofDefinition d⟩ }) hp he hcovers ?_
  rw [htrade]
  exact hn

end Action

/-! ### Requests that end -/

namespace Request

/-- How deep the text of the code is nested that the host brings along. -/
def depth : Request → Nat
  | .execute code | .container _ _ code | .conditional _ code => Instruction.depthAll code
  | _ => 0

theorem run_ne_tooDeep {p : Program} {e : Engine} {n : Nat} {r : Request} (hp : p.Acyclic) (he : e.Holds p)
    (hn : r.depth + p.nesting ≤ n) : r.run n e ≠ .tooDeep := by
  intro hrun
  obtain ⟨entry, code, e₁, hs, hdeep⟩ := run_tooDeep_iff.1 hrun
  cases hs with
  | execute => exact Action.execute_ne_tooDeep hp he (p.covers_all code) hn hdeep
  | container h =>
    have hinner := (Action.nests_container _ _ e).holds h
    have he₁ : e₁.Holds p := by
      split at hinner
      · exact hinner ▸ he
      · exact he.of_sections hinner.sections
    exact Action.execute_ne_tooDeep hp he₁ (p.covers_all code) hn hdeep
  | conditional h =>
    have he₁ := he.of_sections ((Action.nests_conditional _ e).holds h).sections
    exact Action.execute_ne_tooDeep hp he₁ (p.covers_all code) hn hdeep
  | call hc h =>
    have he₁ := he.of_sections (hc.related Action.staged_sections fun _ _ => rfl)
    exact Action.execute_ne_tooDeep_of_admits hp he₁ h (by omega) hdeep

end Request

namespace Action

variable {α : Type} {p : Program} {e : Engine}

/-- With room for so many levels or more the action ends, always in the same way. -/
def Returns (x : Nat → Action α) (e : Engine) (levels : Nat) : Prop :=
  ∃ o, o ≠ .tooDeep ∧ ∀ n, levels ≤ n → x n e = o

theorem returns_of_deepens {x : Nat → Action α} {levels : Nat} (hx : ∀ {m n}, m ≤ n → Deepens (x m) (x n))
    (h : x levels e ≠ .tooDeep) : Returns x e levels :=
  ⟨x levels e, h, fun _ hn => (hx hn e).resolve_left h⟩

end Action

/-- Recursion is the only source of code without an end. On an engine with the sections of a program whose call graph
has no cycle, code of the host's and every section that it calls end, and so do mounting, rendering, polling and
delivering an event. The levels that they need depend on the program alone, and on the text of the host's code where
there is any. The engine has the same sections after every request that defines none. -/
theorem acyclic_program_returns {p : Program} (hp : p.Acyclic) {e : Engine} (he : e.Holds p) :
    (∀ code, Action.Returns (fun n => Action.execute n code) e (Instruction.depthAll code + p.nesting)) ∧
      (∀ site label mode, Action.Returns (fun n => Action.invoke n site label mode) e p.nesting) ∧
      (∀ mount, Action.Returns (fun n => Action.boot n mount) e p.nesting) ∧
      Action.Returns Action.render e p.nesting ∧ Action.Returns Action.poll e p.nesting ∧
      (∀ target event, Action.Returns (fun n => Action.dispatch n target event) e p.nesting) ∧
      ∀ (n : Nat) (r : Request) (e' : Engine), ¬r.Redefines → (r.run n e).engine? = some e' → e'.Holds p := by
  have hrun : ∀ r : Request, r.depth = 0 → r.run p.nesting e ≠ .tooDeep := fun r hr =>
    Request.run_ne_tooDeep hp he (by omega)
  have hheard : ∀ {α : Type} {x : Action α}, (x >>= fun _ => pure ()) e ≠ .tooDeep → x e ≠ .tooDeep :=
    fun h hdeep => h (Action.bind_of_tooDeep hdeep)
  refine ⟨fun code => ?_, fun site label mode => ?_, fun mount => ?_, ?_, ?_, fun target event => ?_, ?_⟩
  · exact Action.returns_of_deepens (fun h => Action.execute_deepens h code)
      (Action.execute_ne_tooDeep hp he (p.covers_all code) (Nat.le_refl _))
  · exact Action.returns_of_deepens (fun h => Action.invoke_deepens h site label mode)
      (hrun (.perform site (.call label mode)) rfl)
  · exact Action.returns_of_deepens (fun h => Action.boot_deepens h mount) (hrun (.boot mount) rfl)
  · exact Action.returns_of_deepens Action.render_deepens (hrun .render rfl)
  · exact Action.returns_of_deepens Action.poll_deepens (hheard (hrun .poll rfl))
  · exact Action.returns_of_deepens (fun h => Action.dispatch_deepens h target event)
      (hheard (hrun (.dispatch target event) rfl))
  · exact fun n r e' hr hrun => he.request hr hrun

/-- Two floors with a lamp each. An earlier definition of the lamp, which does not count, calls the main section. -/
def storeys : Program where
  sections := [
    ⟨"lamp", true, [.single (.symbol "loop") (.call mainLabel .renderable)]⟩,
    ⟨"lamp", true, [.single (.symbol "bulb") (.element "i")]⟩,
    ⟨"floor", true, [.container (.symbol "room") .plain [.single (.symbol "light") (.call "lamp" .renderable)]]⟩,
    ⟨mainLabel, true, [.single (.symbol "ground") (.call "floor" .renderable),
      .single (.symbol "first") (.call "floor" .renderable)]⟩]

/-- Five levels are enough for mounting it, and three are not. -/
theorem acyclic_program_returns_storeys :
    storeys.Acyclic ∧ ((Engine.new {}).loaded storeys).Holds storeys ∧ storeys.nesting = 5 ∧
      Action.Returns (fun n => Action.boot n .root) ((Engine.new {}).loaded storeys) 5 ∧
      ((Request.boot .root).run 3 ((Engine.new {}).loaded storeys)).engine?.map (·.report) = none := by
  have hp : storeys.Acyclic := by
    refine Program.acyclic_of_rank (fun label => if label = mainLabel then 2 else if label = "floor" then 1 else 0) ?_
    decide +kernel
  have he := Engine.holds_loaded {} storeys
  have hnesting : storeys.nesting = 5 := by decide +kernel
  obtain ⟨-, -, hboot, -⟩ := acyclic_program_returns hp he
  exact ⟨hp, he, hnesting, hnesting ▸ hboot .root, by decide +kernel⟩

end Trellis
