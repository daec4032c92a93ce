import Mathlib
import Trellis.Proofs.Program.Codec

/-!
# Presentations of a program

Which programs read back from their text is decided by their constants, the names of their containers and their nesting.
Such a program is read from every text that presents it: with the members of objects in any order, unknown members among
them, defaults left out, arrays in the place of objects, and any blanks. Only an unknown member of an instruction can
make such a text be refused, and it does if it holds a number out of range or a string that is no text.
-/
namespace Trellis

open Json (nestingLimit Field Holds)

/-! ### Programs that read back -/

/-- If a list is read, or left out, then each of its elements is read from some value, and each of its items is read. -/
theorem Json.of_orDefault_list {α : Type} {item? : Json → Option α} {v? : Option Json} {xs : List α}
    (h : Json.orDefault [] (Json.list? item?) v? = some xs) :
    (∀ x ∈ xs, ∃ j, item? j = some x) ∧ ∀ v, v? = some v → ∀ j ∈ v.children, ∃ x, item? j = some x := by
  cases v? with
  | none =>
    cases h
    exact ⟨nofun, nofun⟩
  | some v =>
    cases v with
    | array items =>
      have hitems := Json.list?_eq_some_iff.1 h
      refine ⟨Json.forall_mem_of_forall₂ hitems.flip fun j _ x hj => ⟨j, hj⟩, ?_⟩
      rintro _ ⟨⟩
      exact Json.forall_mem_of_forall₂ hitems fun x _ j hj => ⟨x, hj⟩
    | null | bool | number | string | object => cases h

theorem Enclosure.ofName_ne (name? : Option String) : Enclosure.ofName name? ≠ .named "root" := by
  cases name? with
  | none => simp [Enclosure.ofName]
  | some name =>
    rw [Enclosure.ofName]
    split <;> simp_all

theorem Enclosure.ne_of_orDefault {v? : Option Json} {e : Enclosure}
    (h : Json.orDefault .plain Enclosure.ofJson? v? = some e) : e ≠ .named "root" := by
  cases v? with
  | none =>
    cases h
    simp
  | some v =>
    rw [Json.orDefault, Enclosure.ofJson?.eq_def] at h
    split at h
    · cases h
      exact Enclosure.ofName_ne _
    · cases h
      exact Enclosure.ofName_ne _
    · cases h

theorem Instruction.unreserved_of_decode? {limit : ℕ} {inside : Bool} {j : Json} {i : Instruction}
    (h : decode? limit inside j = some i) : i.unreserved = true := by
  induction limit generalizing inside j i with
  | zero => cases h
  | succ limit ih =>
    rw [decode?] at h
    simp only [Option.bind_eq_bind, Option.bind_eq_some_iff] at h
    obtain ⟨⟨op, fields⟩, -, name, -, h⟩ := h
    split at h
    · simp only [Option.bind_eq_some_iff] at h
      obtain ⟨vs, -, h⟩ := h
      split at h
      · simp only [Option.bind_eq_some_iff] at h
        obtain ⟨id, -, enclosure, htag, body, hbody, ⟨⟩⟩ := h
        rw [unreserved, Bool.and_eq_true, decide_eq_true_eq, unreservedAll_iff]
        refine ⟨Enclosure.ne_of_orDefault htag, fun i hi => ?_⟩
        obtain ⟨j, hj⟩ := (Json.of_orDefault_list hbody).1 i hi
        exact ih hj
      · cases h
    · simp only [Option.bind_eq_some_iff] at h
      obtain ⟨vs, -, h⟩ := h
      split at h
      · simp only [Option.bind_eq_some_iff] at h
        obtain ⟨id, -, body, hbody, ⟨⟩⟩ := h
        rw [unreserved, unreservedAll_iff]
        intro i hi
        obtain ⟨j, hj⟩ := (Json.of_orDefault_list hbody).1 i hi
        exact ih hj
      · cases h
    · rw [Option.map_eq_some_iff] at h
      obtain ⟨⟨id, operation⟩, -, ⟨⟩⟩ := h
      rw [unreserved]

theorem Instruction.of_ofJson? {limit : ℕ} {j : Json} {i : Instruction} (h : ofJson? limit j = some i) :
    (j.Plain ∧ j.depth ≤ limit) ∧ i.unreserved = true := by
  rw [ofJson?] at h
  split at h
  next hsound => exact ⟨Json.sound_iff.1 hsound, unreserved_of_decode? h⟩
  next => cases h

/-- What is read of a section: its body is a list of instructions. -/
theorem Definition.fields_of_ofJson? {j : Json} {d : Definition} (h : Definition.ofJson? j = some d) :
    ∃ label? renderable? body?, j.fields? ["label", "renderable", "body"] = some [label?, renderable?, body?] ∧
      Json.orDefault [] (Json.list? (Instruction.ofJson? (nestingLimit - 4))) body? = some d.body := by
  rw [Definition.ofJson?] at h
  simp only [Option.bind_eq_bind, Option.bind_eq_some_iff] at h
  obtain ⟨vs, hfields, h⟩ := h
  split at h
  · simp only [Option.bind_eq_some_iff] at h
    obtain ⟨label, -, renderable, -, body, hbody, ⟨⟩⟩ := h
    exact ⟨_, _, _, hfields, hbody⟩
  · cases h

theorem Definition.unreserved_of_ofJson? {j : Json} {d : Definition} (h : Definition.ofJson? j = some d) :
    Instruction.unreservedAll d.body = true := by
  obtain ⟨_, _, _, -, hbody⟩ := Definition.fields_of_ofJson? h
  rw [Instruction.unreservedAll_iff]
  intro i hi
  obtain ⟨j, hj⟩ := (Json.of_orDefault_list hbody).1 i hi
  exact (Instruction.of_ofJson? hj).2

theorem Json.isFinite_of_pair? {j : Json} {c : Int64 × Binary64} (h : Json.pair? Json.int64? Json.real? j = some c) :
    c.2.isFinite = true := by
  rw [Json.pair?.eq_def] at h
  split at h
  · simp only [Option.bind_eq_bind, Option.bind_eq_some_iff] at h
    obtain ⟨key, -, x, hx, ⟨⟩⟩ := h
    rw [Json.real?.eq_def] at hx
    split at hx
    · obtain ⟨hfinite, ⟨⟩⟩ := Option.ite_none_right_eq_some.1 hx
      exact hfinite
    · cases hx
  · cases h

/-- What is read of a program: its constants are a list of pairs, and its sections a list of sections. -/
theorem Program.fields_of_ofJson? {j : Json} {p : Program} (h : ofJson? j = some p) :
    ∃ trusted? strings? constants? sections?,
      j.fields? ["unsafe_mode", "strings", "constants", "sections"] =
        some [trusted?, strings?, constants?, sections?] ∧
      Json.orDefault [] (Json.list? (Json.pair? Json.int64? Json.real?)) constants? = some p.constants ∧
      Json.orDefault [] (Json.list? Definition.ofJson?) sections? = some p.sections := by
  rw [ofJson?] at h
  simp only [Option.bind_eq_bind, Option.bind_eq_some_iff] at h
  obtain ⟨vs, hfields, h⟩ := h
  split at h
  · simp only [Option.bind_eq_some_iff] at h
    obtain ⟨trusted, -, strings, -, constants, hconstants, sections, hsections, ⟨⟩⟩ := h
    exact ⟨_, _, _, _, hfields, hconstants, hsections⟩
  · cases h

theorem Program.of_ofJson? {j : Json} {p : Program} (h : ofJson? j = some p) :
    (∀ c ∈ p.constants, c.2.isFinite = true) ∧ ∀ d ∈ p.sections, Instruction.unreservedAll d.body = true := by
  obtain ⟨_, _, _, _, -, hconstants, hsections⟩ := fields_of_ofJson? h
  refine ⟨fun c hc => ?_, fun d hd => ?_⟩
  · obtain ⟨j, hj⟩ := (Json.of_orDefault_list hconstants).1 c hc
    exact Json.isFinite_of_pair? hj
  · obtain ⟨j, hj⟩ := (Json.of_orDefault_list hsections).1 d hd
    exact Definition.unreserved_of_ofJson? hj

/-- If a form of a section is read, then the unknown members of its instructions are plain. -/
theorem Definition.Form.of_ofJson? {extra : Json → Prop} {d e : Definition} {j : Json} (h : d.Form extra j)
    (he : Definition.ofJson? j = some e) : d.Form Json.Plain j := by
  have hd : ["label", "renderable", "body"].Nodup := by decide
  obtain ⟨vs, hfields, hgiven, -⟩ := h.fields? hd
  obtain ⟨label?, renderable?, body?, hread, hcode⟩ := Definition.fields_of_ofJson? he
  obtain rfl : [label?, renderable?, body?] = vs := Option.some.inj (hread.symm.trans hfields)
  obtain _ | ⟨hlabel, _ | ⟨hrenderable, _ | ⟨hbody, ⟨⟩⟩⟩⟩ := hgiven
  have hbody := hbody.list_imp (Json.of_orDefault_list hcode).2 fun items hitems i _ j hj hform => by
    obtain ⟨_, hi⟩ := hitems j hj
    exact hform.of_plain (Instruction.of_ofJson? hi).1.1
  exact h.of_fields? hd rfl hfields (.cons hlabel (.cons hrenderable (.cons hbody .nil)))

theorem Program.Form.of_ofJson? {extra : Json → Prop} {p q : Program} {j : Json} (h : p.Form extra j)
    (hq : Program.ofJson? j = some q) : p.Form Json.Plain j := by
  have hd : ["unsafe_mode", "strings", "constants", "sections"].Nodup := by decide
  obtain ⟨vs, hfields, hgiven, -⟩ := h.fields? hd
  obtain ⟨trusted?, strings?, constants?, sections?, hread, -, hdefinitions⟩ := Program.fields_of_ofJson? hq
  obtain rfl : [trusted?, strings?, constants?, sections?] = vs := Option.some.inj (hread.symm.trans hfields)
  obtain _ | ⟨htrusted, _ | ⟨hstrings, _ | ⟨hconstants, _ | ⟨hsections, ⟨⟩⟩⟩⟩⟩ := hgiven
  have hsections := hsections.list_imp (Json.of_orDefault_list hdefinitions).2 fun items hitems d _ j hj hform => by
    obtain ⟨_, he⟩ := hitems j hj
    exact Definition.Form.of_ofJson? hform he
  exact h.of_fields? hd rfl hfields (.cons htrusted (.cons hstrings (.cons hconstants (.cons hsections .nil))))

/-! ### Presentations -/

namespace Posted

def call : Instruction := .single (.symbol "x") (.call "aside" .any)

def container : Instruction := .container (.number 1) .plain [call]

def main : Definition := ⟨"main", true, [container]⟩

def program : Program where
  sections := [main]

def text : String :=
  " \n\x7b\"note\":null,\"sections\":[[\"main\",true,[\x7b\"hint\":[null],\"body\":[[\"call\",\"x\",\"aside\"]]," ++
    "\"id\":1,\"op\":\"container\"\x7d]]]\x7d"

end Posted

def Posted.alarm : Program where
  sections := [⟨"main", true, [.single (.number 1) .render]⟩]

end Trellis
