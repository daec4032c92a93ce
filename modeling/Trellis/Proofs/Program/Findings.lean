import Mathlib
import Trellis.Program.Check

/-!
# What the check of a program finds

A place in a program is an address: the number of a section, the number of an instruction in its body, the number of an
instruction in that one's body, and so on. Addresses in the order of a dictionary are the code in the order in which it
is read, each block before what it holds. A finding is a fact about one place, said without the check: a label that is
defined there for the first of several times, or a name that nothing in the program defines. The check gives these
findings, each once, in the order of their places, and nothing else.
-/
namespace Trellis

/-! ### Lists by address -/

/-- The list gives the values of a relation on addresses, each once and in the order of the addresses. -/
def Enumerates {α : Type} (R : List Nat → α → Prop) (values : List α) : Prop :=
  ∃ sites : List (List Nat × α), (∀ place a, (place, a) ∈ sites ↔ R place a) ∧
    sites.Pairwise (fun s t => s.1 < t.1) ∧ sites.map (·.2) = values

namespace Enumerates

variable {α β : Type} {R S T : List Nat → α → Prop} {xs ys : List α}

theorem congr (h : Enumerates R xs) (hiff : ∀ place a, R place a ↔ S place a) : Enumerates S xs := by
  obtain ⟨sites, hmem, hsorted, hvalues⟩ := h
  exact ⟨sites, fun place a => (hmem place a).trans (hiff place a), hsorted, hvalues⟩

theorem nil (h : ∀ place a, ¬ R place a) : Enumerates R [] :=
  ⟨[], by simp [h], .nil, rfl⟩

/-- At one place there is at most one value. -/
theorem here (h : xs.length ≤ 1) : Enumerates (fun place a => place = [] ∧ a ∈ xs) xs := by
  refine ⟨xs.map ([], ·), by simp [and_comm, eq_comm], ?_, by simp⟩
  match xs, h with
  | [], _ => exact .nil
  | [a], _ => exact List.pairwise_singleton ..

theorem append (hx : Enumerates R xs) (hy : Enumerates S ys)
    (hlt : ∀ place a place' a', R place a → S place' a' → place < place') :
    Enumerates (fun place a => R place a ∨ S place a) (xs ++ ys) := by
  obtain ⟨sites, hmem, hsorted, rfl⟩ := hx
  obtain ⟨sites', hmem', hsorted', rfl⟩ := hy
  refine ⟨sites ++ sites', by simp [hmem, hmem'], List.pairwise_append.2 ⟨hsorted, hsorted', ?_⟩, by simp⟩
  rintro ⟨place, a⟩ hs ⟨place', a'⟩ hs'
  exact hlt place a place' a' ((hmem place a).1 hs) ((hmem' place' a').1 hs')

theorem map (f : List Nat → List Nat) (hf : ∀ place place', place < place' → f place < f place')
    (h : Enumerates R xs) : Enumerates (fun place a => ∃ rest, place = f rest ∧ R rest a) xs := by
  obtain ⟨sites, hmem, hsorted, rfl⟩ := h
  refine ⟨sites.map (Prod.map f id), fun place a => ?_, ?_, by simp⟩
  · simp only [List.mem_map, Prod.exists, Prod.map_apply, id_eq, Prod.mk.injEq, hmem]
    constructor
    · rintro ⟨rest, b, hr, rfl, rfl⟩
      exact ⟨rest, rfl, hr⟩
    · rintro ⟨rest, rfl, hr⟩
      exact ⟨rest, a, hr, rfl, rfl⟩
  · refine List.pairwise_map.2 (hsorted.imp ?_)
    rintro ⟨place, a⟩ ⟨place', a'⟩ hlt
    exact hf place place' hlt

theorem filterMap (f : α → Option β) (h : Enumerates R xs) :
    Enumerates (fun place b => ∃ a, R place a ∧ f a = some b) (xs.filterMap f) := by
  obtain ⟨sites, hmem, hsorted, rfl⟩ := h
  refine ⟨sites.filterMap fun s => (f s.2).map (s.1, ·), fun place b => ?_, ?_, ?_⟩
  · simp only [List.mem_filterMap, Prod.exists, Option.map_eq_some_iff, Prod.mk.injEq, hmem]
    constructor
    · rintro ⟨place, a, hr, b, hb, rfl, rfl⟩
      exact ⟨a, hr, hb⟩
    · rintro ⟨a, hr, hb⟩
      exact ⟨place, a, hr, b, hb, rfl, rfl⟩
  · refine List.pairwise_filterMap.2 (hsorted.imp ?_)
    rintro ⟨place, a⟩ ⟨place', a'⟩ hlt s hs t ht
    obtain ⟨b, -, rfl⟩ := Option.map_eq_some_iff.1 hs
    obtain ⟨b', -, rfl⟩ := Option.map_eq_some_iff.1 ht
    exact hlt
  · rw [List.map_filterMap, List.filterMap_map]
    congr 1
    funext s
    simp [Function.comp_def]

/-- What is at the head of a list of blocks comes before what is in the others, whose numbers are one larger. -/
theorem cons (hx : Enumerates R xs) (hy : Enumerates S ys) (hne : ∀ a, ¬ S [] a) :
    Enumerates (fun place a => (∃ rest, place = 0 :: rest ∧ R rest a) ∨
      ∃ rest, place = rest.modifyHead (· + 1) ∧ S rest a) (xs ++ ys) := by
  refine (hx.map (0 :: ·) ?_).append (hy.map (List.modifyHead (· + 1)) ?_) ?_
  · intro place place' hlt
    exact List.cons_lt_cons_iff.2 (.inr ⟨rfl, hlt⟩)
  · intro place place' hlt
    cases place <;> cases place' <;> simp_all [List.cons_lt_cons_iff]
  · rintro place a place' a' ⟨rest, rfl, -⟩ ⟨rest', rfl, hs⟩
    cases rest' with
    | nil => exact absurd hs (hne a')
    | cons n rest' => exact List.cons_lt_cons_iff.2 (.inl (Nat.succ_pos n))

/-- There is one such list. -/
theorem unique (hx : Enumerates R xs) (hy : Enumerates R ys) : xs = ys := by
  obtain ⟨sites, hmem, hsorted, rfl⟩ := hx
  obtain ⟨sites', hmem', hsorted', rfl⟩ := hy
  have hsame : ∀ s, s ∈ sites ↔ s ∈ sites' := fun s => (hmem s.1 s.2).trans (hmem' s.1 s.2).symm
  have : Std.Irrefl fun s t : List Nat × α => s.1 < t.1 := ⟨fun s => lt_irrefl s.1⟩
  have : Std.Antisymm fun s t : List Nat × α => s.1 < t.1 := ⟨fun s t hst hts => absurd hts (lt_asymm hst)⟩
  rw [hsorted.eq_of_mem_iff hsorted' hsame]

end Enumerates

/-! ### Code by address -/

namespace Instruction

/-- The instruction at an address in code. -/
inductive At : List Instruction → List Nat → Instruction → Prop
  | here {code n i} : code[n]? = some i → At code [n] i
  | inside {code n block body path i} :
    code[n]? = some block → block.body? = some body → At body path i → At code (n :: path) i

theorem not_at_nil {path : List Nat} {i : Instruction} : ¬ At [] path i := by
  rintro (⟨hn⟩ | ⟨hn, -, -⟩) <;> simp at hn

theorem not_at_empty {code : List Instruction} {i : Instruction} : ¬ At code [] i := by
  rintro ⟨⟩

/-- An address in a list of instructions leads to the first, into its body, or past it. -/
theorem at_cons_iff {i j : Instruction} {is : List Instruction} {path : List Nat} :
    At (i :: is) path j ↔
      (∃ rest, path = 0 :: rest ∧ (rest = [] ∧ j = i ∨ ∃ body, i.body? = some body ∧ At body rest j)) ∨
        ∃ rest, path = rest.modifyHead (· + 1) ∧ At is rest j := by
  constructor
  · intro h
    cases h with
    | @here _ n _ hn =>
      cases n with
      | zero => exact .inl ⟨[], rfl, .inl ⟨rfl, (Option.some.inj hn).symm⟩⟩
      | succ n => exact .inr ⟨[n], rfl, .here hn⟩
    | @inside _ n _ body rest _ hn hbody hat =>
      cases n with
      | zero =>
        obtain rfl := Option.some.inj hn
        exact .inl ⟨rest, rfl, .inr ⟨body, hbody, hat⟩⟩
      | succ n => exact .inr ⟨n :: rest, rfl, .inside hn hbody hat⟩
  · rintro (⟨rest, rfl, ⟨rfl, rfl⟩ | ⟨body, hbody, hat⟩⟩ | ⟨rest, rfl, hat⟩)
    · exact .here rfl
    · exact .inside rfl hbody hat
    · cases hat with
      | here hn => exact .here hn
      | inside hn hbody hat => exact .inside hn hbody hat

/-- Code in which every block has the property that its body has and the rest of the code after it. -/
theorem codeInduction {P : List Instruction → Prop} (nil : P [])
    (block : ∀ i body is, i.body? = some body → P body → P is → P (i :: is))
    (single : ∀ id operation is, P is → P (.single id operation :: is)) (code : List Instruction) : P code :=
  @Instruction.rec_1 (fun i => ∀ is, P is → P (i :: is)) P
    (fun _ _ body hbody is => block _ body is rfl hbody) (fun _ body hbody is => block _ body is rfl hbody)
    single nil (fun _ is hi his => hi is his) code

end Instruction

/-- What an operation names: calls and handlers name sections, pushes and values name entries of the tables. -/
inductive Operation.Names : Operation → Reference → Prop
  | call (label : String) (mode : Mode) : Names (.call label mode) (.section label)
  | listen (event handler : String) : Names (.listen event handler) (.section handler)
  | pushString (key : Int64) : Names (.push (.string key)) (.string key)
  | pushConstant (key : Int64) : Names (.push (.constant key)) (.constant key)
  | valueString (raw : Bool) (key : Int64) : Names (.value raw (.string key)) (.string key)
  | valueConstant (raw : Bool) (key : Int64) : Names (.value raw (.constant key)) (.constant key)

theorem Operation.names_iff {operation : Operation} {r : Reference} :
    operation.Names r ↔ r ∈ operation.references := by
  constructor
  · rintro ⟨⟩ <;> simp [references, Source.references]
  · intro h
    cases operation with
    | call label mode =>
      obtain rfl := List.mem_singleton.1 h
      exact .call label mode
    | listen event handler =>
      obtain rfl := List.mem_singleton.1 h
      exact .listen event handler
    | push source =>
      cases source with
      | string key =>
        obtain rfl := List.mem_singleton.1 h
        exact .pushString key
      | constant key =>
        obtain rfl := List.mem_singleton.1 h
        exact .pushConstant key
      | stack => cases h
    | value raw source =>
      cases source with
      | string key =>
        obtain rfl := List.mem_singleton.1 h
        exact .valueString raw key
      | constant key =>
        obtain rfl := List.mem_singleton.1 h
        exact .valueConstant raw key
      | stack => cases h
    | _ => cases h

theorem Operation.length_references_le (operation : Operation) : operation.references.length ≤ 1 := by
  have hsource : ∀ source : Source, source.references.length ≤ 1 := by
    rintro (_ | _ | _) <;> simp [Source.references]
  cases operation <;> simp [references, hsource]

namespace Instruction

/-- The code names something at an address. -/
def Cites (code : List Instruction) (path : List Nat) (r : Reference) : Prop :=
  ∃ id operation, At code path (.single id operation) ∧ operation.Names r

theorem cites_cons_iff {i : Instruction} {is : List Instruction} {path : List Nat} {r : Reference} :
    Cites (i :: is) path r ↔
      (∃ rest, path = 0 :: rest ∧ (rest = [] ∧ (∃ id operation, i = .single id operation ∧ operation.Names r) ∨
        ∃ body, i.body? = some body ∧ Cites body rest r)) ∨
        ∃ rest, path = rest.modifyHead (· + 1) ∧ Cites is rest r := by
  simp only [Cites, at_cons_iff]
  constructor
  · rintro ⟨id, operation, ⟨rest, rfl, ⟨rfl, rfl⟩ | ⟨body, hbody, hat⟩⟩ | ⟨rest, rfl, hat⟩, hr⟩
    · exact .inl ⟨[], rfl, .inl ⟨rfl, id, operation, rfl, hr⟩⟩
    · exact .inl ⟨rest, rfl, .inr ⟨body, hbody, id, operation, hat, hr⟩⟩
    · exact .inr ⟨rest, rfl, id, operation, hat, hr⟩
  · rintro (⟨rest, rfl, ⟨rfl, id, operation, rfl, hr⟩ | ⟨body, hbody, id, operation, hat, hr⟩⟩ |
      ⟨rest, rfl, id, operation, hat, hr⟩)
    · exact ⟨id, operation, .inl ⟨[], rfl, .inl ⟨rfl, rfl⟩⟩, hr⟩
    · exact ⟨id, operation, .inl ⟨rest, rfl, .inr ⟨body, hbody, hat⟩⟩, hr⟩
    · exact ⟨id, operation, .inr ⟨rest, rfl, hat⟩, hr⟩

theorem not_cites_empty {code : List Instruction} (r : Reference) : ¬ Cites code [] r := by
  rintro ⟨id, operation, hat, -⟩
  exact not_at_empty hat

/-- The references of code are what it names, in the order of the addresses. -/
theorem enumerates_references (code : List Instruction) : Enumerates (Cites code) (referencesAll code) := by
  induction code using codeInduction with
  | nil =>
    refine .nil ?_
    rintro path r ⟨id, operation, hat, -⟩
    exact not_at_nil hat
  | single id operation is ih =>
    rw [referencesAll, references]
    refine ((Enumerates.here operation.length_references_le).cons ih not_cites_empty).congr fun path r => ?_
    simp [cites_cons_iff, body?, Operation.names_iff]
  | block i body is hbody ihb ihs =>
    have hreferences : i.references = referencesAll body := by
      cases i with
      | container | conditional =>
        obtain rfl := Option.some.inj hbody
        rw [references]
      | single => cases hbody
    have hblock : ∀ id operation, i ≠ .single id operation := by
      rintro id operation rfl
      cases hbody
    rw [referencesAll, hreferences]
    refine (ihb.cons ihs not_cites_empty).congr fun path r => ?_
    simp [cites_cons_iff, hbody, hblock]

end Instruction

/-! ### Findings -/

namespace Program

/-- The program does not define what is named. -/
def Lacks (p : Program) : Reference → Prop
  | .section label => ∀ d ∈ p.sections, d.label ≠ label
  | .string key => ∀ entry ∈ p.strings, entry.1 ≠ key
  | .constant key => ∀ entry ∈ p.constants, entry.1 ≠ key

def Warning.undefined (origin : String) : Reference → Warning
  | .section label => .undefinedSection origin label
  | .string key => .undefinedString origin key
  | .constant key => .undefinedConstant origin key

/-- What there is to warn of at a place: a section whose label is defined there first and again later, or an instruction
in a section that names something undefined. -/
inductive Finding (p : Program) : List Nat → Warning → Prop
  | again {earlier d later} : p.sections = earlier ++ d :: later → (∀ x ∈ earlier, x.label ≠ d.label) →
    (∃ x ∈ later, x.label = d.label) → Finding p [earlier.length] (.duplicateSection d.label)
  | undefined {earlier d later path r} : p.sections = earlier ++ d :: later → Instruction.Cites d.body path r →
    p.Lacks r → Finding p (earlier.length :: path) (.undefined d.label r)

theorem warning?_eq_some_iff {p : Program} {origin : String} {r : Reference} {w : Warning} :
    p.warning? origin r = some w ↔ p.Lacks r ∧ w = .undefined origin r := by
  rcases r with label | key | key
  all_goals
    rw [warning?, Option.ite_none_left_eq_some, Option.some.injEq, @eq_comm Warning w]
    simp only [Lacks, Warning.undefined, defines, List.any_eq_true, decide_eq_true_eq, not_exists, not_and, ne_eq]

/-- What there is to warn of in a section, given the labels before it and the sections after it. -/
def SectionFinding (p : Program) (before : List String) (d : Definition) (later : List Definition) (path : List Nat)
    (w : Warning) : Prop :=
  path = [] ∧ d.label ∉ before ∧ d.label ∈ later.map (·.label) ∧ w = .duplicateSection d.label ∨
    ∃ r, Instruction.Cites d.body path r ∧ p.Lacks r ∧ w = .undefined d.label r

/-- Only which labels come before matters. -/
theorem sectionFinding_congr {p : Program} {before before' : List String}
    (h : ∀ label, label ∈ before ↔ label ∈ before') {d : Definition} {later : List Definition} {path : List Nat}
    {w : Warning} :
    p.SectionFinding before d later path w ↔ p.SectionFinding before' d later path w := by
  rw [SectionFinding, SectionFinding, h]

theorem enumerates_section (p : Program) (before : List String) (d : Definition) (later : List Definition) :
    Enumerates (p.SectionFinding before d later)
      ((if d.label ∉ before ∧ d.label ∈ later.map (·.label) then [.duplicateSection d.label] else []) ++
        (Instruction.referencesAll d.body).filterMap (p.warning? d.label)) := by
  have hone : (if d.label ∉ before ∧ d.label ∈ later.map (·.label) then [Warning.duplicateSection d.label]
      else []).length ≤ 1 := by split <;> simp
  have hreferences := (Instruction.enumerates_references d.body).filterMap (p.warning? d.label)
  refine ((Enumerates.here hone).append hreferences ?_).congr fun path w => ?_
  · rintro path w path' w' ⟨rfl, -⟩ ⟨r, hr, -⟩
    cases path' with
    | nil => exact absurd hr (Instruction.not_cites_empty r)
    | cons n path' => exact List.nil_lt_cons n path'
  · refine or_congr (and_congr_right fun _ => ?_) (exists_congr fun r => and_congr_right fun _ => warning?_eq_some_iff)
    split
    case isTrue h => simp [h]
    case isFalse h =>
      simp only [List.not_mem_nil, false_iff]
      rintro ⟨hbefore, hlater, -⟩
      exact h ⟨hbefore, hlater⟩

/-- What there is to warn of in sections that come after others with the given labels. -/
def FindingFrom (p : Program) (before : List String) (ds : List Definition) (place : List Nat) (w : Warning) : Prop :=
  ∃ earlier d later path, ds = earlier ++ d :: later ∧ place = earlier.length :: path ∧
    p.SectionFinding (earlier.map (·.label) ++ before) d later path w

theorem findingFrom_cons_iff {p : Program} {before : List String} {d : Definition} {ds : List Definition}
    {place : List Nat} {w : Warning} :
    p.FindingFrom before (d :: ds) place w ↔ (∃ rest, place = 0 :: rest ∧ p.SectionFinding before d ds rest w) ∨
      ∃ rest, place = rest.modifyHead (· + 1) ∧ p.FindingFrom (d.label :: before) ds rest w := by
  have hlabels : ∀ (earlier : List Definition) (label : String),
      label ∈ (d :: earlier).map (·.label) ++ before ↔ label ∈ earlier.map (·.label) ++ d.label :: before := by
    intro earlier label
    simp only [List.map_cons, List.cons_append, List.mem_cons, List.mem_append]
    tauto
  constructor
  · rintro ⟨earlier, d', later, path, hsplit, rfl, h⟩
    cases earlier with
    | nil =>
      cases hsplit
      exact .inl ⟨path, rfl, h⟩
    | cons x earlier =>
      cases hsplit
      exact .inr ⟨earlier.length :: path, rfl, earlier, d', later, path, rfl, rfl,
        (sectionFinding_congr (hlabels earlier)).1 h⟩
  · rintro (⟨rest, rfl, h⟩ | ⟨rest, rfl, earlier, d', later, path, rfl, rfl, h⟩)
    · exact ⟨[], d, ds, rest, rfl, rfl, h⟩
    · exact ⟨d :: earlier, d', later, path, rfl, rfl, (sectionFinding_congr (hlabels earlier)).2 h⟩

theorem enumerates_warningsFrom (p : Program) (before : List String) (ds : List Definition) :
    Enumerates (p.FindingFrom before ds) (p.warningsFrom before ds) := by
  induction ds generalizing before with
  | nil =>
    refine .nil ?_
    rintro place w ⟨earlier, d, later, path, hsplit, -⟩
    simp at hsplit
  | cons d ds ih =>
    have hne : ∀ w, ¬ p.FindingFrom (d.label :: before) ds [] w := by
      rintro w ⟨earlier, d, later, path, -, hplace, -⟩
      cases hplace
    rw [warningsFrom]
    exact ((p.enumerates_section before d ds).cons (ih (d.label :: before)) hne).congr fun place w =>
      findingFrom_cons_iff.symm

theorem finding_iff {p : Program} {place : List Nat} {w : Warning} :
    p.Finding place w ↔ p.FindingFrom [] p.sections place w := by
  constructor
  · rintro (⟨hsplit, hearlier, hlater⟩ | ⟨hsplit, hr, hlacks⟩)
    · refine ⟨_, _, _, [], hsplit, rfl, .inl ⟨rfl, ?_, ?_, rfl⟩⟩
      · simpa using hearlier
      · simpa using hlater
    · exact ⟨_, _, _, _, hsplit, rfl, .inr ⟨_, hr, hlacks, rfl⟩⟩
  · rintro ⟨earlier, d, later, path, hsplit, rfl, ⟨rfl, hearlier, hlater, rfl⟩ | ⟨r, hr, hlacks, rfl⟩⟩
    · exact .again hsplit (by simpa using hearlier) (by simpa using hlater)
    · exact .undefined hsplit hr hlacks

/-- A program fails the check exactly if it has no main section. Otherwise the check gives its findings, all of them and
each once, in the order of the code. -/
theorem check_exact (p : Program) :
    (∀ defect, p.check = .error defect ↔ defect = .missingMain ∧ ∀ d ∈ p.sections, d.label ≠ mainLabel) ∧
      ∀ ws, p.check = .ok ws ↔ (∃ d ∈ p.sections, d.label = mainLabel) ∧ Enumerates p.Finding ws := by
  have hfindings : Enumerates p.Finding (p.warningsFrom [] p.sections) :=
    (p.enumerates_warningsFrom [] p.sections).congr fun place w => finding_iff.symm
  have hmain : p.defines mainLabel = true ↔ ∃ d ∈ p.sections, d.label = mainLabel := by simp [defines]
  rw [check]
  split
  case isTrue h =>
    obtain ⟨d, hd, hlabel⟩ := hmain.1 h
    refine ⟨fun defect => ?_, fun ws => ?_⟩
    · simp only [reduceCtorEq, false_iff]
      rintro ⟨-, hnone⟩
      exact hnone d hd hlabel
    · constructor
      · rintro ⟨⟩
        exact ⟨⟨d, hd, hlabel⟩, hfindings⟩
      · rintro ⟨-, hws⟩
        rw [hfindings.unique hws]
  case isFalse h =>
    rw [hmain] at h
    refine ⟨fun defect => ?_, fun ws => ?_⟩
    · constructor
      · rintro ⟨⟩
        exact ⟨rfl, fun d hd hlabel => h ⟨d, hd, hlabel⟩⟩
      · rintro ⟨rfl, -⟩
        rfl
    · simp only [reduceCtorEq, false_iff]
      rintro ⟨hsome, -⟩
      exact h hsome

end Program
end Trellis
