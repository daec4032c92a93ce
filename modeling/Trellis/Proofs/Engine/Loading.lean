import Trellis.Proofs.Engine.Reachable

/-!
# What loading a program leaves

Loading always ends. It replaces the tables, in which the last entry of each key counts, and defines the sections in
order over those that were there, so that of a label the last definition counts. Like the other requests that only
prepare for later ones, it does not disturb what code runs on.
-/
namespace Trellis

namespace Table

variable {κ α : Type} [DecidableEq κ]

theorem get?_insert (t : Table κ α) (k l : κ) (v : α) :
    (t.insert k v).get? l = if k = l then some v else t.get? l := by
  split
  case isTrue h => rw [h, get?_insert_self]
  case isFalse h => exact get?_insert_of_ne t v (Ne.symm h)

/-- Of several entries for a key the last one counts, and an older entry only if there is none. -/
theorem get?_foldl_insert (entries : List (κ × α)) (t : Table κ α) (k : κ) :
    (entries.foldl (fun t e => t.insert e.1 e.2) t).get? k =
      ((entries.reverse.find? (·.1 = k)).map (·.2)).or (t.get? k) := by
  induction entries generalizing t with
  | nil => rfl
  | cons e entries ih =>
    rw [List.foldl_cons, ih, get?_insert, List.reverse_cons, List.find?_append]
    cases entries.reverse.find? (·.1 = k) with
    | some found => rfl
    | none => by_cases he : e.1 = k <;> simp [he]

theorem get?_ofList (entries : List (κ × α)) (k : κ) :
    (ofList entries).get? k = (entries.reverse.find? (·.1 = k)).map (·.2) := by
  rw [ofList, get?_foldl_insert, get?_empty, Option.or_none]

theorem isSome_get?_ofList {entries : List (κ × α)} {k : κ} :
    ((ofList entries).get? k).isSome = entries.any (·.1 = k) := by
  rw [get?_ofList, Option.isSome_map, List.isSome_find?, List.any_reverse]

/-- An entry of a key that no later entry of the key replaces. -/
def IsLast (entries : List (κ × α)) (k : κ) (a : α) : Prop :=
  ∃ before later, entries = before ++ (k, a) :: later ∧ ∀ entry ∈ later, entry.1 ≠ k

theorem get?_ofList_eq_some_iff {entries : List (κ × α)} {k : κ} {a : α} :
    (ofList entries).get? k = some a ↔ IsLast entries k a := by
  rw [get?_ofList, Option.map_eq_some_iff]
  constructor
  · rintro ⟨⟨l, a⟩, hfind, rfl⟩
    obtain ⟨hkey, later, before, hsplit, hlater⟩ := List.find?_eq_some_iff_append.1 hfind
    obtain rfl : l = k := by simpa using hkey
    refine ⟨before.reverse, later.reverse, ?_, ?_⟩
    · rw [← List.reverse_reverse entries, hsplit]
      simp
    · intro entry hentry
      simpa using hlater entry (List.mem_reverse.1 hentry)
  · rintro ⟨before, later, rfl, hlater⟩
    refine ⟨(k, a), List.find?_eq_some_iff_append.2 ⟨by simp, later.reverse, before.reverse, by simp, ?_⟩, rfl⟩
    intro entry hentry
    simpa using hlater entry (List.mem_reverse.1 hentry)

theorem get?_ofList_eq_none_iff {entries : List (κ × α)} {k : κ} :
    (ofList entries).get? k = none ↔ ∀ entry ∈ entries, entry.1 ≠ k := by
  rw [get?_ofList, Option.map_eq_none_iff, List.find?_eq_none]
  simp

end Table

theorem Program.defines_eq (p : Program) (label : String) : p.defines label = (p.section? label).isSome := by
  rw [defines, section?, List.isSome_find?, List.any_reverse]

/-- A program's sections are found as the program's own look-up finds them, and the others as before. -/
theorem Sections.get?_foldl_define (ds : List Definition) (t : Sections) (label : String) :
    (ds.foldl (fun t d => t.define (.ofDefinition d)) t).get? label =
      ((ds.reverse.find? (·.label = label)).map .ofDefinition).or (t.get? label) := by
  have hfold := Table.get?_foldl_insert (ds.map fun d => (d.label, Section.ofDefinition d)) t label
  rw [List.foldl_map, ← List.map_reverse, List.find?_map, Option.map_map] at hfold
  exact hfold

/-- An engine into which a program has been loaded. -/
def Engine.loaded (e : Engine) (p : Program) : Engine :=
  { e with
    config := { e.config with trusted := p.trusted || e.config.trusted }
    resources := ⟨.ofList p.strings, .ofList p.constants⟩
    sections := p.sections.foldl (fun t d => t.define (.ofDefinition d)) e.sections }

namespace Action

theorem define_eq (s : Section) (e : Engine) :
    ∃ journal, define s e = .done () { e with sections := e.sections.define s } journal := by
  unfold define
  rw [bind_of_done (x := get (·.sections.contains s.label)) (e := e) rfl]
  dsimp only
  split
  · exact ⟨_, rfl⟩
  · exact ⟨_, rfl⟩

theorem defineAll_eq (ss : List Section) (e : Engine) :
    ∃ journal, defineAll ss e = .done () { e with sections := ss.foldl Sections.define e.sections } journal := by
  induction ss generalizing e with
  | nil => exact ⟨[], rfl⟩
  | cons s ss ih =>
    obtain ⟨journal, hs⟩ := define_eq s e
    obtain ⟨journal', hss⟩ := ih { e with sections := e.sections.define s }
    refine ⟨journal ++ journal', ?_⟩
    rw [defineAll, bind_of_done hs, hss]
    rfl

theorem loadProgram_eq (p : Program) (e : Engine) :
    ∃ journal, loadProgram p e = .done () (e.loaded p) journal := by
  have hrest : ∀ e : Engine, ∃ journal, (do
      loadStrings p.strings
      loadConstants p.constants
      defineAll (p.sections.map .ofDefinition)
      let e ← get id
      log (.programLoaded e.sections.size e.resources.strings.size e.resources.constants.size)) e =
        .done ()
          { e with
            resources := ⟨.ofList p.strings, .ofList p.constants⟩
            sections := p.sections.foldl (fun t d => t.define (.ofDefinition d)) e.sections } journal := by
    intro e
    obtain ⟨journal, hall⟩ := defineAll_eq (p.sections.map .ofDefinition)
      { e with resources := ⟨.ofList p.strings, .ofList p.constants⟩ }
    rw [List.foldl_map] at hall
    rw [bind_of_done (x := loadStrings p.strings) (e := e) rfl,
      bind_of_done (x := loadConstants p.constants) rfl, bind_of_done hall]
    exact ⟨_, rfl⟩
  unfold loadProgram Engine.loaded
  cases p.trusted with
  | false => exact hrest e
  | true =>
    obtain ⟨journal, h⟩ := hrest (e.setTrusted true)
    exact ⟨_, (bind_of_done (x := modify (·.setTrusted true)) (e := e) rfl).trans (congrArg (Outcome.after []) h)⟩

end Action

namespace Engine

/-- What an engine finds agrees with a program: its sections as the program itself finds them, over those of an earlier
table, and of its strings and constants the last entries and no others. -/
structure Agrees (e : Engine) (p : Program) (earlier : Sections) : Prop where
  defined : ∀ label, p.defines label = true →
    ∃ d, p.section? label = some d ∧ e.sections.find label = .ok ⟨label, d.renderable, some d.body⟩
  undefined : ∀ label, p.defines label = false → e.sections.find label = earlier.find label
  string : ∀ key text, e.resources.string key = .ok text ↔ Table.IsLast p.strings key text
  noString : ∀ key fault, e.resources.string key = .error fault ↔
    fault = .undefinedString key ∧ ∀ entry ∈ p.strings, entry.1 ≠ key
  constant : ∀ key x, e.resources.constant key = .ok x ↔ Table.IsLast p.constants key x
  noConstant : ∀ key fault, e.resources.constant key = .error fault ↔
    fault = .undefinedConstant key ∧ ∀ entry ∈ p.constants, entry.1 ≠ key

theorem get?_loaded (e : Engine) (p : Program) (label : String) :
    (e.loaded p).sections.get? label = ((p.section? label).map .ofDefinition).or (e.sections.get? label) :=
  Sections.get?_foldl_define p.sections e.sections label

theorem agrees_loaded (e : Engine) (p : Program) : (e.loaded p).Agrees p e.sections where
  defined label hlabel := by
    rw [p.defines_eq] at hlabel
    obtain ⟨d, hd⟩ := Option.isSome_iff_exists.1 hlabel
    have hlabel : d.label = label := by simpa using List.find?_some hd
    refine ⟨d, hd, ?_⟩
    rw [Sections.find, get?_loaded, hd, ← hlabel]
    rfl
  undefined label hlabel := by
    rw [p.defines_eq, Option.isSome_eq_false_iff, Option.isNone_iff_eq_none] at hlabel
    rw [Sections.find, get?_loaded, hlabel]
    rfl
  string key text := by
    rw [← Table.get?_ofList_eq_some_iff, Resources.string]
    cases h : (Table.ofList p.strings).get? key <;> simp [loaded, h]
  noString key fault := by
    rw [← Table.get?_ofList_eq_none_iff, Resources.string]
    cases h : (Table.ofList p.strings).get? key <;> simp [loaded, h, eq_comm]
  constant key x := by
    rw [← Table.get?_ofList_eq_some_iff, Resources.constant]
    cases h : (Table.ofList p.constants).get? key <;> simp [loaded, h]
  noConstant key fault := by
    rw [← Table.get?_ofList_eq_none_iff, Resources.constant]
    cases h : (Table.ofList p.constants).get? key <;> simp [loaded, h, eq_comm]

/-- Loading never fails, and whatever engine a program is loaded into, and however often its labels and keys repeat, the
engine then finds what the program itself finds. -/
theorem loading_agrees (e : Engine) (p : Program) :
    ∃ e' journal, Action.loadProgram p e = .done () e' journal ∧ e'.Agrees p e.sections := by
  obtain ⟨journal, h⟩ := Action.loadProgram_eq p e
  exact ⟨e.loaded p, journal, h, e.agrees_loaded p⟩

end Engine

/-- What code runs on is as it was: only the configuration, the time, the tables and the registry may differ. -/
structure Engine.Undisturbed (e e' : Engine) : Prop where
  tree : e'.tree = e.tree
  mount : e'.mount = e.mount
  frames : e'.frames = e.frames
  context : e'.context = e.context
  focus : e'.focus = e.focus
  schedule : e'.schedule = e.schedule
  report : e'.report = e.report

/-- A request that brings something for later and runs nothing. -/
def Request.Prepares : Request → Prop
  | .load _ | .define _ | .strings _ | .constants _ | .trust _ | .advance _ | .lapse _ | .register _ => True
  | _ => False

theorem Request.Prepares.run {r : Request} (hr : r.Prepares) (n : Nat) (e : Engine) :
    ∃ e' journal, r.run n e = .done () e' journal ∧ e.Undisturbed e' := by
  cases r with
  | load p =>
    obtain ⟨journal, h⟩ := Action.loadProgram_eq p e
    exact ⟨_, journal, h, rfl, rfl, rfl, rfl, rfl, rfl, rfl⟩
  | define d =>
    obtain ⟨journal, h⟩ := Action.define_eq (.ofDefinition d) e
    exact ⟨_, journal, h, rfl, rfl, rfl, rfl, rfl, rfl, rfl⟩
  | strings | constants | trust | advance | lapse | register => exact ⟨_, _, rfl, rfl, rfl, rfl, rfl, rfl, rfl, rfl⟩
  | _ => cases hr

theorem Engine.reachable_loaded (config : Config) (p : Program) : ((Engine.new config).loaded p).Reachable := by
  obtain ⟨journal, h⟩ := Action.loadProgram_eq p (.new config)
  exact (Reachable.new config).request 0 (.load p) (congrArg Outcome.engine? h)

end Trellis
