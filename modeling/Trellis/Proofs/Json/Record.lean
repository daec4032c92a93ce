import Mathlib
import Trellis.Json.Record
import Trellis.Proofs.Json.Text
import Trellis.Proofs.Number.Rounding

/-!
# Forms of a record

A value that holds only finite numbers and texts is sound within its own depth. A record has many forms: an object with
the members in any order, some of the defaults left out and unknown members among them, or an array of the fields, with
defaults left off at the end. Whatever the form, each field is read as a value that may stand for it, or as left out.
-/
namespace Trellis.Json

mutual

/-- How deep arrays and objects are nested. -/
def depth : Json → ℕ
  | .array items => depthItems items + 1
  | .object members => depthMembers members + 1
  | _ => 0

def depthItems : List Json → ℕ
  | [] => 0
  | item :: items => max (depth item) (depthItems items)

def depthMembers : List (Text × Json) → ℕ
  | [] => 0
  | (_, value) :: members => max (depth value) (depthMembers members)

end

variable {n : ℕ}

theorem depth_array_le {items : List Json} :
    (Json.array items).depth ≤ n ↔ n ≠ 0 ∧ ∀ j ∈ items, j.depth ≤ n - 1 := by
  have hitems : ∀ n, depthItems items ≤ n ↔ ∀ j ∈ items, j.depth ≤ n := by
    intro n
    induction items with
    | nil => simp [depthItems]
    | cons j items ih => simp [depthItems, ih]
  rw [depth, ← hitems]
  omega

theorem depth_object_le {members : List (Text × Json)} :
    (Json.object members).depth ≤ n ↔ n ≠ 0 ∧ ∀ m ∈ members, m.2.depth ≤ n - 1 := by
  have hmembers : ∀ n, depthMembers members ≤ n ↔ ∀ m ∈ members, m.2.depth ≤ n := by
    intro n
    induction members with
    | nil => simp [depthMembers]
    | cons m members ih => simp [depthMembers, ih]
  rw [depth, ← hmembers]
  omega

theorem depth_ofMembers_le {members : List (String × Json)} :
    (ofMembers members).depth ≤ n ↔ n ≠ 0 ∧ ∀ m ∈ members, m.2.depth ≤ n - 1 := by
  rw [ofMembers, depth_object_le, List.forall_mem_map]

/-- What an array or an object holds. -/
def children : Json → List Json
  | .array items => items
  | .object members => members.map Prod.snd
  | _ => []

theorem children_ofMembers (members : List (String × Json)) : (ofMembers members).children = members.map Prod.snd := by
  rw [ofMembers, children, List.map_map]
  rfl

/-! ### Plain values -/

/-- All numbers are finite, and all strings and names are text. -/
def Plain (j : Json) : Prop := ∀ n, j.depth ≤ n → j.sound n = true

namespace Plain

theorem null : Plain .null := fun _ _ => rfl

theorem bool (b : Bool) : Plain (.bool b) := fun _ _ => rfl

theorem ofString (s : String) : Plain (.ofString s) := fun _ _ => rfl

theorem number {x : Number} (h : x.toBinary64.isFinite = true) : Plain (.number x) := fun _ _ => h

theorem ofInt {n : ℤ} (h : n.natAbs ≤ 2 ^ 64) : Plain (.ofInt n) := by
  apply Plain.number
  apply Binary64.isFinite_round _ one_ne_zero
  calc ((n.natAbs : ℕ) : ℚ) / ((1 : ℕ) : ℚ) = n.natAbs := by simp
    _ ≤ 2 ^ 64 := by exact_mod_cast h
    _ < 2 ^ (1023 : ℤ) := by
      rw [← zpow_natCast]
      exact (zpow_lt_zpow_iff_right₀ (by norm_num)).2 (by norm_num)

theorem ofInt64 (k : Int64) : Plain (.ofInt k.toInt) := by
  have hlow := k.le_toInt
  have hhigh := k.toInt_lt
  exact Plain.ofInt (by omega)

theorem ofUInt64 (k : UInt64) : Plain (.ofInt k.toNat) := by
  have hlt := k.toNat_lt
  exact Plain.ofInt (by omega)

theorem array {items : List Json} (h : ∀ j ∈ items, Plain j) : Plain (.array items) := by
  intro n hn
  obtain ⟨hpos, hitems⟩ := depth_array_le.1 hn
  exact sound_array.2 ⟨hpos, fun j hj => h j hj _ (hitems j hj)⟩

theorem ofMembers {members : List (String × Json)} (h : ∀ m ∈ members, Plain m.2) : Plain (.ofMembers members) := by
  intro n hn
  obtain ⟨hpos, hmembers⟩ := depth_ofMembers_le.1 hn
  refine sound_object.2 ⟨hpos, ?_⟩
  rintro _ hmapped
  obtain ⟨m, hm, rfl⟩ := List.mem_map.1 hmapped
  exact ⟨rfl, h m hm _ (hmembers m hm)⟩

/-- A value that is sound within some limit is plain. -/
theorem of_sound {j : Json} (h : j.sound n = true) : Plain j ∧ j.depth ≤ n := by
  induction j using Json.induction generalizing n with
  | null => exact ⟨.null, Nat.zero_le n⟩
  | bool b => exact ⟨.bool b, Nat.zero_le n⟩
  | number x => exact ⟨fun _ _ => h, Nat.zero_le n⟩
  | string text => exact ⟨fun _ _ => h, Nat.zero_le n⟩
  | array items ih =>
    obtain ⟨hpos, hitems⟩ := sound_array.1 h
    exact ⟨.array fun j hj => (ih j hj (hitems j hj)).1,
      depth_array_le.2 ⟨hpos, fun j hj => (ih j hj (hitems j hj)).2⟩⟩
  | object members ih =>
    obtain ⟨hpos, hmembers⟩ := sound_object.1 h
    refine ⟨fun k hk => ?_, depth_object_le.2 ⟨hpos, fun m hm => (ih m hm (hmembers m hm).2).2⟩⟩
    obtain ⟨hk, hdepth⟩ := depth_object_le.1 hk
    exact sound_object.2 ⟨hk, fun m hm => ⟨(hmembers m hm).1, (ih m hm (hmembers m hm).2).1 _ (hdepth m hm)⟩⟩

theorem children {j : Json} (h : Plain j) : ∀ v ∈ j.children, Plain v := by
  have hsound := h j.depth le_rfl
  cases j with
  | array items => exact fun v hv => (of_sound ((sound_array.1 hsound).2 v hv)).1
  | object members => exact List.forall_mem_map.2 fun m hm => (of_sound ((sound_object.1 hsound).2 m hm).2).1
  | null | bool | number | string => exact List.forall_mem_nil _

end Plain

theorem sound_iff {j : Json} : j.sound n = true ↔ j.Plain ∧ j.depth ≤ n :=
  ⟨Plain.of_sound, fun h => h.1 n h.2⟩

/-! ### Fields and items -/

theorem string?_ofString (s : String) : (ofString s).string? = some s := rfl

theorem bool?_bool (b : Bool) : (Json.bool b).bool? = some b := rfl

theorem int64?_ofInt (k : Int64) : (ofInt k.toInt).int64? = some k := by
  rw [ofInt, int64?, if_pos ⟨k.minValue_le_toInt, k.toInt_le⟩, Int64.ofInt_toInt]

theorem real?_number {x : Binary64} (h : x.isFinite = true) : (Json.number (.real x)).real? = some x := if_pos h

theorem uint64?_ofInt (k : UInt64) : (ofInt k.toNat).uint64? = some k := by
  have hk : 0 ≤ (k.toNat : ℤ) ∧ (k.toNat : ℤ) < UInt64.size := ⟨by positivity, by exact_mod_cast k.toNat_lt_size⟩
  rw [ofInt, uint64?, if_pos hk, Int.toNat_natCast, UInt64.ofNat_toNat]

section

variable {α β : Type} {R S : α → β → Prop} {xs : List α} {ys : List β}

theorem forall₂_imp_of_mem (h : List.Forall₂ R xs ys) (himp : ∀ x ∈ xs, ∀ y ∈ ys, R x y → S x y) :
    List.Forall₂ S xs ys := by
  induction h with
  | nil => exact .nil
  | cons hx _ ih =>
    exact .cons (himp _ (.head _) _ (.head _) hx) (ih fun x hx y hy => himp x (.tail _ hx) y (.tail _ hy))

theorem forall_mem_of_forall₂ {Q : β → Prop} (h : List.Forall₂ R xs ys) (hQ : ∀ x ∈ xs, ∀ y, R x y → Q y) :
    ∀ y ∈ ys, Q y := by
  induction h with
  | nil => exact List.forall_mem_nil Q
  | cons hx _ ih => exact List.forall_mem_cons.2 ⟨hQ _ (.head _) _ hx, ih fun x hx => hQ x (.tail _ hx)⟩

end

/-- A list is read item by item. -/
theorem list?_eq_some_iff {α : Type} {item? : Json → Option α} {items : List Json} {xs : List α} :
    list? item? (.array items) = some xs ↔ List.Forall₂ (fun x j => item? j = some x) xs items := by
  rw [list?]
  induction items generalizing xs with
  | nil => simp [eq_comm]
  | cons j items ih =>
    rw [List.mapM_cons, List.forall₂_cons_right_iff]
    simp only [Option.bind_eq_bind, Option.bind_eq_some_iff, ih]
    constructor
    · rintro ⟨x, hx, ys, hys, ⟨⟩⟩
      exact ⟨x, ys, hx, hys, rfl⟩
    · rintro ⟨x, ys, hx, hys, rfl⟩
      exact ⟨x, hx, ys, hys, rfl⟩

theorem list?_map {α : Type} {item? : Json → Option α} {write : α → Json} {xs : List α}
    (h : ∀ x ∈ xs, item? (write x) = some x) : list? item? (.array (xs.map write)) = some xs :=
  list?_eq_some_iff.2 (List.forall₂_map_right_iff.2 (List.forall₂_same.2 h))

theorem pair?_array {α β : Type} {first? : Json → Option α} {second? : Json → Option β} {x y : Json} {a : α} {b : β}
    (hx : first? x = some a) (hy : second? y = some b) : pair? first? second? (.array [x, y]) = some (a, b) := by
  rw [pair?, hx, hy]
  rfl

/-! ### Layouts of a record -/

/-- The members for some fields. A field without a value has none. -/
def present (given : List (String × Option Json)) : List (String × Json) :=
  given.filterMap fun g => g.2.map (g.1, ·)

/-- A record with given fields. In an object they stand in any order, with members of unknown names among them. In an
array they stand in their order, and only fields at the end have no value. -/
inductive Holds (extra : Json → Prop) (given : List (String × Option Json)) : Json → Prop
  | object {others members : List (String × Json)} (hn : ∀ m ∈ others, m.1 ∉ given.map Prod.fst)
    (hv : ∀ m ∈ others, extra m.2) (hp : members.Perm (present given ++ others)) :
    Holds extra given (.ofMembers members)
  | array {items : List Json} {k : ℕ} (h : given.map Prod.snd = items.map some ++ List.replicate k none) :
    Holds extra given (.array items)

section

variable {extra : Json → Prop} {given : List (String × Option Json)} {j : Json}

theorem mem_present {m : String × Json} : m ∈ present given ↔ (m.1, some m.2) ∈ given := by
  rw [present, List.mem_filterMap]
  constructor
  · rintro ⟨⟨name, v?⟩, hg, hm⟩
    obtain ⟨v, rfl, rfl⟩ := Option.map_eq_some_iff.1 hm
    exact hg
  · intro h
    exact ⟨_, h, rfl⟩

theorem filter_eq_nil_of_names {ms : List (String × Json)} {name : String} (h : ∀ m ∈ ms, m.1 ≠ name) :
    ms.filter (·.1 = name) = [] := by
  rw [List.filter_eq_nil_iff]
  intro m hm
  simpa using h m hm

/-- Of the name of a field there is one member, or none if it has no value. -/
theorem filter_present (hd : (given.map Prod.fst).Nodup) {g : String × Option Json} (hg : g ∈ given) :
    (present given).filter (·.1 = g.1) = g.2.toList.map (g.1, ·) := by
  induction given with
  | nil => cases hg
  | cons e given ih =>
    rw [List.map_cons, List.nodup_cons] at hd
    have hcons : present (e :: given) = e.2.toList.map (e.1, ·) ++ present given := by
      obtain ⟨name, _ | v⟩ := e <;> rfl
    rw [hcons, List.filter_append]
    rcases List.mem_cons.1 hg with rfl | hg
    · have hrest : (present given).filter (·.1 = g.1) = [] :=
        filter_eq_nil_of_names fun m hm he => hd.1 (he ▸ List.mem_map_of_mem (mem_present.1 hm))
      rw [hrest, List.append_nil, List.filter_eq_self]
      simp
    · have hne : e.1 ≠ g.1 := fun he => hd.1 (he ▸ List.mem_map_of_mem hg)
      rw [ih hd.2 hg, filter_eq_nil_of_names (by simp [hne]), List.nil_append]

theorem filter_names (p : Text → Bool) (ms : List (String × Json)) :
    (ms.map fun m => ((some m.1, m.2) : Text × Json)).filter (fun m => p m.1) =
      (ms.filter fun m => p (some m.1)).map fun m => (some m.1, m.2) :=
  List.filter_map

theorem member?_ofMembers (ms : List (String × Json)) (name : String) :
    member? (ms.map fun m => (some m.1, m.2)) name =
      match ms.filter (·.1 = name) with
      | [] => some none
      | [m] => some (some m.2)
      | _ => none := by
  simp only [member?, filter_names fun text => decide (text = some name), Option.some.injEq]
  cases ms.filter (·.1 = name) with
  | nil => rfl
  | cons m rest =>
    cases rest with
    | nil => rfl
    | cons => rfl

/-- The name of a field is read as its value. -/
theorem member?_of_perm (hd : (given.map Prod.fst).Nodup) {others members : List (String × Json)}
    (hn : ∀ m ∈ others, m.1 ∉ given.map Prod.fst) (hp : members.Perm (present given ++ others))
    {g : String × Option Json} (hg : g ∈ given) : member? (members.map fun m => (some m.1, m.2)) g.1 = some g.2 := by
  have hothers : others.filter (·.1 = g.1) = [] :=
    filter_eq_nil_of_names fun m hm he => hn m hm (he ▸ List.mem_map_of_mem hg)
  have hperm := hp.filter fun m => decide (m.1 = g.1)
  rw [List.filter_append, hothers, List.append_nil, filter_present hd hg] at hperm
  rw [member?_ofMembers]
  obtain ⟨name, _ | v⟩ := g
  · rw [hperm.eq_nil]
  · rw [hperm.eq_singleton]

namespace Holds

/-- The fields of a record are read from every layout of it. -/
theorem fields? (h : Holds extra given j) (hd : (given.map Prod.fst).Nodup) :
    j.fields? (given.map Prod.fst) = some (given.map Prod.snd) := by
  cases h with
  | @object others members hn hv hp =>
    rw [ofMembers, Json.fields?, if_pos (by simp)]
    have hread : ∀ g ∈ given, member? (members.map fun m => (some m.1, m.2)) g.1 = some g.2 :=
      fun g hg => member?_of_perm hd hn hp hg
    clear hd hn hp
    induction given with
    | nil => rfl
    | cons g given ih =>
      rw [List.map_cons, List.mapM_cons, hread g (.head _), ih fun g hg => hread g (.tail _ hg)]
      rfl
  | @array items k h =>
    have hlen := congrArg List.length h
    simp only [List.length_map, List.length_append, List.length_replicate] at hlen
    rw [Json.fields?, List.length_map, if_pos (by omega), h, hlen, Nat.add_sub_cancel_left]

theorem mem_children (h : Holds extra given j) {v : Json} (hv : some v ∈ given.map Prod.snd) : v ∈ j.children := by
  cases h with
  | object hn hx hp =>
    obtain ⟨⟨name, _⟩, hg, rfl⟩ := List.mem_map.1 hv
    rw [children_ofMembers]
    exact List.mem_map.2 ⟨(name, v), hp.mem_iff.2 (List.mem_append_left _ (mem_present.2 hg)), rfl⟩
  | array h =>
    rw [h] at hv
    simpa [children, List.mem_replicate] using hv

/-- A record is plain if and only if its fields and its unknown members are. -/
theorem plain_iff (h : Holds extra given j) :
    j.Plain ↔ Holds Plain given j ∧ ∀ v, some v ∈ given.map Prod.snd → v.Plain := by
  constructor
  · intro hj
    refine ⟨?_, fun v hv => hj.children v (h.mem_children hv)⟩
    cases h with
    | object hn _ hp =>
      refine .object hn (fun m hm => hj.children _ ?_) hp
      rw [children_ofMembers]
      exact List.mem_map_of_mem (hp.mem_iff.2 (List.mem_append_right _ hm))
    | array h => exact .array h
  · rintro ⟨hplain, hgiven⟩
    cases hplain with
    | object _ hv hp =>
      refine .ofMembers fun m hm => ?_
      rcases List.mem_append.1 (hp.mem_iff.1 hm) with hm | hm
      · exact hgiven m.2 (List.mem_map_of_mem (mem_present.1 hm))
      · exact hv m hm
    | array hitems =>
      refine .array fun v hv => hgiven v ?_
      rw [hitems]
      exact List.mem_append_left _ (List.mem_map_of_mem hv)

theorem exists_limit (h : Holds extra given j) (hj : j.depth ≤ n) :
    ∃ k, n = k + 1 ∧ ∀ v ∈ j.children, v.depth ≤ k := by
  cases h with
  | object =>
    obtain ⟨hpos, hmembers⟩ := depth_ofMembers_le.1 hj
    obtain ⟨k, rfl⟩ := Nat.exists_eq_succ_of_ne_zero hpos
    refine ⟨k, rfl, ?_⟩
    rw [children_ofMembers]
    exact List.forall_mem_map.2 hmembers
  | array =>
    obtain ⟨hpos, hitems⟩ := depth_array_le.1 hj
    obtain ⟨k, rfl⟩ := Nat.exists_eq_succ_of_ne_zero hpos
    exact ⟨k, rfl, hitems⟩

/-- The written members are a layout. -/
theorem ofMembers (ms : List (String × Json)) : Holds extra (ms.map fun m => (m.1, some m.2)) (.ofMembers ms) := by
  have hpresent : present (ms.map fun m => (m.1, some m.2)) = ms := by
    rw [present, List.filterMap_map]
    exact List.filterMap_some
  refine @Holds.object extra _ [] ms nofun nofun ?_
  rw [hpresent, List.append_nil]

/-- Without the one member of a field, an object is a layout of the other fields. -/
theorem without {g : String × Json} {others members : List (String × Json)}
    (hd : (((g.1, some g.2) :: given).map Prod.fst).Nodup)
    (hn : ∀ m ∈ others, m.1 ∉ ((g.1, some g.2) :: given).map Prod.fst) (hv : ∀ m ∈ others, extra m.2)
    (hp : members.Perm (present ((g.1, some g.2) :: given) ++ others)) :
    Holds extra given (.ofMembers (members.filter (·.1 ≠ g.1))) := by
  rw [List.map_cons, List.nodup_cons] at hd
  have hrest : ∀ m ∈ present given ++ others, m.1 ≠ g.1 := by
    intro m hm he
    rcases List.mem_append.1 hm with hm | hm
    · exact hd.1 (he ▸ List.mem_map_of_mem (mem_present.1 hm))
    · exact hn m hm (he ▸ .head _)
  have hperm := hp.filter fun m => decide (m.1 ≠ g.1)
  have hcons : present ((g.1, some g.2) :: given) ++ others = g :: (present given ++ others) := rfl
  rw [hcons, List.filter_cons_of_neg (by simp),
    List.filter_eq_self.2 fun m hm => decide_eq_true (hrest m hm)] at hperm
  exact .object (fun m hm hmem => hn m hm (.tail _ hmem)) hv hperm

end Holds

end

/-! ### Forms of a record -/

/-- A field of a record: its name, the values that may stand for it, and whether it may be left out. -/
structure Field where
  name : String
  form : Json → Prop
  optional : Prop

namespace Field

/-- A field that is written with a given value. It may be left out if it has a default and this is it. -/
def written (defaults : List (String × Json)) (m : String × Json) : Field := ⟨m.1, (· = m.2), m ∈ defaults⟩

theorem map_name_written (defaults ms : List (String × Json)) :
    (ms.map (written defaults)).map name = ms.map Prod.fst := by
  rw [List.map_map]
  rfl

/-- A field that is a list, the items of which may be written in some way. -/
def list (name : String) (forms : List Json → Prop) (optional : Prop) : Field :=
  ⟨name, fun v => ∃ items, v = .array items ∧ forms items, optional⟩

/-- The field may have this value, or may be left out. -/
def Given (f : Field) : Option Json → Prop
  | some v => f.form v
  | none => f.optional

end Field

/-- The forms of a record: any layout of values that its fields may have. -/
def Recorded (extra : Json → Prop) (fs : List Field) (j : Json) : Prop :=
  ∃ vs, List.Forall₂ Field.Given fs vs ∧ Holds extra ((fs.map Field.name).zip vs) j

namespace Recorded

variable {extra : Json → Prop} {fs gs : List Field} {j : Json} {vs : List (Option Json)}

theorem map_zip (h : List.Forall₂ Field.Given fs vs) :
    ((fs.map Field.name).zip vs).map Prod.fst = fs.map Field.name ∧ ((fs.map Field.name).zip vs).map Prod.snd = vs := by
  have hlen : (fs.map Field.name).length = vs.length := by rw [List.length_map, h.length_eq]
  exact ⟨List.map_fst_zip hlen.le, List.map_snd_zip hlen.ge⟩

/-- Every form of a record is read field by field. -/
theorem fields? (h : Recorded extra fs j) (hd : (fs.map Field.name).Nodup) :
    ∃ vs, j.fields? (fs.map Field.name) = some vs ∧ List.Forall₂ Field.Given fs vs ∧
      ∀ v, some v ∈ vs → v ∈ j.children := by
  obtain ⟨vs, hgiven, hholds⟩ := h
  obtain ⟨hfst, hsnd⟩ := map_zip hgiven
  have hfields := hholds.fields? (hfst.symm ▸ hd)
  rw [hfst, hsnd] at hfields
  exact ⟨vs, hfields, hgiven, fun v hv => hholds.mem_children (hsnd.symm ▸ hv)⟩

/-- What is read of a record decides of which records it is a form. -/
theorem of_fields? (h : Recorded extra fs j) (hd : (fs.map Field.name).Nodup)
    (hnames : gs.map Field.name = fs.map Field.name) (hvs : j.fields? (fs.map Field.name) = some vs)
    (hgiven : List.Forall₂ Field.Given gs vs) : Recorded extra gs j := by
  obtain ⟨ws, hws, hholds⟩ := h
  obtain ⟨hfst, hsnd⟩ := map_zip hws
  have hfields := hholds.fields? (hfst.symm ▸ hd)
  rw [hfst, hsnd, hvs] at hfields
  cases hfields
  exact ⟨vs, hgiven, hnames ▸ hholds⟩

/-- A record whose fields and unknown members are plain is plain. -/
theorem plain (h : Recorded Plain fs j) (hf : ∀ f ∈ fs, ∀ v, f.form v → v.Plain) : j.Plain := by
  obtain ⟨vs, hgiven, hholds⟩ := h
  refine hholds.plain_iff.2 ⟨hholds, ?_⟩
  rw [(map_zip hgiven).2]
  have hvs : ∀ v? ∈ vs, ∀ v, v? = some v → v.Plain :=
    forall_mem_of_forall₂ hgiven fun f hmem v? hv? v hv => hf f hmem v (show f.Given (some v) from hv ▸ hv?)
  exact fun v hv => hvs _ hv v rfl

/-- In a plain record the unknown members are plain, and so are the values of the fields. -/
theorem of_plain (h : Recorded extra fs j) (hj : j.Plain) (hnames : gs.map Field.name = fs.map Field.name)
    (himp : ∀ vs, List.Forall₂ Field.Given fs vs → (∀ v, some v ∈ vs → v.Plain) → List.Forall₂ Field.Given gs vs) :
    Recorded Plain gs j := by
  obtain ⟨vs, hgiven, hholds⟩ := h
  obtain ⟨hplain, hvs⟩ := hholds.plain_iff.1 hj
  rw [(map_zip hgiven).2] at hvs
  exact ⟨vs, himp vs hgiven hvs, hnames ▸ hplain⟩

theorem exists_limit (h : Recorded extra fs j) (hj : j.depth ≤ n) : ∃ k, n = k + 1 ∧ ∀ v ∈ j.children, v.depth ≤ k := by
  obtain ⟨vs, -, hholds⟩ := h
  exact hholds.exists_limit hj

/-- The written members are a form of their fields. -/
theorem ofMembers {ms : List (String × Json)} (h : List.Forall₂ (fun f m => f.name = m.1 ∧ f.form m.2) fs ms) :
    Recorded extra fs (.ofMembers ms) := by
  have hgiven : List.Forall₂ Field.Given fs (ms.map fun m => some m.2) :=
    List.forall₂_map_right_iff.2 (h.imp fun f m hm => hm.2)
  have hnames : fs.map Field.name = ms.map Prod.fst := by
    rw [← List.forall₂_eq_eq_eq, List.forall₂_map_left_iff, List.forall₂_map_right_iff]
    exact h.imp fun f m hm => hm.1
  refine ⟨_, hgiven, ?_⟩
  rw [hnames, List.zip_map']
  exact .ofMembers ms

end Recorded

/-! ### Reading fields -/

namespace Field

variable {α : Type} {read : Json → Option α} {x : α} {v? : Option Json}

/-- A field that is not its default is read. -/
theorem Given.bind {defaults : List (String × Json)} {m : String × Json} (h : (Field.written defaults m).Given v?)
    (hm : m ∉ defaults) (hread : read m.2 = some x) : v?.bind read = some x := by
  cases v? with
  | none => exact absurd h hm
  | some v =>
    obtain rfl : v = m.2 := h
    exact hread

/-- A field that may be left out is read, or is its default. -/
theorem Given.orDefault {defaults : List (String × Json)} {m : String × Json} (h : (Field.written defaults m).Given v?)
    (default : α) (hm : m ∈ defaults → x = default) (hread : read m.2 = some x) :
    Json.orDefault default read v? = some x := by
  cases v? with
  | none => exact congrArg some (hm h).symm
  | some v =>
    obtain rfl : v = m.2 := h
    exact hread

variable {name : String} {form form' : α → Json → Prop} {xs : List α} {optional : Prop}

theorem Given.list_imp {P : Json → Prop} (h : (Field.list name (List.Forall₂ form xs) optional).Given v?)
    (hv : ∀ v, v? = some v → P v)
    (himp : ∀ items, P (.array items) → ∀ x ∈ xs, ∀ j ∈ items, form x j → form' x j) :
    (Field.list name (List.Forall₂ form' xs) optional).Given v? := by
  cases v? with
  | none => exact h
  | some v =>
    obtain ⟨items, rfl, hforms⟩ := h
    exact ⟨items, rfl, forall₂_imp_of_mem hforms (himp items (hv _ rfl))⟩

/-- A list whose items are each read is read, or is empty and left out. -/
theorem Given.orDefault_list {P : Json → Prop} (h : (Field.list name (List.Forall₂ form xs) (xs = [])).Given v?)
    (hv : ∀ v, v? = some v → P v)
    (hread : ∀ items, P (.array items) → ∀ x ∈ xs, ∀ j ∈ items, form x j → read j = some x) :
    Json.orDefault [] (list? read) v? = some xs := by
  cases v? with
  | none => exact congrArg some (Eq.symm h)
  | some v =>
    obtain ⟨items, rfl, hforms⟩ := h
    exact list?_eq_some_iff.2 (forall₂_imp_of_mem hforms (hread items (hv _ rfl)))

end Field

end Trellis.Json
