import Mathlib
import Trellis.Program.Decode
import Trellis.Proofs.Json.Record

/-!
# Forms of a program

A program, its sections and its instructions are records, and each of them has all the forms of a record. What else they
hold has one form, as it is written. Unknown members of a program or a section may have any value. Every form of a
program within the nesting limit is read as that program if the unknown members of its instructions are plain, provided
that constants are finite and no container has the name under which the root is written.
-/
namespace Trellis

open Json (nestingLimit Field Holds Recorded)

namespace Instruction

/-- A property of all instructions holds if it holds of a block whenever it holds of the instructions in its body. -/
@[elab_as_elim]
theorem induction {P : Instruction → Prop}
    (container : ∀ id enclosure body, (∀ i ∈ body, P i) → P (.container id enclosure body))
    (conditional : ∀ id body, (∀ i ∈ body, P i) → P (.conditional id body))
    (single : ∀ id operation, P (.single id operation)) (i : Instruction) : P i :=
  @Instruction.rec P (fun body => ∀ i ∈ body, P i) container conditional single (by simp) (by simp_all) i

mutual

/-- Whether no container in the code is a named one that would be written as the root. -/
def unreserved : Instruction → Bool
  | .container _ enclosure body => enclosure ≠ .named "root" && unreservedAll body
  | .conditional _ body => unreservedAll body
  | .single .. => true

def unreservedAll : List Instruction → Bool
  | [] => true
  | i :: is => unreserved i && unreservedAll is

end

theorem unreservedAll_iff {body : List Instruction} :
    unreservedAll body = true ↔ ∀ i ∈ body, i.unreserved = true := by
  induction body with
  | nil => simp [unreservedAll]
  | cons i body ih => simp [unreservedAll, ih]

theorem toJsonAll_eq (body : List Instruction) : toJsonAll body = body.map toJson := by
  induction body with
  | nil => simp [toJsonAll]
  | cons i body ih => simp [toJsonAll, ih]

end Instruction

/-! ### Forms -/

namespace Instruction

/-- The fields of instructions that have a default. -/
def defaults : List (String × Json) := [("tag", .null), ("raw", .bool false), ("mode", .ofString Mode.any.name)]

/-- The operation, the site and some other fields, as they are written. -/
def heading (name : String) (id : Key) (fields : List (String × Json)) : List Field :=
  .written [] ("op", .ofString name) :: .written [] ("id", id.toJson) :: fields.map (.written defaults)

section

variable (extra : Json → Prop)

mutual

/-- The forms of an instruction, with unknown members of some kind in it and in the code it holds. -/
def Form : Instruction → Json → Prop
  | .container id enclosure body =>
    Recorded extra (heading "container" id [("tag", enclosure.toJson)] ++ [.list "body" (FormAll body) (body = [])])
  | .conditional id body => Recorded extra (heading "if" id [] ++ [.list "body" (FormAll body) (body = [])])
  | .single id operation => Recorded extra (heading operation.name id operation.fields)

def FormAll : List Instruction → List Json → Prop
  | [] => fun js => js = []
  | i :: is => fun js => ∃ j rest, js = j :: rest ∧ Form i j ∧ FormAll is rest

end

theorem formAll_eq (body : List Instruction) : FormAll extra body = List.Forall₂ (Form extra) body := by
  induction body with
  | nil =>
    funext js
    rw [FormAll, List.forall₂_nil_left_iff]
  | cons i body ih =>
    funext js
    rw [FormAll, List.forall₂_cons_left_iff, ih]
    apply propext
    constructor
    · rintro ⟨j, rest, hjs, hi, hbody⟩
      exact ⟨j, rest, hi, hbody, hjs⟩
    · rintro ⟨j, rest, hi, hbody, hjs⟩
      exact ⟨j, rest, hjs, hi, hbody⟩

end

end Instruction

/-- The forms of a section, with unknown members of some kind in its instructions. -/
def Definition.Form (extra : Json → Prop) (d : Definition) : Json → Prop :=
  Recorded (fun _ => True)
    [.written [] ("label", .ofString d.label), .written [] ("renderable", .bool d.renderable),
      .list "body" (List.Forall₂ (Instruction.Form extra) d.body) (d.body = [])]

namespace Program

/-- The fields of a program that are written in one way only have these defaults. -/
def defaults : List (String × Json) := [("unsafe_mode", .bool false), ("strings", .array []), ("constants", .array [])]

/-- The forms of a program, with unknown members of some kind in its instructions. -/
def Form (extra : Json → Prop) (p : Program) : Json → Prop :=
  Recorded (fun _ => True)
    [.written defaults ("unsafe_mode", .bool p.trusted),
      .written defaults ("strings", .array (p.strings.map fun s => .array [.ofInt s.1.toInt, .ofString s.2])),
      .written defaults ("constants", .array (p.constants.map fun c => .array [.ofInt c.1.toInt, .number (.real c.2)])),
      .list "sections" (List.Forall₂ (Definition.Form extra) p.sections) (p.sections = [])]

end Program

/-! ### Fields -/

theorem Key.ofJson?_toJson (k : Key) : Key.ofJson? k.toJson = some k := by
  cases k with
  | number n => exact congrArg (Option.map Key.number) (Json.int64?_ofInt n)
  | symbol s => rfl

theorem Mode.ofJson?_name (m : Mode) : Mode.ofJson? (.ofString m.name) = some m := by
  cases m <;> simp [Mode.ofJson?, Mode.ofName?, Mode.name, Json.ofString]

-- The value is any JSON here: with a written word in its place the bound on words would be counted out in unary when
-- the proof is checked.
theorem Source.ofJson?_stack (j : Json) : Source.ofJson? (.ofMembers [("stack", j)]) = j.uint64?.map .stack := by
  simp [Source.ofJson?, Json.ofMembers, Json.only?]

theorem Source.ofJson?_toJson (s : Source) : Source.ofJson? s.toJson = some s := by
  cases s with
  | string key => simp [Source.toJson, Source.ofJson?, Json.ofMembers, Json.only?, Json.int64?_ofInt]
  | constant key => simp [Source.toJson, Source.ofJson?, Json.ofMembers, Json.only?, Json.int64?_ofInt]
  | stack offset =>
    rw [Source.toJson, Source.ofJson?_stack, Json.uint64?_ofInt]
    rfl

theorem Enclosure.ofJson?_toJson {e : Enclosure} (h : e ≠ .named "root") : Enclosure.ofJson? e.toJson = some e := by
  cases e with
  | plain => rfl
  | root => rfl
  | named tag =>
    have htag : tag ≠ "root" := fun htag => h (congrArg _ htag)
    simp [Enclosure.toJson, Enclosure.name, Json.ofString, Enclosure.ofJson?, Enclosure.ofName, htag]

/-- The fields of an operation have names of their own. -/
theorem Operation.nodup_fields (o : Operation) : ("op" :: "id" :: o.fields.map Prod.fst).Nodup := by
  cases o <;> simp [Operation.fields]

theorem Operation.name_ne_block (o : Operation) : o.name ≠ "container" ∧ o.name ≠ "if" := by
  cases o <;> simp [Operation.name]

/-- An operation is read from its name and any form of its fields. -/
theorem Operation.ofFields?_of_recorded {extra : Json → Prop} {id : Key} {o : Operation} {fields : Json}
    (h : Recorded extra (.written [] ("id", id.toJson) :: o.fields.map (.written Instruction.defaults)) fields) :
    Operation.ofFields? o.name fields = some (id, o) := by
  have hnodup := (List.nodup_cons.1 o.nodup_fields).2
  rw [← Field.map_name_written Instruction.defaults] at hnodup
  obtain ⟨vs, hread, hgiven, -⟩ := h.fields? hnodup
  have hfields : fields.fields? ("id" :: o.fields.map Prod.fst) = some vs := by
    rw [← Field.map_name_written Instruction.defaults]
    exact hread
  clear h hnodup hread
  obtain _ | ⟨hid, hrest⟩ := hgiven
  have hid := hid.bind List.not_mem_nil id.ofJson?_toJson
  cases o with
  | element tag =>
    obtain _ | ⟨htag, ⟨⟩⟩ := hrest
    have htag := htag.bind (by simp [Instruction.defaults, Json.ofString]) (Json.string?_ofString tag)
    simp_all [Operation.ofFields?, Operation.name, Operation.fields]
  | value raw source =>
    obtain _ | ⟨hraw, _ | ⟨hsource, ⟨⟩⟩⟩ := hrest
    have hraw := hraw.orDefault false (by simp [Instruction.defaults]) (Json.bool?_bool raw)
    have hsource := hsource.bind (by simp [Instruction.defaults]) source.ofJson?_toJson
    simp_all [Operation.ofFields?, Operation.name, Operation.fields]
  | call label mode =>
    obtain _ | ⟨hlabel, _ | ⟨hmode, ⟨⟩⟩⟩ := hrest
    have hlabel := hlabel.bind (by simp [Instruction.defaults]) (Json.string?_ofString label)
    have hdefault : ("mode", .ofString mode.name) ∈ Instruction.defaults → mode = .any := by
      cases mode <;> simp [Instruction.defaults, Json.ofString, Mode.name]
    have hmode := hmode.orDefault .any hdefault mode.ofJson?_name
    simp_all [Operation.ofFields?, Operation.name, Operation.fields]
  | listen event handler =>
    obtain _ | ⟨hevent, _ | ⟨hhandler, ⟨⟩⟩⟩ := hrest
    have hevent := hevent.bind (by simp [Instruction.defaults]) (Json.string?_ofString event)
    have hhandler := hhandler.bind (by simp [Instruction.defaults]) (Json.string?_ofString handler)
    simp_all [Operation.ofFields?, Operation.name, Operation.fields]
  | push source =>
    obtain _ | ⟨hsource, ⟨⟩⟩ := hrest
    have hsource := hsource.bind (by simp [Instruction.defaults]) source.ofJson?_toJson
    simp_all [Operation.ofFields?, Operation.name, Operation.fields]
  | swap a b =>
    obtain _ | ⟨ha, _ | ⟨hb, ⟨⟩⟩⟩ := hrest
    have ha := ha.bind (by simp [Instruction.defaults]) (Json.uint64?_ofInt a)
    have hb := hb.bind (by simp [Instruction.defaults]) (Json.uint64?_ofInt b)
    simp_all [Operation.ofFields?, Operation.name, Operation.fields]
  | calculate operator =>
    obtain _ | ⟨hoperator, ⟨⟩⟩ := hrest
    have hoperator := hoperator.bind (by simp [Instruction.defaults]) (Json.string?_ofString operator)
    simp_all [Operation.ofFields?, Operation.name, Operation.fields]
  | render | copy | pop | compare | read =>
    cases hrest
    simp_all [Operation.ofFields?, Operation.name, Operation.fields]

namespace Instruction

/-- The operation of a record is taken out of it, and what remains is a layout of the other fields. -/
theorem tagged?_of_holds {extra : Json → Prop} {given : List (String × Option Json)} {op j : Json}
    (h : Holds extra (("op", some op) :: given) j) (hd : ((("op", some op) :: given).map Prod.fst).Nodup) :
    ∃ rest, tagged? j = some (op, rest) ∧ Holds extra given rest ∧ ∀ v ∈ rest.children, v ∈ j.children := by
  cases h with
  | @object others members hn hv hp =>
    have hmember : Json.member? (members.map fun m => (some m.1, m.2)) "op" = some (some op) :=
      Json.member?_of_perm hd hn hp (.head _)
    refine ⟨.ofMembers (members.filter (·.1 ≠ "op")), ?_, @Holds.without _ _ ("op", op) _ _ hd hn hv hp, ?_⟩
    · rw [Json.ofMembers, tagged?, hmember, Json.filter_names fun text => decide (text ≠ some "op")]
      simp [Json.ofMembers]
    · rw [Json.children_ofMembers, Json.children_ofMembers, List.forall_mem_map]
      exact fun m hm => List.mem_map_of_mem (List.mem_of_mem_filter hm)
  | @array items k h =>
    cases items with
    | nil => cases k <;> cases h
    | cons item items =>
      obtain ⟨hop, hrest⟩ := List.cons.inj h
      cases hop
      exact ⟨.array items, rfl, .array hrest, fun v hv => .tail _ hv⟩

theorem tagged?_of_recorded {extra : Json → Prop} {op j : Json} {fs : List Field}
    (h : Recorded extra (.written [] ("op", op) :: fs) j) (hd : ("op" :: fs.map Field.name).Nodup) :
    ∃ rest, tagged? j = some (op, rest) ∧ Recorded extra fs rest ∧ ∀ v ∈ rest.children, v ∈ j.children := by
  obtain ⟨_, _ | @⟨_, op?, _, vs, hop, hgiven⟩, hholds⟩ := h
  obtain rfl : op? = some op := by
    cases op? with
    | none => exact absurd hop List.not_mem_nil
    | some v => exact congrArg some hop
  rw [← (Recorded.map_zip hgiven).1] at hd
  obtain ⟨rest, htagged, hrest, hchildren⟩ := tagged?_of_holds hholds hd
  exact ⟨rest, htagged, ⟨vs, hgiven, hrest⟩, hchildren⟩

theorem body_of_given {extra : Json → Prop} {limit : ℕ} {body : List Instruction} {v? : Option Json}
    (h : (Field.list "body" (List.Forall₂ (Form extra) body) (body = [])).Given v?)
    (hdepth : ∀ v, v? = some v → v.depth ≤ limit)
    (ih : ∀ i ∈ body, ∀ j, i.Form extra j → j.depth ≤ limit → decode? limit true j = some i) :
    Json.orDefault [] (Json.list? (decode? limit true)) v? = some body := by
  refine h.orDefault_list hdepth fun items hitems i hi j hj hform => ih i hi j hform ?_
  exact ((Json.depth_array_le.1 hitems).2 j hj).trans (Nat.sub_le ..)

/-- An instruction is read from every form of it that is nested within the limit. -/
theorem decode?_of_form {extra : Json → Prop} {i : Instruction} {j : Json} (hi : i.unreserved = true)
    (hj : i.Form extra j) {limit : ℕ} (hlimit : j.depth ≤ limit) (inside : Bool) :
    decode? limit inside j = some i := by
  induction i using Instruction.induction generalizing j limit inside with
  | container id enclosure body ih =>
    rw [unreserved, Bool.and_eq_true, unreservedAll_iff, decide_eq_true_eq] at hi
    rw [Form, formAll_eq] at hj
    obtain ⟨limit, rfl, hdepth⟩ := hj.exists_limit hlimit
    obtain ⟨rest, hop, hrest, hchildren⟩ := tagged?_of_recorded hj (show ["op", "id", "tag", "body"].Nodup by decide)
    obtain ⟨vs, hfields, hgiven, hvs⟩ := hrest.fields? (show ["id", "tag", "body"].Nodup by decide)
    obtain _ | ⟨hid, _ | ⟨htag, _ | ⟨hbody, ⟨⟩⟩⟩⟩ := hgiven
    replace hfields : rest.fields? ["id", "tag", "body"] = some _ := hfields
    have hid := hid.bind List.not_mem_nil id.ofJson?_toJson
    have hdefault : ("tag", enclosure.toJson) ∈ defaults → enclosure = .plain := by
      cases enclosure <;> simp [defaults, Enclosure.toJson, Enclosure.name, Json.ofString]
    have htag := htag.orDefault .plain hdefault (Enclosure.ofJson?_toJson hi.1)
    have hbody := body_of_given hbody (fun v hv => hdepth v (hchildren v (hvs v (by simp [hv]))))
      fun i hmem j hj hlimit => ih i hmem (hi.2 i hmem) hj hlimit true
    simp [decode?, hop, Json.ofString, name?, hfields, hid, htag, hbody]
  | conditional id body ih =>
    rw [unreserved, unreservedAll_iff] at hi
    rw [Form, formAll_eq] at hj
    obtain ⟨limit, rfl, hdepth⟩ := hj.exists_limit hlimit
    obtain ⟨rest, hop, hrest, hchildren⟩ := tagged?_of_recorded hj (show ["op", "id", "body"].Nodup by decide)
    obtain ⟨vs, hfields, hgiven, hvs⟩ := hrest.fields? (show ["id", "body"].Nodup by decide)
    obtain _ | ⟨hid, _ | ⟨hbody, ⟨⟩⟩⟩ := hgiven
    replace hfields : rest.fields? ["id", "body"] = some _ := hfields
    have hid := hid.bind List.not_mem_nil id.ofJson?_toJson
    have hbody := body_of_given hbody (fun v hv => hdepth v (hchildren v (hvs v (by simp [hv]))))
      fun i hmem j hj hlimit => ih i hmem (hi i hmem) hj hlimit true
    simp [decode?, hop, Json.ofString, name?, hfields, hid, hbody]
  | single id operation =>
    rw [Form] at hj
    have hnodup := operation.nodup_fields
    rw [← Field.map_name_written defaults] at hnodup
    obtain ⟨limit, rfl, -⟩ := hj.exists_limit hlimit
    obtain ⟨rest, hop, hrest, -⟩ := tagged?_of_recorded hj hnodup
    rw [decode?, hop]
    simp only [Json.ofString, name?, Option.bind_eq_bind, Option.bind_some]
    split
    case h_1 hname => exact absurd hname operation.name_ne_block.1
    case h_2 hname => exact absurd hname operation.name_ne_block.2
    case h_3 =>
      rw [Operation.ofFields?_of_recorded hrest]
      rfl

end Instruction

/-! ### Soundness -/

theorem Key.plain_toJson (k : Key) : k.toJson.Plain := by
  cases k with
  | number n => exact .ofInt64 n
  | symbol s => exact .ofString s

theorem Source.plain_toJson (s : Source) : s.toJson.Plain := by
  cases s with
  | string key => exact .ofMembers (List.forall_mem_singleton.2 (.ofInt64 key))
  | constant key => exact .ofMembers (List.forall_mem_singleton.2 (.ofInt64 key))
  | stack offset => exact .ofMembers (List.forall_mem_singleton.2 (.ofUInt64 offset))

theorem Enclosure.plain_toJson (e : Enclosure) : e.toJson.Plain := by
  cases e with
  | plain => exact .null
  | named tag => exact .ofString tag
  | root => exact .ofString "root"

theorem Operation.plain_fields (o : Operation) : ∀ f ∈ o.fields, f.2.Plain := by
  cases o <;>
    simp [Operation.fields, Json.Plain.ofString, Json.Plain.bool, Json.Plain.ofUInt64, Source.plain_toJson]

namespace Instruction

theorem plain_heading {name : String} {id : Key} {fields : List (String × Json)} (h : ∀ m ∈ fields, m.2.Plain) :
    ∀ f ∈ heading name id fields, ∀ v, f.form v → v.Plain := by
  rw [heading, List.forall_mem_cons, List.forall_mem_cons, List.forall_mem_map]
  refine ⟨?_, ?_, ?_⟩
  · rintro _ rfl
    exact .ofString name
  · rintro _ rfl
    exact id.plain_toJson
  · rintro m hm _ rfl
    exact h m hm

theorem plain_body {name : String} {body : List Instruction} {optional : Prop}
    (h : ∀ i ∈ body, ∀ j, i.Form Json.Plain j → j.Plain) :
    ∀ v, (Field.list name (List.Forall₂ (Form Json.Plain) body) optional).form v → v.Plain := by
  rintro _ ⟨items, rfl, hforms⟩
  exact .array (Json.forall_mem_of_forall₂ hforms h)

/-- A form of an instruction is plain if the unknown members are. -/
theorem Form.plain {i : Instruction} {j : Json} (h : i.Form Json.Plain j) : j.Plain := by
  induction i using Instruction.induction generalizing j with
  | container id enclosure body ih =>
    rw [Form, formAll_eq] at h
    refine h.plain (List.forall_mem_append.2 ⟨?_, ?_⟩)
    · exact plain_heading (List.forall_mem_singleton.2 enclosure.plain_toJson)
    · exact List.forall_mem_singleton.2 (plain_body fun i hi j => ih i hi)
  | conditional id body ih =>
    rw [Form, formAll_eq] at h
    refine h.plain (List.forall_mem_append.2 ⟨plain_heading (List.forall_mem_nil _), ?_⟩)
    exact List.forall_mem_singleton.2 (plain_body fun i hi j => ih i hi)
  | single id operation =>
    rw [Form] at h
    exact h.plain (plain_heading operation.plain_fields)

theorem given_of_plain {extra : Json → Prop} {name : String} {body : List Instruction} {optional : Prop}
    {v? : Option Json} (h : (Field.list name (List.Forall₂ (Form extra) body) optional).Given v?)
    (hv : ∀ v, v? = some v → v.Plain) (ih : ∀ i ∈ body, ∀ j, i.Form extra j → j.Plain → i.Form Json.Plain j) :
    (Field.list name (List.Forall₂ (Form Json.Plain) body) optional).Given v? :=
  h.list_imp hv fun _ hitems i hi j hj hform => ih i hi j hform (hitems.children j hj)

/-- In a plain form of an instruction the unknown members are plain. -/
theorem Form.of_plain {extra : Json → Prop} {i : Instruction} {j : Json} (h : i.Form extra j) (hj : j.Plain) :
    i.Form Json.Plain j := by
  induction i using Instruction.induction generalizing j with
  | container id enclosure body ih =>
    rw [Form, formAll_eq] at h ⊢
    refine h.of_plain hj rfl fun vs hgiven hvs => ?_
    obtain _ | ⟨hop, _ | ⟨hid, _ | ⟨htag, _ | ⟨hbody, ⟨⟩⟩⟩⟩⟩ := hgiven
    have hbody := given_of_plain hbody (fun v hv => hvs v (by simp [hv])) fun i hi j => ih i hi
    exact .cons hop (.cons hid (.cons htag (.cons hbody .nil)))
  | conditional id body ih =>
    rw [Form, formAll_eq] at h ⊢
    refine h.of_plain hj rfl fun vs hgiven hvs => ?_
    obtain _ | ⟨hop, _ | ⟨hid, _ | ⟨hbody, ⟨⟩⟩⟩⟩ := hgiven
    have hbody := given_of_plain hbody (fun v hv => hvs v (by simp [hv])) fun i hi j => ih i hi
    exact .cons hop (.cons hid (.cons hbody .nil))
  | single id operation =>
    rw [Form] at h ⊢
    exact h.of_plain hj rfl fun vs hgiven _ => hgiven

theorem ofJson?_of_form {i : Instruction} {j : Json} (hi : i.unreserved = true) (hj : i.Form Json.Plain j) {limit : ℕ}
    (hlimit : j.depth ≤ limit) : ofJson? limit j = some i := by
  rw [ofJson?, if_pos (hj.plain limit hlimit), decode?_of_form hi hj hlimit]

end Instruction

theorem Definition.ofJson?_of_form {d : Definition} {j : Json} (hd : Instruction.unreservedAll d.body = true)
    (hj : d.Form Json.Plain j) (hlimit : j.depth ≤ nestingLimit - 2) : Definition.ofJson? j = some d := by
  obtain ⟨limit, hk, hdepth⟩ := hj.exists_limit hlimit
  obtain ⟨vs, hfields, hgiven, hvs⟩ := hj.fields? (show ["label", "renderable", "body"].Nodup by decide)
  obtain _ | ⟨hlabel, _ | ⟨hrenderable, _ | ⟨hbody, ⟨⟩⟩⟩⟩ := hgiven
  replace hfields : j.fields? ["label", "renderable", "body"] = some _ := hfields
  have hlabel := hlabel.bind List.not_mem_nil (Json.string?_ofString d.label)
  have hrenderable := hrenderable.bind List.not_mem_nil (Json.bool?_bool d.renderable)
  have hcode : ∀ items, (Json.array items).depth ≤ limit → ∀ i ∈ d.body, ∀ j ∈ items, i.Form Json.Plain j →
      Instruction.ofJson? (nestingLimit - 4) j = some i := by
    intro items hitems i hi j hj hform
    have hdepth := (Json.depth_array_le.1 hitems).2 j hj
    exact Instruction.ofJson?_of_form (Instruction.unreservedAll_iff.1 hd i hi) hform (by omega)
  have hbody := hbody.orDefault_list (fun v hv => hdepth v (hvs v (by simp [hv]))) hcode
  simp [Definition.ofJson?, hfields, hlabel, hrenderable, hbody]

/-- A program is read from every form of it that is nested within the limit and has only plain unknown members in its
instructions. -/
theorem Program.ofJson?_of_form {p : Program} {j : Json} (hconstants : ∀ c ∈ p.constants, c.2.isFinite = true)
    (hcode : ∀ d ∈ p.sections, Instruction.unreservedAll d.body = true) (hj : p.Form Json.Plain j)
    (hlimit : j.depth ≤ nestingLimit) : ofJson? j = some p := by
  obtain ⟨limit, hk, hdepth⟩ := hj.exists_limit hlimit
  obtain ⟨vs, hfields, hgiven, hvs⟩ :=
    hj.fields? (show ["unsafe_mode", "strings", "constants", "sections"].Nodup by decide)
  obtain _ | ⟨htrusted, _ | ⟨hstrings, _ | ⟨hreals, _ | ⟨hsections, ⟨⟩⟩⟩⟩⟩ := hgiven
  replace hfields : j.fields? ["unsafe_mode", "strings", "constants", "sections"] = some _ := hfields
  have htrusted := htrusted.orDefault false (by simp [defaults]) (Json.bool?_bool p.trusted)
  have hstrings := hstrings.orDefault [] (by simp [defaults]) <|
    Json.list?_map fun s _ => Json.pair?_array (Json.int64?_ofInt s.1) (Json.string?_ofString s.2)
  have hreals := hreals.orDefault [] (by simp [defaults]) <|
    Json.list?_map fun c hc => Json.pair?_array (Json.int64?_ofInt c.1) (Json.real?_number (hconstants c hc))
  have hdefinitions : ∀ items, (Json.array items).depth ≤ limit → ∀ d ∈ p.sections, ∀ j ∈ items, d.Form Json.Plain j →
      Definition.ofJson? j = some d := by
    intro items hitems d hd j hj hform
    have hdepth := (Json.depth_array_le.1 hitems).2 j hj
    exact Definition.ofJson?_of_form (hcode d hd) hform (by omega)
  have hsections := hsections.orDefault_list (fun v hv => hdepth v (hvs v (by simp [hv]))) hdefinitions
  simp [ofJson?, hfields, htrusted, hstrings, hreals, hsections]

/-! ### The written form -/

section

variable (extra : Json → Prop)

theorem Instruction.form_toJson (i : Instruction) : i.Form extra i.toJson := by
  induction i using Instruction.induction with
  | container id enclosure body ih =>
    rw [Form, formAll_eq, toJson, toJsonAll_eq]
    have hbody := List.forall₂_map_right_iff.2 (List.forall₂_same.2 ih)
    exact .ofMembers (.cons ⟨rfl, rfl⟩ (.cons ⟨rfl, rfl⟩ (.cons ⟨rfl, rfl⟩ (.cons ⟨rfl, _, rfl, hbody⟩ .nil))))
  | conditional id body ih =>
    rw [Form, formAll_eq, toJson, toJsonAll_eq]
    have hbody := List.forall₂_map_right_iff.2 (List.forall₂_same.2 ih)
    exact .ofMembers (.cons ⟨rfl, rfl⟩ (.cons ⟨rfl, rfl⟩ (.cons ⟨rfl, _, rfl, hbody⟩ .nil)))
  | single id operation =>
    rw [Form, toJson]
    refine .ofMembers (.cons ⟨rfl, rfl⟩ (.cons ⟨rfl, rfl⟩ ?_))
    exact List.forall₂_map_left_iff.2 (List.forall₂_same.2 fun _ _ => ⟨rfl, rfl⟩)

theorem Definition.form_toJson (d : Definition) : d.Form extra d.toJson := by
  rw [Definition.toJson, Instruction.toJsonAll_eq]
  have hbody := List.forall₂_map_right_iff.2 (List.forall₂_same.2 fun i (_ : i ∈ d.body) => i.form_toJson extra)
  exact .ofMembers (.cons ⟨rfl, rfl⟩ (.cons ⟨rfl, rfl⟩ (.cons ⟨rfl, _, rfl, hbody⟩ .nil)))

theorem Program.form_toJson (p : Program) : p.Form extra p.toJson := by
  have hsections :=
    List.forall₂_map_right_iff.2 (List.forall₂_same.2 fun d (_ : d ∈ p.sections) => d.form_toJson extra)
  exact .ofMembers
    (.cons ⟨rfl, rfl⟩ (.cons ⟨rfl, rfl⟩ (.cons ⟨rfl, rfl⟩ (.cons ⟨rfl, _, rfl, hsections⟩ .nil))))

end

end Trellis
