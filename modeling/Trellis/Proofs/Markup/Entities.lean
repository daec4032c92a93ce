import Trellis.Proofs.Markup.Escape

/-!
# Decoding by a table of entities

Decoding can be done by jumping from one ampersand to the next and trying a table of entities there, in order. What
stands before an ampersand is copied, and so is an ampersand at which no entity stands. Since escaping writes every
ampersand as an entity of its own, text that has been escaped is taken back up to its end, and what follows is decoded
by itself: it neither completes an entity of the escaped text nor is decoded twice.
-/
namespace Trellis.Markup

/-- The entities with the characters that they stand for, in the order in which they are tried. -/
def entities : List (List Char × Char) :=
  [(['&', 'a', 'm', 'p', ';'], '&'), (['&', 'l', 't', ';'], '<'), (['&', 'g', 't', ';'], '>'),
    (['&', 'q', 'u', 'o', 't', ';'], '\x22'), (['&', '#', '3', '9', ';'], '\x27'),
    (['&', 'a', 'p', 'o', 's', ';'], '\x27')]

/-- The first entity of the table that stands at the front of a text. -/
def entity? (cs : List Char) : Option (List Char × Char) := entities.find? fun e => e.1.isPrefixOf cs

/-- Decodes from one ampersand to the next. -/
def scan (cs : List Char) : List Char :=
  match _h : cs.dropWhile (· ≠ '&') with
  | [] => cs
  | c :: rest =>
    match entity? (c :: rest) with
    | some e => cs.takeWhile (· ≠ '&') ++ e.2 :: scan (rest.drop (e.1.length - 1))
    | none => cs.takeWhile (· ≠ '&') ++ c :: scan rest
termination_by cs.length
decreasing_by
  all_goals
    have hle : (cs.dropWhile (· ≠ '&')).length ≤ cs.length := (List.dropWhile_sublist _).length_le
    rw [_h, List.length_cons] at hle
  · exact Nat.lt_of_le_of_lt (List.drop_sublist _ _).length_le hle
  · exact hle

theorem decode_entity {e : List Char × Char} (he : e ∈ entities) (cs : List Char) :
    decode (e.1 ++ cs) = e.2 :: decode cs := by
  simp only [entities, List.mem_cons, List.not_mem_nil, or_false] at he
  rcases he with rfl | rfl | rfl | rfl | rfl | rfl <;> simp [decode]

/-- A character at which no entity stands is left as it is. -/
theorem decode_of_no_entity {c : Char} {cs : List Char} (h : ∀ e ∈ entities, ¬e.1 <+: c :: cs) :
    decode (c :: cs) = c :: decode cs := by
  have hname : ∀ e ∈ entities, ∀ rest, c :: cs ≠ e.1 ++ rest := fun e he rest heq => h e he ⟨rest, heq.symm⟩
  simp only [entities, List.forall_mem_cons] at hname
  obtain ⟨hamp, hlt, hgt, hquot, hnumber, hapos, -⟩ := hname
  rw [decode]
  all_goals rintro rest rfl rfl
  · exact hamp rest rfl
  · exact hlt rest rfl
  · exact hgt rest rfl
  · exact hquot rest rfl
  · exact hnumber rest rfl
  · exact hapos rest rfl

/-- What stands before the next ampersand is copied. -/
theorem decode_eq_takeWhile (cs : List Char) :
    decode cs = cs.takeWhile (· ≠ '&') ++ decode (cs.dropWhile (· ≠ '&')) := by
  induction cs with
  | nil => rfl
  | cons c cs ih =>
    by_cases hc : c = '&'
    · simp [hc]
    · rw [decode_cons_of_ne hc, ih]
      simp [hc]

theorem entity?_eq_some {cs : List Char} {e : List Char × Char} (h : entity? cs = some e) :
    e ∈ entities ∧ e.1 <+: cs := by
  obtain ⟨hfront, -⟩ := List.find?_eq_some_iff_append.1 h
  exact ⟨List.mem_of_find?_eq_some h, List.isPrefixOf_iff_prefix.1 hfront⟩

theorem entity?_eq_none {cs : List Char} (h : entity? cs = none) : ∀ e ∈ entities, ¬e.1 <+: cs := by
  intro e he hfront
  have htried := List.isPrefixOf_iff_prefix.2 hfront
  exact List.find?_eq_none.1 h e he htried

/-- The names in the table are not empty. -/
theorem length_pos_of_mem_entities {e : List Char × Char} (he : e ∈ entities) : 0 < e.1.length := by
  have hall : entities.all (fun e => 0 < e.1.length) = true := by decide
  simpa using List.all_eq_true.1 hall e he

/-- An entity is followed by what is left behind its last character. -/
theorem entity_append_drop {c : Char} {rest : List Char} {e : List Char × Char} (h : entity? (c :: rest) = some e) :
    e.1 ++ rest.drop (e.1.length - 1) = c :: rest := by
  obtain ⟨hmem, tail, htail⟩ := entity?_eq_some h
  have hlength := length_pos_of_mem_entities hmem
  have hskip : (c :: rest).drop e.1.length = tail := by rw [← htail, List.drop_left]
  rw [← Nat.sub_add_cancel hlength, List.drop_succ_cons] at hskip
  rw [← htail, ← hskip]

/-- Jumping from one ampersand to the next decodes a text. -/
theorem decode_eq_scan (cs : List Char) : decode cs = scan cs := by
  fun_induction scan cs with
  | case1 cs hnone =>
    have hall := List.takeWhile_append_dropWhile (p := fun c : Char => decide (c ≠ '&')) (l := cs)
    rw [hnone, List.append_nil] at hall
    rw [decode_eq_takeWhile, hnone, decode, List.append_nil, hall]
  | case2 cs c rest hrest e he ih =>
    rw [decode_eq_takeWhile, hrest, ← ih, ← entity_append_drop he, decode_entity (entity?_eq_some he).1]
  | case3 cs c rest hrest hnone ih =>
    rw [decode_eq_takeWhile, hrest, decode_of_no_entity (entity?_eq_none hnone), ih]

/-- An escaped attribute value neither opens nor closes a tag. -/
theorem ne_of_mem_escapeAttribute {s : List Char} {d : Char} (h : d ∈ escapeAttribute s) : d ≠ '<' ∧ d ≠ '>' := by
  obtain ⟨c, -, hd⟩ := List.mem_flatMap.mp h
  unfold escapeAttributeChar at hd
  split at hd
  · have hall : ['&', 'q', 'u', 'o', 't', ';'].all (fun d => d ≠ '<' && d ≠ '>') = true := by decide
    simpa using List.all_eq_true.1 hall d hd
  · exact ne_of_mem_escapeTextChar hd

/-- Decoding a text is trying the table of entities at each ampersand. It takes escaped text back up to its end,
whatever follows it, and escaped text holds no character that could end a tag or a quoted value. -/
theorem escaping_undone_locally (s t : String) :
    decodeEntities t = String.ofList (scan t.toList) ∧
      decodeEntities (String.ofList (escapeAttribute s.toList) ++ t) = s ++ decodeEntities t ∧
      decodeEntities (String.ofList (escapeText s.toList) ++ t) = s ++ decodeEntities t ∧
      ('<' ∉ escapeText s.toList ∧ '>' ∉ escapeText s.toList) ∧
      ('<' ∉ escapeAttribute s.toList ∧ '>' ∉ escapeAttribute s.toList ∧ '\x22' ∉ escapeAttribute s.toList) := by
  have hstring : ∀ {escape : List Char → List Char}, (∀ u v, decode (escape u ++ v) = u ++ decode v) →
      decodeEntities (String.ofList (escape s.toList) ++ t) = s ++ decodeEntities t := by
    intro escape hescape
    rw [decodeEntities, String.toList_append, String.toList_ofList, hescape, String.ofList_append, String.ofList_toList]
    rfl
  refine ⟨by rw [decodeEntities, decode_eq_scan], hstring decode_escapeAttribute, hstring decode_escapeText, ?_, ?_⟩
  · exact ⟨fun h => (ne_of_mem_escapeText h).1 rfl, fun h => (ne_of_mem_escapeText h).2 rfl⟩
  · exact ⟨fun h => (ne_of_mem_escapeAttribute h).1 rfl, fun h => (ne_of_mem_escapeAttribute h).2 rfl,
      fun h => ne_quote_of_mem_escapeAttribute h rfl⟩

end Trellis.Markup
