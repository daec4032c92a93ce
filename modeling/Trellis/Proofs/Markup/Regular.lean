import Trellis.Proofs.Markup.Canonical
import Trellis.Proofs.Tree.WellFormed
import Trellis.Proofs.Tree.Within

/-!
# What is read is regular

The reader takes any text: tags that are cut short, stray brackets, comments, closing tags that close nothing, names
that come twice. What it gives back is a regular forest nevertheless. Each token is regular by itself, and whatever the
reader does with a token keeps the siblings it has read regular at every level: texts are joined, and an element is put
among its siblings only when it is complete. A tree keeps the attributes of a regular forest in order, and this makes
the forest canonical. What a tree writes for a text is therefore a normal form of that text.
-/
namespace Trellis

namespace Markup

/-! ### Regular forests -/

/-- A piece of markup that is canonical but for its attributes, which may come in any order and a name more than
once. -/
def isRegular : Markup → Bool := isTidy fun _ => true

def areRegular : List Markup → Bool := areTidy fun _ => true

/-- Two pieces that may stand beside each other. -/
def Beside (m n : Markup) : Prop := m.isText = false ∨ n.isText = false

/-- Regular pieces in a row. The reader keeps its rows newest first, and a row may be turned round. -/
structure Regular (ms : List Markup) : Prop where
  pieces : ∀ m ∈ ms, isRegular m = true
  beside : ms.IsChain Beside

namespace Regular

variable {m : Markup} {ms : List Markup}

theorem nil : Regular [] := ⟨by simp, .nil⟩

theorem cons_iff : Regular (m :: ms) ↔ isRegular m = true ∧ (∀ n ∈ ms.head?, Beside m n) ∧ Regular ms := by
  constructor
  · rintro ⟨hpieces, hbeside⟩
    obtain ⟨hhead, htail⟩ := List.isChain_cons.mp hbeside
    exact ⟨hpieces m List.mem_cons_self, hhead, fun n hn => hpieces n (List.mem_cons_of_mem _ hn), htail⟩
  · rintro ⟨hm, hhead, hpieces, hbeside⟩
    refine ⟨fun n hn => ?_, List.isChain_cons.mpr ⟨hhead, hbeside⟩⟩
    rcases List.mem_cons.mp hn with rfl | hn
    · exact hm
    · exact hpieces n hn

theorem reverse (h : Regular ms) : Regular ms.reverse := by
  refine ⟨fun m hm => h.pieces m (List.mem_reverse.mp hm), List.isChain_reverse.mpr ?_⟩
  exact h.beside.imp fun _ _ => Or.symm

end Regular

theorem areRegular_iff {ms : List Markup} : areRegular ms = true ↔ Regular ms := by
  induction ms with
  | nil => simp [areRegular, areTidy, Regular.nil]
  | cons m ms ih =>
    rw [Regular.cons_iff, ← ih]
    cases ms with
    | nil => simp [areRegular, isRegular, areTidy]
    | cons n ms => simp [areRegular, isRegular, areTidy, Beside, and_assoc]

theorem isRegular_element {tag : String} {attributes : List (String × String)} {children : List Markup} :
    isRegular (.element tag attributes children) = true ↔
      isTag tag = true ∧ (isVoid tag = true → children = []) ∧ (∀ a ∈ attributes, isName a.1 = true) ∧
        Regular children := by
  rw [← areRegular_iff]
  cases hv : isVoid tag <;> simp [isRegular, areRegular, isTidy, hv, and_assoc]

/-! ### Regular tokens -/

def Token.isRegular : Token → Bool
  | .text content => content ≠ ""
  | .opening tag attributes _ => isTag tag && attributes.all (isName ·.1)
  | .closing _ => true
  | .comment => true

/-- No text is decoded to nothing. -/
theorem decode_cons_ne_nil (c : Char) (cs : List Char) : decode (c :: cs) ≠ [] := by
  unfold decode
  split <;> simp_all

theorem isTag_lowercase {c : Char} {cs : List Char} (hc : c.isAlpha = true) (hcs : ∀ d ∈ cs, isNameChar d = true) :
    isTag (lowercase (c :: cs)) = true := by
  simp only [isTag, lowercase, String.toList_ofList, List.map_cons, Bool.and_eq_true, List.all_eq_true,
    List.forall_mem_map, Char.isLower_toLower_eq_isAlpha]
  refine ⟨hc, fun d hd => ?_⟩
  have hd := hcs d hd
  by_cases hu : d.isUpper = true
  · simp [Char.isAlpha, hu]
  · rw [Char.toLower_eq_of_not_isUpper hu]
    simpa [isNameChar, Char.isAlphanum, or_assoc] using hd

/-- A letter belongs to the name it stands in. -/
theorem isAttributeChar_of_isLower {c : Char} (h : c.isLower = true) : isAttributeChar c = true := by
  simp only [Char.isLower, Bool.and_eq_true, decide_eq_true_eq, UInt32.le_iff_toNat_le] at h
  have hlow : 97 ≤ c.toNat := h.1
  have hhigh : c.toNat ≤ 122 := h.2
  have hne : ∀ d : Char, d.toNat < 97 → c ≠ d := by rintro d hd rfl; omega
  have hblank : isBlank c = false := by
    simp only [isBlank, blankRanges, List.any_cons, List.any_nil, Bool.or_false, Bool.or_eq_false_iff,
      Bool.and_eq_false_iff, decide_eq_false_iff_not]
    omega
  simp [isAttributeChar, hblank, hne]

theorem isName_lowercase {c : Char} {cs : List Char} (h : ∀ d ∈ c :: cs, isAttributeChar d = true) :
    isName (lowercase (c :: cs)) = true := by
  have hlower : ∀ d ∈ c :: cs, isAttributeChar d.toLower = true := by
    intro d hd
    by_cases hu : d.isUpper = true
    · exact isAttributeChar_of_isLower (by simp [Char.isAlpha, hu])
    · rw [Char.toLower_eq_of_not_isUpper hu]
      exact h d hd
  simp only [isName, lowercase, String.toList_ofList, Bool.and_eq_true, List.all_eq_true, List.forall_mem_map]
  refine ⟨by simp [← String.toList_inj], fun d hd => ?_⟩
  simpa [isAttributeChar, and_assoc] using hlower d hd

theorem isName_of_mem_attributes {cs : List Char} {a : String × String} (h : a ∈ (attributes cs).1) :
    isName a.1 = true := by
  fun_induction attributes cs with
  | case1 | case2 | case3 => simp at h
  | case4 cs c rest _ _ _ hc name value more ih =>
    rcases List.mem_cons.mp h with rfl | h
    · apply isName_lowercase
      intro d hd
      rcases List.mem_cons.mp hd with rfl | hd
      · exact hc
      · exact List.mem_takeWhile_imp hd
    · exact ih h
  | case5 cs c rest _ _ _ _ ih => exact ih h

theorem isRegular_next (c : Char) (cs : List Char) : (next c cs).1.isRegular = true := by
  obtain ⟨rest, rfl, rfl⟩ | ⟨d, rest, rfl, rfl, hd⟩ | ⟨d, rest, rfl, rfl, hd⟩ | hplain := next_cases c cs
  · rfl
  · rw [next_closing hd]
    rfl
  · have htag := isTag_lowercase hd fun _ (hmem : _ ∈ rest.takeWhile isNameChar) => List.mem_takeWhile_imp hmem
    rw [next_opening hd]
    simp only [Token.isRegular, htag, Bool.true_and, List.all_eq_true]
    exact fun a ha => isName_of_mem_attributes ha
  · rw [next_text hplain]
    simp [Token.isRegular, decode_cons_ne_nil]

theorem isRegular_of_mem_tokens {cs : List Char} {t : Token} (h : t ∈ tokens cs) : t.isRegular = true := by
  fun_induction tokens cs with
  | case1 => simp at h
  | case2 c cs token ih =>
    rcases List.mem_cons.mp h with rfl | h
    · exact isRegular_next c cs
    · exact ih h

/-! ### The reader keeps its rows regular -/

/-- Text joins text, so a regular piece can be put after any row. -/
theorem Regular.addSibling {m : Markup} {siblings : List Markup} (hm : isRegular m = true) (hs : Regular siblings) :
    Regular (addSibling m siblings) := by
  unfold Markup.addSibling
  split
  · next more content siblings =>
    obtain ⟨hc, hhead, hs⟩ := Regular.cons_iff.mp hs
    refine Regular.cons_iff.mpr ⟨?_, fun n hn => ?_, hs⟩
    · simp_all [isRegular, isTidy]
    · simpa [Beside, isText] using hhead n hn
  · next hjoin =>
    refine Regular.cons_iff.mpr ⟨hm, fun n hn => ?_, hs⟩
    cases siblings with
    | nil => simp at hn
    | cons n' siblings =>
      obtain rfl : n' = n := by simpa using hn
      cases m <;> cases n' <;> simp_all [Beside, isText]

/-- An element that may be closed at any time. -/
structure Opened.Regular (o : Opened) : Prop where
  tag : isTag o.tag = true
  hollow : isVoid o.tag = false
  names : ∀ a ∈ o.attributes, isName a.1 = true
  before : Markup.Regular o.before

structure Cursor.Regular (c : Cursor) : Prop where
  siblings : Markup.Regular c.siblings
  path : ∀ o ∈ c.path, o.Regular

theorem Opened.Regular.close {o : Opened} {siblings : List Markup} (ho : o.Regular)
    (hs : Markup.Regular siblings) :
    Markup.Regular (addSibling (.element o.tag o.attributes siblings.reverse) o.before) := by
  have hvoid : isVoid o.tag = true → siblings.reverse = [] := by simp [ho.hollow]
  exact ho.before.addSibling (isRegular_element.mpr ⟨ho.tag, hvoid, ho.names, hs.reverse⟩)

namespace Cursor

theorem regular_closeThrough (tag : String) {path : List Opened} {siblings : List Markup}
    (hs : Markup.Regular siblings) (hp : ∀ o ∈ path, o.Regular) : (closeThrough tag path siblings).Regular := by
  induction path generalizing siblings with
  | nil => exact ⟨hs, hp⟩
  | cons o path ih =>
    have hclosed := (hp o List.mem_cons_self).close hs
    have hpath : ∀ o ∈ path, o.Regular := fun o ho => hp o (List.mem_cons_of_mem _ ho)
    rw [closeThrough]
    split
    · exact ⟨hclosed, hpath⟩
    · exact ih hclosed hpath

theorem regular_closeAll {path : List Opened} {siblings : List Markup} (hs : Markup.Regular siblings)
    (hp : ∀ o ∈ path, o.Regular) : Markup.Regular (closeAll path siblings) := by
  induction path generalizing siblings with
  | nil => exact hs
  | cons o path ih =>
    exact ih ((hp o List.mem_cons_self).close hs) fun o ho => hp o (List.mem_cons_of_mem _ ho)

namespace Regular

variable {c : Cursor}

theorem add {m : Markup} (hc : c.Regular) (hm : Markup.isRegular m = true) : (c.add m).Regular :=
  ⟨hc.siblings.addSibling hm, hc.path⟩

theorem read {t : Token} (hc : c.Regular) (ht : t.isRegular = true) : (c.read t).Regular := by
  cases t with
  | text content => exact hc.add (by simpa [isRegular, isTidy, Token.isRegular] using ht)
  | comment => exact hc
  | opening tag attributes selfClosing =>
    obtain ⟨htag, hnames⟩ : isTag tag = true ∧ ∀ a ∈ attributes, isName a.1 = true := by
      simpa [Token.isRegular] using ht
    rw [Cursor.read]
    split
    · exact hc.add (isRegular_element.mpr ⟨htag, fun _ => rfl, hnames, .nil⟩)
    · next hopen =>
      have hvoid : isVoid tag = false := by simp_all
      exact ⟨.nil, List.forall_mem_cons.mpr ⟨⟨htag, hvoid, hnames, hc.siblings⟩, hc.path⟩⟩
  | closing tag =>
    rw [Cursor.read]
    split
    · exact regular_closeThrough tag hc.siblings hc.path
    · exact hc

theorem foldl_read {ts : List Token} (hc : c.Regular) (ht : ∀ t ∈ ts, t.isRegular = true) :
    (ts.foldl Cursor.read c).Regular := by
  induction ts generalizing c with
  | nil => exact hc
  | cons t ts ih =>
    obtain ⟨ht, hts⟩ := List.forall_mem_cons.mp ht
    exact ih (hc.read ht) hts

end Regular
end Cursor

/-- Whatever is read, the forest is regular. -/
theorem regular_parse (source : String) : Regular (parse source) := by
  have hstart : Cursor.start.Regular := ⟨.nil, by simp [Cursor.start]⟩
  have hread := hstart.foldl_read fun t (ht : t ∈ tokens source.toList) => isRegular_of_mem_tokens ht
  exact (Cursor.regular_closeAll hread.siblings hread.path).reverse

end Markup

/-! ### A regular forest in a tree -/

namespace Tree.Attributes

theorem mem_set {name value : String} {attributes : Attributes} {a : String × String}
    (h : a ∈ attributes.set name value) : a = (name, value) ∨ a ∈ attributes := by
  fun_induction set name value attributes <;> grind

theorem pairwise_set (name value : String) {attributes : Attributes}
    (h : attributes.Pairwise fun a b => a.1 < b.1) : (attributes.set name value).Pairwise fun a b => a.1 < b.1 := by
  induction attributes with
  | nil => simp [set]
  | cons p attributes ih =>
    obtain ⟨hhead, htail⟩ := List.pairwise_cons.mp h
    unfold set
    split
    · next hlt =>
      refine List.pairwise_cons.mpr ⟨fun b hb => ?_, h⟩
      rcases List.mem_cons.mp hb with rfl | hb
      · exact hlt
      · exact String.lt_trans hlt (hhead b hb)
    · next hlt =>
      split
      · next heq => exact List.pairwise_cons.mpr ⟨heq ▸ hhead, htail⟩
      · next hne =>
        refine List.pairwise_cons.mpr ⟨fun b hb => ?_, ih htail⟩
        rcases mem_set hb with rfl | hb
        · exact lt_of_le_of_ne (not_lt.mp hlt) (Ne.symm hne)
        · exact hhead b hb

theorem ofList_concat (pairs : List (String × String)) (p : String × String) :
    ofList (pairs ++ [p]) = (ofList pairs).set p.1 p.2 := by
  simp [ofList]

theorem mem_of_mem_ofList {pairs : List (String × String)} {a : String × String} (h : a ∈ ofList pairs) :
    a ∈ pairs := by
  induction pairs using List.reverseRecOn with
  | nil => exact h
  | append_singleton pairs p ih =>
    rw [ofList_concat] at h
    rcases mem_set h with rfl | h
    · simp
    · simp [ih h]

theorem pairwise_ofList (pairs : List (String × String)) : (ofList pairs).Pairwise fun a b => a.1 < b.1 := by
  induction pairs using List.reverseRecOn with
  | nil => simp [ofList]
  | append_singleton pairs p ih =>
    rw [ofList_concat]
    exact pairwise_set p.1 p.2 ih

/-- Each name has the value that came last for it. -/
theorem get?_ofList (pairs : List (String × String)) (name : String) :
    (ofList pairs).get? name = get? pairs.reverse name := by
  induction pairs using List.reverseRecOn with
  | nil => rfl
  | append_singleton pairs p ih =>
    rw [ofList_concat, get?_set, ih]
    by_cases h : p.1 = name <;> simp [get?, h]

end Tree.Attributes

namespace Markup

/-- A tree puts the attributes of a regular forest in order, and nothing else is missing for it to be canonical. -/
theorem Regular.normalAll {ms : List Markup} (h : Regular ms) : areCanonical (normalAll ms) = true := by
  induction ms using Markup.forestInduction with
  | nil => rfl
  | text content ms ih =>
    obtain ⟨hc, hhead, hms⟩ := Regular.cons_iff.mp h
    have hapart : Apart (Markup.normalAll ms) [.text content] := by
      cases ms with
      | nil => simp [Markup.normalAll, Apart]
      | cons m ms => cases m <;> simp_all [Markup.normalAll, normal, Apart, isText, Beside]
    exact areCanonical_text.mpr ⟨by simpa [isRegular, isTidy] using hc, hapart, ih hms⟩
  | element tag attributes children ms ihc ihs =>
    obtain ⟨he, -, hms⟩ := Regular.cons_iff.mp h
    obtain ⟨htag, hvoid, hnames, hchildren⟩ := isRegular_element.mp he
    have hnames' : ∀ a ∈ Tree.Attributes.ofList attributes, isName a.1 = true := fun a ha =>
      hnames a (Tree.Attributes.mem_of_mem_ofList ha)
    have hvoid' : isVoid tag = true → Markup.normalAll children = [] := by
      intro hv
      rw [hvoid hv, Markup.normalAll]
    exact areCanonical_element.mpr
      ⟨⟨htag, hvoid', hnames', Tree.Attributes.pairwise_ofList attributes, ihc hchildren⟩, ihs hms⟩

/-- The canonical forests are those that are read, with their attributes in order. -/
theorem areCanonical_iff_exists_parse {ms : List Markup} :
    areCanonical ms = true ↔ ∃ source, normalAll (parse source) = ms := by
  constructor
  · intro h
    exact ⟨String.ofList (writeAll ms), by rw [parse_of_canonical h, normalAll_of_canonical h]⟩
  · rintro ⟨source, rfl⟩
    exact (regular_parse source).normalAll

end Markup

/-! ### Writing what was read -/

namespace Tree

/-- What a tree writes for the nodes that it makes for a text. -/
def rewritten (t : Tree) (source : String) : String :=
  String.join ((t.parse source).1.map (t.parse source).2.markup)

theorem Sound.find?_of_mem {t : Tree} (ht : t.Sound) {n : Node} (hn : n ∈ t.nodes) :
    t.find? n.handle = some n := by
  obtain ⟨pre, post, heq⟩ := List.append_of_mem hn
  have hd := ht.nodup
  rw [heq] at hd
  rw [find?, heq]
  exact Node.findAmong?_middle hd

theorem Node.join_written (ns : List Node) :
    String.join (ns.map fun n => String.ofList n.toMarkup.write) =
      String.ofList (Markup.writeAll (Node.toMarkupAll ns)) := by
  induction ns with
  | nil => rfl
  | cons n ns ih => simp [String.join_cons, ih, Markup.writeAll, Node.toMarkupAll]

theorem Sound.rewritten_eq {t : Tree} (ht : t.Sound) (source : String) :
    t.rewritten source = String.ofList (Markup.writeAll (Markup.normalAll (Markup.parse source))) := by
  have hmarkup : ∀ n ∈ (Node.ofMarkupAll t.pool (Markup.parse source)).1,
      (t.parse source).2.markup n.handle = String.ofList n.toMarkup.write := by
    intro n hn
    have hmem : n ∈ (t.parse source).2.nodes := List.mem_append_left _ hn
    rw [markup, (ht.parse source).find?_of_mem hmem]
  have hmap : (t.parse source).1.map (t.parse source).2.markup =
      (Node.ofMarkupAll t.pool (Markup.parse source)).1.map fun n => String.ofList n.toMarkup.write := by
    rw [← List.map_congr_left hmarkup]
    simp [Tree.parse]
  rw [rewritten, hmap, Node.join_written, Node.toMarkupAll_ofMarkupAll]

/-- What any tree writes for a text is a normal form of that text. The forest that is read is regular; put in order,
with the last value for each name, it is canonical, and all canonical forests come about so. This forest and no other is
read from what was written, and writing it again changes nothing. -/
theorem rewriting_settles (es fs : List Edit) (source : String) :
    Markup.areRegular (Markup.parse source) = true ∧
      (∀ ms, Markup.areCanonical ms = true ↔ ∃ s, Markup.normalAll (Markup.parse s) = ms) ∧
      (∀ pairs name, (Attributes.ofList pairs).get? name = Attributes.get? pairs.reverse name) ∧
      Markup.parse ((new.edits es).rewritten source) = Markup.normalAll (Markup.parse source) ∧
      (new.edits fs).rewritten ((new.edits es).rewritten source) = (new.edits es).rewritten source := by
  have hes : (new.edits es).Sound := sound_new.edits es
  have hfs : (new.edits fs).Sound := sound_new.edits fs
  have hregular := Markup.regular_parse source
  have hread : Markup.parse ((new.edits es).rewritten source) = Markup.normalAll (Markup.parse source) := by
    rw [hes.rewritten_eq, Markup.parse_of_canonical hregular.normalAll]
  refine ⟨Markup.areRegular_iff.mpr hregular, fun _ => Markup.areCanonical_iff_exists_parse, Attributes.get?_ofList,
    hread, ?_⟩
  rw [hfs.rewritten_eq, hread, Markup.normalAll_of_canonical hregular.normalAll, hes.rewritten_eq]

end Tree

end Trellis
