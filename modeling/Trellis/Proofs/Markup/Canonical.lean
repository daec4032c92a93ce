import Mathlib
import Trellis.Proofs.Engine.Growth
import Trellis.Proofs.Markup.Escape
import Trellis.Proofs.Markup.Next
import Trellis.Proofs.Text.Scan

/-!
# Written markup is read back

The writer and the reader know nothing of each other. What the reader can give back at all is a canonical forest:
tags and names as they are read, void elements that hold nothing, no text that is empty or stands beside another.
On such a forest the two are inverse, whatever characters its texts and values hold. The proof goes through the
tokens: the written text falls into the tokens of the forest, and these build the forest up again.
-/
namespace Trellis

namespace Markup

/-! ### Canonical forests -/

/-- A lowercase letter, and then lowercase letters, digits and `-`. -/
def isTag (tag : String) : Bool :=
  match tag.toList with
  | [] => false
  | c :: cs => c.isLower && cs.all fun d => d.isLower || d.isDigit || d = '-'

/-- At least one character, and none that ends a name or has another case to be read in. -/
def isName (name : String) : Bool :=
  name ≠ "" && name.toList.all fun c => !c.isUpper && !isBlank c && c ∉ ['=', '>', '/']

mutual

/-- A piece of markup with tags and names as they are read, whose attributes pass a test at every level. -/
def isTidy (test : List (String × String) → Bool) : Markup → Bool
  | .text content => content ≠ ""
  | .element tag attributes children =>
    isTag tag && (!isVoid tag || children.isEmpty) && attributes.all (isName ·.1) && test attributes &&
      areTidy test children

/-- Whether all pieces of a forest are tidy and no text stands beside another. -/
def areTidy (test : List (String × String) → Bool) : List Markup → Bool
  | [] => true
  | m :: ms => isTidy test m && !(m.isText && (ms.head?.map isText).getD false) && areTidy test ms

end

/-- A canonical forest has the attributes of each element in the order of their names, each name once. -/
def areCanonical : List Markup → Bool :=
  areTidy fun attributes => decide (attributes.Pairwise fun a b => a.1 < b.1)

/-- No text stands where one comes next. -/
def Apart (ms siblings : List Markup) : Prop :=
  ∀ m ∈ ms.head?, ∀ n ∈ siblings.head?, m.isText = true → n.isText = false

@[simp] theorem areCanonical_text {content : String} {ms : List Markup} :
    areCanonical (.text content :: ms) = true ↔
      content ≠ "" ∧ Apart ms [.text content] ∧ areCanonical ms = true := by
  cases ms with
  | nil => simp [areCanonical, areTidy, isTidy, isText, Apart]
  | cons m ms => simp [areCanonical, areTidy, isTidy, isText, Apart, and_assoc]

@[simp] theorem areCanonical_element {tag : String} {attributes : List (String × String)}
    {children ms : List Markup} :
    areCanonical (.element tag attributes children :: ms) = true ↔
      (isTag tag = true ∧ (isVoid tag = true → children = []) ∧ (∀ a ∈ attributes, isName a.1 = true) ∧
        attributes.Pairwise (fun a b => a.1 < b.1) ∧ areCanonical children = true) ∧ areCanonical ms = true := by
  cases hv : isVoid tag <;> simp [areCanonical, areTidy, isTidy, isText, hv, and_assoc]

/-! ### Characters -/

/-- The characters of a tag are read as part of it, and as they stand. -/
theorem read_tagChar {c : Char} (h : (c.isLower || c.isDigit || c = '-') = true) :
    isNameChar c = true ∧ c.isUpper = false := by
  simp only [Bool.or_eq_true, decide_eq_true_eq] at h
  obtain (h | h) | rfl := h
  · exact ⟨by simp [isNameChar, Char.isAlphanum, Char.isAlpha, h], by simpa using Char.not_isUpper_of_isLower h⟩
  · refine ⟨by simp [isNameChar, Char.isAlphanum, h], ?_⟩
    simp only [Char.isDigit, Char.isUpper, Bool.and_eq_true, decide_eq_true_eq, decide_eq_false_iff_not] at h ⊢
    intro hu
    exact absurd (UInt32.le_trans hu.1 h.2) (by decide)
  · decide

/-- Where no letter has another case, reading in lower case changes nothing. -/
theorem lowercase_of_not_isUpper {cs : List Char} (h : ∀ c ∈ cs, c.isUpper = false) :
    lowercase cs = String.ofList cs := by
  have hself : ∀ c ∈ cs, c.toLower = id c := fun c hc => Char.toLower_eq_of_not_isUpper (by simp [h c hc])
  rw [lowercase, List.map_congr_left hself, List.map_id]

theorem exists_of_isTag {tag : String} (h : isTag tag = true) :
    ∃ c cs, tag.toList = c :: cs ∧ c.isAlpha = true ∧ ∀ d ∈ c :: cs, isNameChar d = true ∧ d.isUpper = false := by
  unfold isTag at h
  cases hl : tag.toList with
  | nil => simp [hl] at h
  | cons c cs =>
    simp only [hl, Bool.and_eq_true, List.all_eq_true] at h
    refine ⟨c, cs, rfl, by simp [Char.isAlpha, h.1], fun d hd => ?_⟩
    rcases List.mem_cons.mp hd with rfl | hd
    · exact read_tagChar (by simp [h.1])
    · exact read_tagChar (h.2 d hd)

theorem exists_of_isName {name : String} (h : isName name = true) :
    ∃ c cs, name.toList = c :: cs ∧ ∀ d ∈ c :: cs, isAttributeChar d = true ∧ d.isUpper = false := by
  simp only [isName, Bool.and_eq_true, decide_eq_true_eq, List.all_eq_true] at h
  cases hl : name.toList with
  | nil => exact absurd (String.toList_eq_nil_iff.mp hl) h.1
  | cons c cs =>
    refine ⟨c, cs, rfl, fun d hd => ?_⟩
    have hd := h.2 d (hl ▸ hd)
    simp_all [isAttributeChar]

/-- A tag or a name is read as it was written, up to a character that is no part of it. -/
theorem read_word {p : Char → Bool} {word : String} {c : Char} {cs rest : List Char} (hw : word.toList = c :: cs)
    (hread : ∀ d ∈ c :: cs, p d = true ∧ d.isUpper = false) (hrest : Stops p rest) :
    lowercase (c :: (cs ++ rest).takeWhile p) = word ∧ (cs ++ rest).dropWhile p = rest := by
  have hcs : ∀ d ∈ cs, p d = true := fun d hd => (hread d (List.mem_cons_of_mem _ hd)).1
  refine ⟨?_, dropWhile_run hcs hrest⟩
  rw [takeWhile_run hcs hrest, lowercase_of_not_isUpper fun d hd => (hread d hd).2, ← hw, String.ofList_toList]

/-! ### Tokens -/

/-- A text is read up to the next tag. -/
theorem tokens_text {content : String} {rest : List Char} (hc : content ≠ "") (hrest : Stops (· ≠ '<') rest) :
    tokens (escapeText content.toList ++ rest) = .text content :: tokens rest := by
  have hdecode : decode (escapeText content.toList) = content.toList := by
    simpa [decode] using decode_escapeText content.toList []
  have hne : ∀ c ∈ escapeText content.toList, c ≠ '<' := fun c hc => (ne_of_mem_escapeText hc).1
  cases he : escapeText content.toList with
  | nil =>
    rw [he] at hdecode
    exact absurd (String.toList_eq_nil_iff.mp hdecode.symm) hc
  | cons c cs =>
    rw [he] at hdecode hne
    have hcs : ∀ d ∈ cs, decide (d ≠ '<') = true := fun d hd => decide_eq_true (hne d (List.mem_cons_of_mem _ hd))
    have hplain : Plain c (cs ++ rest) := fun h => absurd h (hne c List.mem_cons_self)
    apply tokens_of_next
    rw [List.append_eq, next_text hplain, takeWhile_run hcs hrest, dropWhile_run hcs hrest, hdecode,
      String.ofList_toList]

/-- A closing tag is read as its name in lower case, however it is written. -/
theorem tokens_closing_name {name : String} {c : Char} {cs : List Char} (hl : name.toList = c :: cs)
    (hc : c.isAlpha = true) (hcs : ∀ d ∈ cs, isNameChar d = true) (rest : List Char) :
    tokens (writeClosing name ++ rest) = .closing (lowercase name.toList) :: tokens rest := by
  have hwrite : writeClosing name ++ rest = '<' :: '/' :: c :: (cs ++ '>' :: rest) := by simp [writeClosing, hl]
  have hstop : Stops isNameChar ('>' :: rest) := by simp [isNameChar]
  rw [hwrite, hl]
  apply tokens_of_next
  rw [next_closing hc, takeWhile_run hcs hstop, dropWhile_run hcs hstop]
  simp [after]

theorem tokens_closing {tag : String} (ht : isTag tag = true) (rest : List Char) :
    tokens (writeClosing tag ++ rest) = .closing tag :: tokens rest := by
  obtain ⟨c, cs, hl, hc, hread⟩ := exists_of_isTag ht
  rw [tokens_closing_name hl hc (fun d hd => (hread d (List.mem_cons_of_mem _ hd)).1), hl,
    lowercase_of_not_isUpper fun d hd => (hread d hd).2, ← hl, String.ofList_toList]

/-- The name and the value that a tag begins with are its first attribute. -/
theorem attributes_cons {cs cs' rest value : List Char} {c : Char} (h : skipBlanks cs = c :: cs')
    (hc : isAttributeChar c = true) (hv : attributeValue (cs'.dropWhile isAttributeChar) = (value, rest)) :
    attributes cs =
      ((lowercase (c :: cs'.takeWhile isAttributeChar), String.ofList value) :: (attributes rest).1,
        (attributes rest).2) := by
  rw [attributes]
  split
  · next heq => simp [heq] at h
  · next heq =>
    rw [heq] at h
    cases h
    exact absurd hc (by decide)
  · next heq =>
    rw [heq] at h
    cases h
    exact absurd hc (by decide)
  · next heq =>
    rw [heq] at h
    cases h
    rw [if_pos hc, hv]

theorem attributeValue_written (value rest : List Char) :
    attributeValue ('=' :: '\x22' :: (escapeAttribute value ++ '\x22' :: rest)) = (value, rest) := by
  have hrun : ∀ c ∈ escapeAttribute value, decide (c ≠ '\x22') = true := fun c hc =>
    decide_eq_true (ne_quote_of_mem_escapeAttribute hc)
  have hstop : Stops (· ≠ '\x22') ('\x22' :: rest) := by simp
  have hdecode : decode (escapeAttribute value) = value := by simpa [decode] using decode_escapeAttribute value []
  have hequals : ∀ cs, skipBlanks ('=' :: cs) = '=' :: cs := fun _ => Stops.dropWhile (stops_cons.mpr (by decide))
  have hquote : ∀ cs, skipBlanks ('\x22' :: cs) = '\x22' :: cs := fun _ => Stops.dropWhile (stops_cons.mpr (by decide))
  simp only [attributeValue, hequals, hquote, after, takeWhile_run hrun hstop, dropWhile_run hrun hstop, hdecode,
    List.drop_one, List.tail_cons]

theorem attributes_written {written : List (String × String)} (h : ∀ a ∈ written, isName a.1 = true)
    (rest : List Char) : attributes (written.flatMap writeAttribute ++ '>' :: rest) = (written, false, rest) := by
  induction written with
  | nil =>
    have hskip : skipBlanks ('>' :: rest) = '>' :: rest := Stops.dropWhile (stops_cons.mpr (by decide))
    rw [List.flatMap_nil, List.nil_append, attributes]
    split <;> simp_all
  | cons a written ih =>
    obtain ⟨c, cs, hl, hread⟩ := exists_of_isName (h a List.mem_cons_self)
    generalize hleft : written.flatMap writeAttribute ++ '>' :: rest = left at ih
    have hwrite : (a :: written).flatMap writeAttribute ++ '>' :: rest =
        ' ' :: c :: (cs ++ '=' :: '\x22' :: (escapeAttribute a.2.toList ++ '\x22' :: left)) := by
      simp [← hleft, writeAttribute, hl]
    have hstop : Stops isAttributeChar ('=' :: '\x22' :: (escapeAttribute a.2.toList ++ '\x22' :: left)) :=
      stops_cons.mpr (by decide)
    obtain ⟨hname, hrest⟩ := read_word hl hread hstop
    have hc : isAttributeChar c = true := (hread c List.mem_cons_self).1
    have hblank : isBlank c = false := by simp_all [isAttributeChar]
    have hskip : skipBlanks (' ' :: c :: (cs ++ '=' :: '\x22' :: (escapeAttribute a.2.toList ++ '\x22' :: left))) =
        c :: (cs ++ '=' :: '\x22' :: (escapeAttribute a.2.toList ++ '\x22' :: left)) := by
      rw [skipBlanks, List.dropWhile_cons_of_pos (by decide), List.dropWhile_cons_of_neg (by simp [hblank])]
    have hvalue := (congrArg attributeValue hrest).trans (attributeValue_written a.2.toList left)
    rw [hwrite, attributes_cons hskip hc hvalue, hname, String.ofList_toList,
      ih fun b hb => h b (List.mem_cons_of_mem _ hb)]

theorem tokens_opening {tag : String} {written : List (String × String)} (ht : isTag tag = true)
    (ha : ∀ a ∈ written, isName a.1 = true) (rest : List Char) :
    tokens (writeOpening tag written ++ rest) = .opening tag written false :: tokens rest := by
  have hstop : Stops isNameChar (written.flatMap writeAttribute ++ '>' :: rest) := by
    cases written with
    | nil => simp [isNameChar]
    | cons a written => simp [writeAttribute, isNameChar]
  obtain ⟨c, cs, hl, hc, hread⟩ := exists_of_isTag ht
  obtain ⟨hname, hleft⟩ := read_word hl hread hstop
  have hwrite : writeOpening tag written ++ rest =
      '<' :: c :: (cs ++ (written.flatMap writeAttribute ++ '>' :: rest)) := by
    simp [writeOpening, hl]
  rw [hwrite]
  apply tokens_of_next
  rw [next_opening hc, hname, hleft, attributes_written ha]

/-! ### From the text to tokens -/

mutual

/-- The tokens that markup is written as. -/
def tokensOf : Markup → List Token
  | .text content => [.text content]
  | .element tag attributes children =>
    .opening tag attributes false ::
      if isVoid tag && children.isEmpty then [] else tokensOfAll children ++ [.closing tag]

def tokensOfAll : List Markup → List Token
  | [] => []
  | m :: ms => tokensOf m ++ tokensOfAll ms

end

/-- Where no text follows, written markup starts with a tag. -/
theorem Apart.stops {ms : List Markup} {content : String} {rest : List Char} (h : Apart ms [.text content])
    (hrest : Stops (· ≠ '<') rest) : Stops (· ≠ '<') (writeAll ms ++ rest) := by
  cases ms with
  | nil => simpa [writeAll] using hrest
  | cons m ms =>
    cases m with
    | text => simp [Apart, isText] at h
    | element => simp [writeAll, write, writeOpening]

/-- Written markup falls into the tokens of the forest, and then those of what follows. -/
theorem tokens_writeAll {ms : List Markup} (h : areCanonical ms = true) {rest : List Char}
    (hrest : Stops (· ≠ '<') rest) : tokens (writeAll ms ++ rest) = tokensOfAll ms ++ tokens rest := by
  induction ms using Markup.forestInduction generalizing rest with
  | nil => simp [writeAll, tokensOfAll]
  | text content ms ih =>
    obtain ⟨hc, hapart, hms⟩ := areCanonical_text.mp h
    have htokens := tokens_text hc (hapart.stops hrest)
    simp only [writeAll, write, tokensOfAll, tokensOf, List.append_assoc, htokens, ih hms hrest,
      List.cons_append, List.nil_append]
  | element tag attributes children ms ihc ihs =>
    obtain ⟨⟨ht, hvoid, ha, -, hchildren⟩, hms⟩ := areCanonical_element.mp h
    simp only [writeAll, write, tokensOfAll, tokensOf, List.append_assoc]
    rw [tokens_opening ht ha]
    split
    · simp [ihs hms hrest]
    · simp only [List.append_assoc, List.cons_append]
      rw [ihc hchildren (by simp [writeClosing]), tokens_closing ht, ihs hms hrest]
      simp

/-! ### From tokens to the forest -/

theorem addSibling_of_apart {m : Markup} {siblings : List Markup} (h : Apart [m] siblings) :
    addSibling m siblings = m :: siblings := by
  cases m with
  | element => rfl
  | text content =>
    cases siblings with
    | nil => rfl
    | cons n siblings =>
      cases n with
      | element => rfl
      | text => simp [Apart, isText] at h

/-- What is read for an element that is open goes into it, until it is closed. -/
theorem read_closing (tag : String) (attributes : List (String × String)) (siblings before : List Markup)
    (path : List Opened) :
    Cursor.read ⟨siblings, ⟨tag, attributes, before⟩ :: path⟩ (.closing tag) =
      ⟨.element tag attributes siblings.reverse :: before, path⟩ := by
  simp [Cursor.read, Cursor.isOpen, Cursor.closeThrough, addSibling]

/-- The tokens of a forest put it after the siblings that are there. -/
theorem foldl_read_tokensOfAll {ms : List Markup} (h : areCanonical ms = true) (siblings : List Markup)
    (path : List Opened) (hs : Apart ms siblings) :
    (tokensOfAll ms).foldl Cursor.read ⟨siblings, path⟩ = ⟨ms.reverse ++ siblings, path⟩ := by
  induction ms using Markup.forestInduction generalizing siblings path with
  | nil => rfl
  | text content ms ih =>
    obtain ⟨-, hapart, hms⟩ := areCanonical_text.mp h
    have hread : Cursor.read ⟨siblings, path⟩ (.text content) = ⟨.text content :: siblings, path⟩ :=
      congrArg (Cursor.mk · path) (addSibling_of_apart (by simpa [Apart] using hs))
    rw [tokensOfAll, tokensOf, List.foldl_append, List.foldl_cons, List.foldl_nil, hread,
      ih hms _ _ (by simpa [Apart] using hapart)]
    simp
  | element tag attributes children ms ihc ihs =>
    obtain ⟨⟨-, hvoid, -, -, hchildren⟩, hms⟩ := areCanonical_element.mp h
    have hone : (tokensOf (.element tag attributes children)).foldl Cursor.read ⟨siblings, path⟩ =
        ⟨.element tag attributes children :: siblings, path⟩ := by
      cases hv : isVoid tag with
      | true => simp [tokensOf, hv, hvoid hv, Cursor.read, Cursor.add, addSibling]
      | false =>
        have hopen : Cursor.read ⟨siblings, path⟩ (.opening tag attributes false) =
            ⟨[], ⟨tag, attributes, siblings⟩ :: path⟩ := by simp [Cursor.read, hv]
        simp only [tokensOf, hv, Bool.false_and, Bool.false_eq_true, if_false, List.foldl_cons, List.foldl_append,
          List.foldl_nil, hopen]
        rw [ihc hchildren _ _ (by simp [Apart]), List.append_nil, read_closing, List.reverse_reverse]
    rw [tokensOfAll, List.foldl_append, hone, ihs hms _ _ (by simp [Apart, isText])]
    simp

end Markup

/-! ### The same forest in a tree -/

namespace Tree.Attributes

theorem set_of_greater {name : String} {attributes : Attributes} (h : ∀ a ∈ attributes, a.1 < name) (value : String) :
    set name value attributes = attributes ++ [(name, value)] := by
  induction attributes with
  | nil => rfl
  | cons a attributes ih =>
    have ha := h a List.mem_cons_self
    have hne : name ≠ a.1 := fun he => String.lt_irrefl _ (he ▸ ha)
    rw [set, if_neg (String.lt_asymm ha), if_neg hne, ih fun b hb => h b (List.mem_cons_of_mem _ hb),
      List.cons_append]

/-- Attributes in the order of their names are kept as they are. -/
theorem ofList_of_sorted {attributes : Attributes} (h : attributes.Pairwise fun a b => a.1 < b.1) :
    ofList attributes = attributes := by
  have hkept : ∀ kept rest : Attributes, (kept ++ rest).Pairwise (fun a b => a.1 < b.1) →
      rest.foldl (fun attributes p => set p.1 p.2 attributes) kept = kept ++ rest := by
    intro kept rest
    induction rest generalizing kept with
    | nil => simp
    | cons a rest ih =>
      intro hsorted
      have hless : ∀ b ∈ kept, b.1 < a.1 := fun b hb =>
        (List.pairwise_append.mp hsorted).2.2 b hb a List.mem_cons_self
      rw [List.foldl_cons, set_of_greater hless, ih _ (by simpa using hsorted)]
      simp
  exact hkept [] attributes h

end Tree.Attributes

namespace Markup

theorem normalAll_of_canonical {ms : List Markup} (h : areCanonical ms = true) : normalAll ms = ms := by
  induction ms using Markup.forestInduction with
  | nil => rfl
  | text content ms ih => rw [normalAll, normal, ih (areCanonical_text.mp h).2.2]
  | element tag attributes children ms ihc ihs =>
    obtain ⟨⟨-, -, -, hsorted, hchildren⟩, hms⟩ := areCanonical_element.mp h
    rw [normalAll, normal, Tree.Attributes.ofList_of_sorted hsorted, ihc hchildren, ihs hms]

/-- The written form of a canonical forest is read as that forest. -/
theorem parse_of_canonical {ms : List Markup} (h : areCanonical ms = true) :
    parse (String.ofList (writeAll ms)) = ms := by
  have htokens : tokens (writeAll ms) = tokensOfAll ms := by
    simpa [tokens] using tokens_writeAll h stops_nil
  rw [parse, String.toList_ofList, htokens, ofTokens, Cursor.start,
    foldl_read_tokensOfAll h [] [] (by simp [Apart])]
  simp [Cursor.finish, Cursor.closeAll]

/-- A canonical forest can stand in a tree, and its written form is read as that forest and no other. No text and no
value of an attribute can therefore open, close or change an element. -/
theorem parse_writeAll {ms : List Markup} (h : areCanonical ms = true) :
    (∀ pool, Tree.Node.toMarkupAll (Tree.Node.ofMarkupAll pool ms).1 = ms) ∧
      parse (String.ofList (writeAll ms)) = ms :=
  ⟨fun pool => (Tree.Node.toMarkupAll_ofMarkupAll pool ms).trans (normalAll_of_canonical h), parse_of_canonical h⟩

/-- Markup whose texts and values are full of markup. -/
def quoting : List Markup :=
  [.element "p" [("title", "\x22><br x='&quot;'>"), ("x-id", "")]
    [.text "</p><!-- &lt;", .element "br" [] [], .text "&amp;amp; ]]>"]]

theorem parse_writeAll_quoting :
    areCanonical quoting = true ∧ parse (String.ofList (writeAll quoting)) = quoting := by
  have h : areCanonical quoting = true := by decide
  exact ⟨h, (parse_writeAll h).2⟩

end Markup
end Trellis
