import Trellis.Proofs.Listening.Ledger
import Trellis.Proofs.Markup.Regular

/-!
# The text of a raw value

A raw value is read as markup. If there is more to it than one text, its nodes are shown, and their text is what the
texts in it decode to. Otherwise the value itself is shown, as it is written. The two ways agree on a value exactly if
nothing in it is markup: no comment, no tag that closes nothing, and no entity.
-/
namespace Trellis

namespace Markup

/-! ### The text of what is read -/

@[simp] theorem textContentAll_nil : textContentAll [] = [] := by simp [textContentAll]

@[simp] theorem textContentAll_cons (m : Markup) (ms : List Markup) :
    textContentAll (m :: ms) = textContent m ++ textContentAll ms := by simp [textContentAll]

@[simp] theorem textContentAll_append (ms ns : List Markup) :
    textContentAll (ms ++ ns) = textContentAll ms ++ textContentAll ns := by
  induction ms with
  | nil => simp
  | cons m ms ih => simp [ih]

namespace Token

def isText : Token → Bool
  | .text _ => true
  | _ => false

/-- What a token adds to the text. -/
def content : Token → List Char
  | .text content => content.toList
  | _ => []

end Token

theorem textContentAll_addSibling (m : Markup) (siblings : List Markup) :
    textContentAll (addSibling m siblings).reverse = textContentAll siblings.reverse ++ textContent m := by
  unfold addSibling
  split <;> simp [textContent]

namespace Cursor

/-- The text before the open elements of a path. -/
def textBefore : List Opened → List Char
  | [] => []
  | o :: path => textBefore path ++ textContentAll o.before.reverse

/-- The text read so far. -/
def text (c : Cursor) : List Char := textBefore c.path ++ textContentAll c.siblings.reverse

theorem text_closeThrough (tag : String) (path : List Opened) (siblings : List Markup) :
    (closeThrough tag path siblings).text = textBefore path ++ textContentAll siblings.reverse := by
  induction path generalizing siblings with
  | nil => rfl
  | cons o path ih =>
    rw [closeThrough]
    split
    · simp [text, textBefore, textContentAll_addSibling, textContent]
    · rw [ih]
      simp [textBefore, textContentAll_addSibling, textContent]

theorem textContentAll_closeAll (path : List Opened) (siblings : List Markup) :
    textContentAll (closeAll path siblings).reverse = textBefore path ++ textContentAll siblings.reverse := by
  induction path generalizing siblings with
  | nil => rfl
  | cons o path ih => simp [closeAll, ih, textBefore, textContentAll_addSibling, textContent]

theorem text_read (c : Cursor) (t : Token) : (c.read t).text = c.text ++ t.content := by
  cases t with
  | text content => simp [read, add, text, Token.content, textContentAll_addSibling, textContent]
  | comment => simp [read, Token.content]
  | opening tag attributes selfClosing =>
    rw [read]
    split <;> simp [add, text, textBefore, Token.content, textContentAll_addSibling, textContent]
  | closing tag =>
    rw [read]
    split
    · exact (text_closeThrough tag c.path c.siblings).trans (List.append_nil _).symm
    · exact (List.append_nil _).symm

theorem text_foldl_read (c : Cursor) (ts : List Token) :
    (ts.foldl read c).text = c.text ++ ts.flatMap Token.content := by
  induction ts generalizing c with
  | nil => simp
  | cons t ts ih => simp [ih, text_read]

end Cursor

/-- The text of a forest is that of the tokens it was read from, however they nest. -/
theorem textContentAll_parse (source : String) :
    textContentAll (parse source) = (tokens source.toList).flatMap Token.content := by
  have hread := Cursor.text_foldl_read .start (tokens source.toList)
  rw [parse, ofTokens, Cursor.finish, Cursor.textContentAll_closeAll]
  simpa [Cursor.text, Cursor.start, Cursor.textBefore] using hread

/-! ### Texts that are read as they are written -/

/-- Whether nothing in a text is markup: there are no tags and comments in it, and nothing to decode. -/
def isLiteral (source : String) : Bool :=
  (tokens source.toList).all Token.isText && decide (decode source.toList = source.toList)

theorem length_decode_le (cs : List Char) : (decode cs).length ≤ cs.length := by
  fun_induction decode cs <;> simp_all <;> omega

/-- A word without `<` that begins a text ends before the first `<`. -/
theorem exists_of_append_eq {word cs rest after : List Char} (hword : '<' ∉ word) (hrest : Stops (· ≠ '<') rest)
    (h : cs ++ rest = word ++ after) : ∃ left, cs = word ++ left := by
  rcases List.append_eq_append_iff.mp h with ⟨more, hw, hr⟩ | ⟨left, hc, -⟩
  · cases more with
    | nil => exact ⟨[], by simpa using hw.symm⟩
    | cons c more =>
      have hc : c = '<' := by simpa [hr] using hrest
      exact absurd (by simp [hw, hc]) hword
  · exact ⟨left, hc⟩

/-- No entity goes on beyond a `<`. -/
theorem decode_append {cs rest : List Char} (hrest : Stops (· ≠ '<') rest) :
    decode (cs ++ rest) = decode cs ++ decode rest := by
  fun_induction decode cs with
  | case8 => rfl
  | case7 c cs hamp hlt hgt hquot hnum hapos ih =>
    have hname : ∀ name, '<' ∉ name → (∀ left, c = '&' → cs = name ++ left → False) →
        ∀ more, c = '&' → cs ++ rest = name ++ more → False := by
      intro name hlt hno more hc heq
      obtain ⟨left, hleft⟩ := exists_of_append_eq hlt hrest heq
      exact hno left hc hleft
    rw [List.cons_append, decode, ih]
    · rfl
    · exact hname ['a', 'm', 'p', ';'] (by decide) hamp
    · exact hname ['l', 't', ';'] (by decide) hlt
    · exact hname ['g', 't', ';'] (by decide) hgt
    · exact hname ['q', 'u', 'o', 't', ';'] (by decide) hquot
    · exact hname ['#', '3', '9', ';'] (by decide) hnum
    · exact hname ['a', 'p', 'o', 's', ';'] (by decide) hapos
  | _ cs ih => simp [decode, ih]

/-- Parts that do not get longer make up the whole only if each is kept. -/
theorem append_eq_append_iff_of_le {as bs cs ds : List Char} (h : as.length ≤ cs.length) (h' : bs.length ≤ ds.length) :
    as ++ bs = cs ++ ds ↔ as = cs ∧ bs = ds := by
  constructor
  · intro heq
    have hlength := congrArg List.length heq
    rw [List.length_append, List.length_append] at hlength
    exact List.append_inj heq (by omega)
  · rintro ⟨rfl, rfl⟩
    rfl

/-- A text is read up to the next `<`; anything else adds no text. -/
theorem next_run_or_empty (c : Char) (cs : List Char) :
    (∃ run rest, c :: cs = run ++ rest ∧ Stops (· ≠ '<') rest ∧
        next c cs = (.text (String.ofList (decode run)), rest)) ∨
      ((next c cs).1.isText = false ∧ (next c cs).1.content = []) := by
  obtain ⟨rest, rfl, rfl⟩ | ⟨d, rest, rfl, rfl, hd⟩ | ⟨d, rest, rfl, rfl, hd⟩ | hplain := next_cases c cs
  · exact .inr ⟨rfl, rfl⟩
  · rw [next_closing hd]
    exact .inr ⟨rfl, rfl⟩
  · rw [next_opening hd]
    exact .inr ⟨rfl, rfl⟩
  · refine .inl ⟨c :: cs.takeWhile (· ≠ '<'), cs.dropWhile (· ≠ '<'), ?_, stops_dropWhile cs, next_text hplain⟩
    rw [List.cons_append, List.takeWhile_append_dropWhile]

theorem length_content_tokens_le (cs : List Char) : ((tokens cs).flatMap Token.content).length ≤ cs.length := by
  fun_induction tokens cs with
  | case1 => simp
  | case2 c cs token ih =>
    rcases next_run_or_empty c cs with ⟨run, rest, hcs, -, hnext⟩ | ⟨-, hcontent⟩
    · have hrun := length_decode_le run
      simp only [token, hnext] at ih
      simp only [token, hnext, hcs, List.flatMap_cons, Token.content, String.toList_ofList, List.length_append]
      omega
    · have hnext := length_next_le c cs
      simp only [token] at ih
      simp only [token, List.flatMap_cons, hcontent, List.nil_append, List.length_cons]
      omega

/-- The tokens of a text add up to that text exactly if nothing in it is markup. -/
theorem content_tokens_eq_iff (cs : List Char) :
    (tokens cs).flatMap Token.content = cs ↔ (∀ t ∈ tokens cs, t.isText = true) ∧ decode cs = cs := by
  fun_induction tokens cs with
  | case1 => simp [decode]
  | case2 c cs token ih =>
    rcases next_run_or_empty c cs with ⟨run, rest, hcs, hrest, hnext⟩ | ⟨htext, hcontent⟩
    · simp only [token, hnext] at ih
      have htext : (Token.text (String.ofList (decode run))).isText = true := rfl
      simp only [token, hnext, hcs, List.flatMap_cons, Token.content, String.toList_ofList, List.forall_mem_cons,
        htext, true_and]
      rw [append_eq_append_iff_of_le (length_decode_le run) (length_content_tokens_le rest), ih, decode_append hrest,
        append_eq_append_iff_of_le (length_decode_le run) (length_decode_le rest), and_left_comm]
    · have hnext := length_next_le c cs
      have hle := length_content_tokens_le token.2
      constructor
      · intro heq
        have hlength := congrArg List.length heq
        simp only [token, List.flatMap_cons, hcontent, List.nil_append, List.length_cons] at hlength hle
        omega
      · rintro ⟨hall, -⟩
        have := hall token.1 List.mem_cons_self
        simp [token, htext] at this

theorem textContentAll_parse_eq_iff (source : String) :
    textContentAll (parse source) = source.toList ↔ isLiteral source = true := by
  rw [textContentAll_parse, content_tokens_eq_iff, isLiteral]
  simp

/-! ### The text of what is shown -/

theorem textContentAll_normalAll (ms : List Markup) : textContentAll (normalAll ms) = textContentAll ms := by
  induction ms using Markup.forestInduction with
  | nil => rfl
  | text content ms ih => simp [normalAll, normal, ih]
  | element tag attributes children ms ihc ihs => simp [normalAll, normal, textContent, ihc, ihs]

theorem textContentAll_map_setAttribute (name value : String) (ms : List Markup) :
    textContentAll (ms.map (.setAttribute name value)) = textContentAll ms := by
  induction ms with
  | nil => rfl
  | cons m ms ih => cases m <;> simp [setAttribute, textContent, ih]

theorem isPlain_normalAll (ms : List Markup) : Evaluation.isPlain (normalAll ms) = Evaluation.isPlain ms := by
  match ms with
  | [] => rfl
  | [m] => cases m <;> rfl
  | _ :: _ :: _ => rfl

end Markup

open Trellis.Tree (Handle Node)

namespace Evaluation

/-- The text of a raw value is decoded only where there is markup beside it. -/
theorem textContentAll_shown_raw (name text : String) :
    Markup.textContentAll (shown true name text) =
      if isPlain (Markup.parse text) then text.toList else Markup.textContentAll (Markup.parse text) := by
  unfold shown
  simp only [Markup.isPlain_normalAll, Bool.true_and]
  cases isPlain (Markup.parse text) with
  | true => simp [element, Markup.textContent]
  | false => simp [Markup.textContentAll_map_setAttribute, Markup.textContentAll_normalAll]

end Evaluation

namespace Tree

/-- The text that some nodes show together. -/
def shownText (t : Tree) (hs : List Handle) : String := String.join (hs.map t.textContent)

theorem Sound.find?_child {t : Tree} (ht : t.Sound) {h : Handle} {n c : Node} (hn : t.find? h = some n)
    (hc : c ∈ n.children) : t.find? c.handle = some c := by
  obtain ⟨pre, post, heq⟩ := List.append_of_mem hc
  have hmem : c.handle ∈ Node.handlesAll n.children := by simp [heq, Node.handlesAll_append, Node.handles_eq]
  have hd : (Node.handlesAll n.children).Nodup := by
    have hsub := (Node.handles_sublist_of_findAmong? hn).nodup ht.nodup
    rw [Node.handles_eq] at hsub
    exact hsub.of_cons
  rw [find?, Node.findAmong?_below ht.nodup hn hmem, heq]
  exact Node.findAmong?_middle (heq ▸ hd)

theorem Sound.shownText_eq {t : Tree} (ht : t.Sound) {h : Handle} {n : Node} (hn : t.find? h = some n)
    {ns : List Node} (hns : ∀ c ∈ ns, c ∈ n.children) :
    t.shownText (ns.map Node.handle) = String.ofList (Markup.textContentAll (Node.toMarkupAll ns)) := by
  unfold shownText
  induction ns with
  | nil => rfl
  | cons c ns ih =>
    obtain ⟨hc, hns⟩ := List.forall_mem_cons.mp hns
    rw [List.map_cons, List.map_cons, String.join_cons, ih hns, textContent, ht.find?_child hn hc]
    simp [Node.toMarkupAll]

end Tree

namespace Action

/-- A raw value ends, and adds nodes to the target. They show the text that its markup has, unless it is nothing or a
single text; then they show the value as it is written. What they show is therefore the text of its markup exactly if
there is more to it than one text, or nothing in it is markup. -/
theorem raw_value_text {e : Engine} {h : Handle} (hw : e.Writable h) (site : Nat) (content : Value) :
    ∃ t old made, value site true content e = .done () { e with tree := t } [] ∧
      e.tree.children h = .ok old ∧ t.children h = .ok (old ++ made) ∧
      t.shownText made =
        (if Evaluation.isPlain (Markup.parse content.toText) then content.toText
          else String.ofList (Markup.textContentAll (Markup.parse content.toText))) ∧
      (t.shownText made = String.ofList (Markup.textContentAll (Markup.parse content.toText)) ↔
        Evaluation.isPlain (Markup.parse content.toText) = false ∨ Markup.isLiteral content.toText = true) := by
  obtain ⟨n, hn, hnt⟩ := hw.element
  obtain ⟨t, ns, hrun, hg, hmarkup, -⟩ := value_adds hw site true content
  have hfind := hg.find? hn
  have hchildren := Node.children_extend hnt ns []
  have hshown : t.shownText (ns.map Node.handle) =
      if Evaluation.isPlain (Markup.parse content.toText) then content.toText
      else String.ofList (Markup.textContentAll (Markup.parse content.toText)) := by
    have hns : ∀ c ∈ ns, c ∈ (n.extend ns []).children := by
      intro c hc
      rw [hchildren]
      exact List.mem_append_right _ hc
    rw [hg.sound.shownText_eq hfind hns, hmarkup, Evaluation.textContentAll_shown_raw, apply_ite String.ofList,
      String.ofList_toList]
  refine ⟨t, n.children.map Node.handle, ns.map Node.handle, hrun, Tree.children_eq_ok_iff.mpr ⟨n, hn, rfl⟩,
    Tree.children_eq_ok_iff.mpr ⟨_, hfind, by simp [hchildren]⟩, hshown, ?_⟩
  · rw [hshown, ← Markup.textContentAll_parse_eq_iff]
    cases Evaluation.isPlain (Markup.parse content.toText) with
    | true => simp [eq_comm, ← String.toList_inj]
    | false => simp

/-- An entity beside a tag is decoded. -/
theorem raw_value_text_new :
    (Engine.new {}).Writable .root ∧ ∃ t made,
      value 0 true (.text "a &amp; b<br>") (Engine.new {}) = .done () { Engine.new {} with tree := t } [] ∧
      t.children .root = .ok made ∧ t.shownText made = "a & b" := by
  have hwritten : "a &amp; b<br>" = String.ofList (Markup.writeAll [.text "a & b", .element "br" [] []]) := by
    decide +kernel
  have hparse : Markup.parse "a &amp; b<br>" = [.text "a & b", .element "br" [] []] := by
    rw [hwritten]
    exact Markup.parse_of_canonical (by decide)
  have hw : (Engine.new {}).Writable .root := ⟨Tree.sound_new, rfl, _, rfl, rfl⟩
  obtain ⟨t, old, made, hrun, hold, hmade, hshown, -⟩ := raw_value_text hw 0 (.text "a &amp; b<br>")
  obtain rfl : [] = old := Except.ok.inj hold
  rw [Value.toText, hparse] at hshown
  exact ⟨hw, t, made, hrun, hmade, hshown⟩

end Action

namespace Engine

/-- A program that shows a raw value with an entity in it and nothing else. -/
def notice : Program where
  strings := [(1, "a &amp; b")]
  sections := [⟨mainLabel, true, [.single (.number 1) (.value true (.string 1))]⟩]

/-- The entity is shown as it is written, though the text of the value's markup is another. -/
theorem entity_shown_undecoded :
    ((Request.boot .root).run 3 ((new {}).loaded notice)).engine?.map (fun e =>
        (e.report, e.tree.textContent e.mount)) = some (none, "a &amp; b") ∧
      Markup.textContentAll (Markup.parse "a &amp; b") = "a & b".toList := by
  refine ⟨by decide +kernel, by decide +kernel⟩

end Engine
end Trellis
