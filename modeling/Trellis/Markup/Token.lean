import Trellis.Markup.Entity
import Trellis.Text.Blank

/-!
# Markup tokens

Reading never fails. A `<` that starts neither a comment nor a tag is text, and a comment or tag that
the input cuts short ends with the input.
-/
namespace Trellis.Markup

inductive Token where
  | text (content : String)
  | opening (tag : String) (attributes : List (String × String)) (selfClosing : Bool)
  | closing (tag : String)
  | comment
deriving DecidableEq, Repr

def isNameChar (c : Char) : Bool := c.isAlphanum || c = '-'

def isAttributeChar (c : Char) : Bool := !isBlank c && c ≠ '=' && c ≠ '>' && c ≠ '/'

/-- ASCII letters only. -/
def lowercase (cs : List Char) : String := String.ofList (cs.map Char.toLower)

def skipBlanks (cs : List Char) : List Char := cs.dropWhile isBlank

/-- What follows the first character that is `stop`. -/
def after (stop : Char) (cs : List Char) : List Char := (cs.dropWhile (· ≠ stop)).drop 1

/-- What follows the end of a comment. -/
def afterComment : List Char → List Char
  | '-' :: '-' :: '>' :: cs => cs
  | _ :: cs => afterComment cs
  | [] => []

/-- The value after an attribute's name: none without `=`, else up to the matching quote, or up to a blank
or `>` when there is no quote. -/
def attributeValue (cs : List Char) : List Char × List Char :=
  match skipBlanks cs with
  | '=' :: rest =>
    match skipBlanks rest with
    | '\x22' :: body => (decode (body.takeWhile (· ≠ '\x22')), after '\x22' body)
    | '\x27' :: body => (decode (body.takeWhile (· ≠ '\x27')), after '\x27' body)
    | body =>
      let bare (c : Char) : Bool := !isBlank c && c ≠ '>'
      (decode (body.takeWhile bare), body.dropWhile bare)
  | rest => ([], rest)

theorem length_skipBlanks_le (cs : List Char) : (skipBlanks cs).length ≤ cs.length :=
  (List.dropWhile_suffix isBlank).length_le

theorem length_after_le (stop : Char) (cs : List Char) : (after stop cs).length ≤ cs.length := by
  have := (List.dropWhile_suffix (· ≠ stop) (l := cs)).length_le
  simp only [after, List.length_drop]
  omega

theorem length_afterComment_le (cs : List Char) : (afterComment cs).length ≤ cs.length := by
  fun_induction afterComment cs <;> simp_all <;> omega

theorem length_attributeValue_le (cs : List Char) : (attributeValue cs).2.length ≤ cs.length := by
  have h := length_skipBlanks_le cs
  unfold attributeValue
  split
  · next rest heq =>
    rw [heq] at h
    have h' := length_skipBlanks_le rest
    split
    · next body heq' =>
      rw [heq'] at h'
      have := length_after_le '\x22' body
      simp_all; omega
    · next body heq' =>
      rw [heq'] at h'
      have := length_after_le '\x27' body
      simp_all; omega
    · have := (List.dropWhile_suffix (fun c => !isBlank c && decide (c ≠ '>')) (l := skipBlanks rest)).length_le
      simp_all; omega
  · simp_all

/-- The attributes of an opening tag, whether it closes itself, and what follows it. A stray `=` or `/` is
skipped. -/
def attributes (cs : List Char) : List (String × String) × Bool × List Char :=
  match _h : skipBlanks cs with
  | [] => ([], false, [])
  | '/' :: '>' :: rest => ([], true, rest)
  | '>' :: rest => ([], false, rest)
  | c :: rest =>
    if isAttributeChar c then
      let name := c :: rest.takeWhile isAttributeChar
      let value := attributeValue (rest.dropWhile isAttributeChar)
      let more := attributes value.2
      ((lowercase name, String.ofList value.1) :: more.1, more.2)
    else attributes rest
termination_by cs.length
decreasing_by
  all_goals
    have hle := length_skipBlanks_le cs
    have hvalue := length_attributeValue_le (rest.dropWhile isAttributeChar)
    have hname := (List.dropWhile_suffix isAttributeChar (l := rest)).length_le
    rw [_h, List.length_cons] at hle
    omega

/-- The first token of `c :: cs` and what follows it. -/
def next (c : Char) (cs : List Char) : Token × List Char :=
  let text := (Token.text (String.ofList (decode (c :: cs.takeWhile (· ≠ '<')))), cs.dropWhile (· ≠ '<'))
  if c = '<' then
    match cs with
    | '!' :: '-' :: '-' :: rest => (.comment, afterComment rest)
    | '/' :: d :: rest =>
      if d.isAlpha then
        (.closing (lowercase (d :: rest.takeWhile isNameChar)), after '>' (rest.dropWhile isNameChar))
      else text
    | d :: rest =>
      if d.isAlpha then
        let inside := attributes (rest.dropWhile isNameChar)
        (.opening (lowercase (d :: rest.takeWhile isNameChar)) inside.1 inside.2.1, inside.2.2)
      else text
    | [] => text
  else text

theorem length_attributes_le (cs : List Char) : (attributes cs).2.2.length ≤ cs.length := by
  fun_induction attributes cs with
  | case1 => simp
  | case2 cs rest h | case3 cs rest h =>
    have := length_skipBlanks_le cs
    simp_all; omega
  | case4 cs c rest _ _ h _ name value more ih =>
    have := length_skipBlanks_le cs
    have hvalue := length_attributeValue_le (rest.dropWhile isAttributeChar)
    have hname := (List.dropWhile_suffix isAttributeChar (l := rest)).length_le
    simp_all [value, more]; omega
  | case5 cs c rest _ _ h _ ih =>
    have := length_skipBlanks_le cs
    simp_all; omega

theorem length_next_le (c : Char) (cs : List Char) : (next c cs).2.length ≤ cs.length := by
  have htext := (List.dropWhile_suffix (· ≠ '<') (l := cs)).length_le
  unfold next
  simp only
  split
  · split
    · next rest => have := length_afterComment_le rest; simp; omega
    · next d rest =>
      have := length_after_le '>' (rest.dropWhile isNameChar)
      have := (List.dropWhile_suffix isNameChar (l := rest)).length_le
      split <;> simp_all <;> omega
    · next d rest _ _ =>
      have := length_attributes_le (rest.dropWhile isNameChar)
      have := (List.dropWhile_suffix isNameChar (l := rest)).length_le
      split <;> simp_all <;> omega
    · simp
  · exact htext

def tokens : List Char → List Token
  | [] => []
  | c :: cs =>
    let token := next c cs
    token.1 :: tokens token.2
termination_by cs => cs.length
decreasing_by
  have := length_next_le c cs
  simp
  omega

end Trellis.Markup
