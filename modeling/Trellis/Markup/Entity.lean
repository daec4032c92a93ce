/-!
# Character entities

Markup writes its own punctuation as entities. Decoding knows six of them and leaves every other
ampersand as it stands.
-/
namespace Trellis.Markup

def decode : List Char → List Char
  | '&' :: 'a' :: 'm' :: 'p' :: ';' :: cs => '&' :: decode cs
  | '&' :: 'l' :: 't' :: ';' :: cs => '<' :: decode cs
  | '&' :: 'g' :: 't' :: ';' :: cs => '>' :: decode cs
  | '&' :: 'q' :: 'u' :: 'o' :: 't' :: ';' :: cs => '\x22' :: decode cs
  | '&' :: '#' :: '3' :: '9' :: ';' :: cs => '\x27' :: decode cs
  | '&' :: 'a' :: 'p' :: 'o' :: 's' :: ';' :: cs => '\x27' :: decode cs
  | c :: cs => c :: decode cs
  | [] => []

/-- A character as it stands in text. -/
def escapeTextChar (c : Char) : List Char :=
  if c = '&' then ['&', 'a', 'm', 'p', ';']
  else if c = '<' then ['&', 'l', 't', ';']
  else if c = '>' then ['&', 'g', 't', ';']
  else [c]

/-- A character as it stands in a quoted attribute value. -/
def escapeAttributeChar (c : Char) : List Char :=
  if c = '\x22' then ['&', 'q', 'u', 'o', 't', ';'] else escapeTextChar c

def escapeText (cs : List Char) : List Char := cs.flatMap escapeTextChar

def escapeAttribute (cs : List Char) : List Char := cs.flatMap escapeAttributeChar

/-- `decode` on strings. -/
def decodeEntities (s : String) : String := String.ofList (decode s.toList)

end Trellis.Markup
