import Trellis.Text.Printable

/-!
# Quoted text

Text between quotation marks, on one line and with every character to be seen: quotation marks, backslashes
and characters that are not printable are escaped.
-/
namespace Trellis

/-- A backslash, `u` and the code point in hexadecimal digits between braces. -/
def codePointEscape (c : Char) : List Char := '\x5c' :: 'u' :: '\x7b' :: Nat.toDigits 16 c.toNat ++ ['\x7d']

def quotedChar (c : Char) : List Char :=
  if c = '\x22' ∨ c = '\x5c' then ['\x5c', c]
  else if c = '\n' then ['\x5c', 'n']
  else if c = '\r' then ['\x5c', 'r']
  else if c = '\t' then ['\x5c', 't']
  else if c = '\x00' then ['\x5c', '0']
  else if isPrintable c then [c]
  else codePointEscape c

def quoted (s : String) : String := String.ofList ('\x22' :: s.toList.flatMap quotedChar ++ ['\x22'])

end Trellis
