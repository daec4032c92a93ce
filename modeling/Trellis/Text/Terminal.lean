import Trellis.Text.Quoted

/-!
# Text for a terminal

A terminal acts on some control characters instead of showing them. In text that is safe to show they are
escaped; line ends, tabs and all other characters stay as they are.
-/
namespace Trellis

/-- Escape, bell, backspace, form feed and delete. -/
def terminalControls : List Char := ['\x1b', '\x07', '\x08', '\x0c', '\x7f']

def terminalChar (c : Char) : List Char :=
  if c ∈ terminalControls then
    ['\x5c', 'x', Nat.digitChar (c.toNat / 16), Nat.digitChar (c.toNat % 16)]
  else if 0x80 ≤ c.toNat ∧ c.toNat ≤ 0x9F then codePointEscape c
  else [c]

/-- A text in which the controls of a terminal are escaped. -/
def forTerminal (s : String) : String := String.ofList (s.toList.flatMap terminalChar)

end Trellis
