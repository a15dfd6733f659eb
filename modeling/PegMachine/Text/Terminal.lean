/-!
  Text for a terminal.

  A terminal obeys some control characters, so that text from a file could make it do what nobody asked
  for. Here these characters are spelled out; every other one stays as it is, line ends among them.
-/
namespace PegMachine.Text

/-- The control characters of ASCII that a terminal obeys: bell, backspace, form feed, escape, delete. -/
def terminalControls : List Char := ['\x07', '\x08', '\x0c', '\x1b', '\x7f']

/-- A digit from 0 to 15 in lower case, twice: a number below 256. -/
def lowerHexByte (n : Nat) : List Char := [Nat.digitChar (n / 16), Nat.digitChar (n % 16)]

/-- A character that a terminal would obey is spelled out; ASCII has the shorter form for it. -/
def harmlessChar (c : Char) : List Char :=
  if terminalControls.contains c then '\\' :: 'x' :: lowerHexByte c.toNat
  else if 0x80 ≤ c.toNat && c.toNat < 0xa0 then '\\' :: 'u' :: '\x7b' :: lowerHexByte c.toNat ++ ['\x7d']
  else [c]

/-- Text that a terminal shows and does not obey. -/
def harmless (text : String) : String := String.ofList (text.toList.flatMap harmlessChar)

end PegMachine.Text
