import PegMachine.Text.Unprintable
/-!
  Text in quotes, as log lines and error messages show names and arguments.

  The quote, the backslash and what cannot be seen by itself are escaped; every other character stays as
  it is, the apostrophe too.

  Correspondence (program ↔ here):
    the debug form of a text      ↔ `quotedName`
    `escape_debug` of a character ↔ `quotedChar`
-/
namespace PegMachine.Text

/-- A number in lower-case hexadecimal, without leading zeros. -/
def hexNumber (n : Nat) : List Char := Nat.toDigits 16 n

/-- A character between quotes. -/
def quotedChar (c : Char) : List Char :=
  if c = '\x00' then ['\\', '0']
  else if c = '\t' then ['\\', 't']
  else if c = '\r' then ['\\', 'r']
  else if c = '\n' then ['\\', 'n']
  else if c = '"' then ['\\', '"']
  else if c = '\\' then ['\\', '\\']
  else if isUnprintable c then '\\' :: 'u' :: '\x7b' :: hexNumber c.toNat ++ ['\x7d']
  else [c]

/-- A name between quotes. -/
def quotedName (name : String) : String :=
  String.ofList ('"' :: name.toList.flatMap quotedChar ++ ['"'])

end PegMachine.Text
