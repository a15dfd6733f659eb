import PegMachine.Bytes
/-!
  Byte strings as printable text.

  The bare form shows printable ASCII as it is and every other byte as a hexadecimal escape. The quoted
  form stands between double quotes and has short escapes besides, for the quote and the backslash
  among others, so that it can be read back.

  Correspondence (program ↔ here):
    the display form of `BstrFmt` ↔ `bare`
    the debug form of `BstrFmt`   ↔ `quoted`
-/
namespace PegMachine.Text

/-- A digit from 0 to 15 in upper case. -/
def hexDigit (n : Nat) : Char := (Nat.digitChar n).toUpper

/-- A byte as two hexadecimal digits in upper case. -/
def hexByte (b : UInt8) : List Char := [hexDigit (b.toNat / 16), hexDigit (b.toNat % 16)]

def isPrintable (b : UInt8) : Bool := 0x20 ≤ b && b ≤ 0x7e

/-! ## The bare form -/

/-- A byte in the bare form: itself if it is printable ASCII, else its hexadecimal escape. -/
def bareByte (b : UInt8) : List Char :=
  if isPrintable b then [Char.ofNat b.toNat] else '\\' :: 'x' :: hexByte b

def bareChars (bytes : Bytes) : List Char := bytes.flatMap bareByte

/-- The bare form of a byte string. Backslashes are not escaped, so it cannot always be read back. -/
def bare (bytes : Bytes) : String := String.ofList (bareChars bytes)

/-! ## The quoted form -/

/-- The bytes that have an escape of one character in the quoted form, with that character. -/
def shortEscapes : List (UInt8 × Char) :=
  [(0x09, 't'), (0x0d, 'r'), (0x0a, 'n'), (0x22, '"'), (0x5c, '\\'), (0x0b, 'v'), (0x0c, 'f'), (0x00, '0')]

/-- A byte in the quoted form: its short escape if it has one, else as in the bare form. -/
def quotedByte (b : UInt8) : List Char :=
  match shortEscapes.lookup b with
  | some c => ['\\', c]
  | none => bareByte b

def quotedChars (bytes : Bytes) : List Char := '"' :: bytes.flatMap quotedByte ++ ['"']

/-- The quoted form of a byte string. -/
def quoted (bytes : Bytes) : String := String.ofList (quotedChars bytes)

end PegMachine.Text
