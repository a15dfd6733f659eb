import PegMachine.CharSet.Ranges
import PegMachine.Instruction
import PegMachine.Text.Escaped
/-!
  Sets, tables and instructions as text: what a disassembly shows.

  An instruction is its opcode's name followed by its operands. Sets are shown in range form between
  brackets, literals quoted, labels as they are; a tag has a number sign before it.

  Correspondence (program ↔ here):
    the display form of a `CharSet`      ↔ `CharSet.text`
    the debug form of a `MappedTable`    ↔ `JumpTable.numericText`
    the display form of an `Instruction` ↔ `Instruction.text`
-/
namespace PegMachine

/-! ## Sets -/

/-- A range as its one byte or as its two ends around a dash. -/
def ByteRange.chars (r : ByteRange) : List Char :=
  if r.lo = r.hi then Text.bareByte r.lo else Text.bareByte r.lo ++ '-' :: Text.bareByte r.hi

def CharSet.chars (s : CharSet) : List Char := '[' :: s.ranges.flatMap ByteRange.chars ++ [']']

/-- A set in range form between brackets, as in `[0-9a-f_]`. -/
def CharSet.text (s : CharSet) : String := String.ofList s.chars

/-! ## Jump tables -/

def inBraces (items : List String) : String := "\x7b" ++ ", ".intercalate items ++ "\x7d"

/-- A table with its bytes as numbers. -/
def JumpTable.numericText (t : JumpTable) : String :=
  inBraces (t.entries.map fun e => toString e.1.toNat ++ ": " ++ toString e.2.toNat)

/-- A table with its bytes quoted. -/
def JumpTable.text (t : JumpTable) : String :=
  inBraces (t.entries.map fun e => Text.quoted [e.1] ++ ": " ++ toString e.2.toNat)

/-! ## Instructions -/

namespace Instruction

/-- The operands of an instruction as text, if it has any. -/
def operandText? : Instruction → Option String
  | jump t | call t | choice t | commit t | partialCommit t | backCommit t => some (toString t)
  | charRange lo hi => some (Text.bare [lo] ++ "-" ++ Text.bare [hi])
  | charSet s | notCharSet s | optionalCharSet s | zeroMoreCharSet s => some s.text
  | string w | notString w | optionalString w => some (Text.quoted w)
  | mappedChoice t => some t.text
  | tag label => some ("#" ++ label)
  | value label | define label | is label | isa label => some label
  | _ => none

def text (i : Instruction) : String :=
  match i.operandText? with
  | some operand => i.opcode.name ++ " " ++ operand
  | none => i.opcode.name

end Instruction

def Program.listing (p : Program) : List String := p.code.toList.map Instruction.text

end PegMachine
