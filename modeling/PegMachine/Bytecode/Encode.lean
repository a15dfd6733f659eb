import PegMachine.Error
import PegMachine.Instruction
import PegMachine.Text.Utf8
/-!
  Instructions written as bytecode.

  Lengths and jump targets are written in 32 bits. Writing fails exactly if one of them does not fit.

  Correspondence (program ↔ here):
    `encode_instruction`                     ↔ `encode`, `encodeOperands`
    `write_u32`, `write_len`, `write_target` ↔ `encodeWord`
    `write_str`, `write_set`                 ↔ `encodeString`, `CharSet.encode`
-/
namespace PegMachine

/-- A length or a target in 32 bits. -/
def encodeWord (what : String) (n : Nat) : Except EncodeError Bytes :=
  if n < UInt32.size then .ok (toBigEndian 4 n) else .error ⟨what, n⟩

/-- A byte string after its length. -/
def encodeString (what : String) (bytes : Bytes) : Except EncodeError Bytes :=
  (encodeWord what bytes.length).map (· ++ bytes)

namespace Instruction

/-- A jump table after its size. It has at most one entry for each byte, so the size always fits. -/
def encodeTable (table : JumpTable) : Bytes :=
  toBigEndian 2 table.size ++ table.entries.flatMap fun e => e.1 :: toBigEndian 4 e.2.toNat

def encodeOperands : Instruction → Except EncodeError Bytes
  | jump t | call t | choice t | commit t | partialCommit t | backCommit t => encodeWord "jump target" t
  | charRange lo hi => .ok [lo, hi]
  | charSet s | notCharSet s | optionalCharSet s | zeroMoreCharSet s => .ok s.encode
  | string w | notString w | optionalString w => encodeString "string literal" w
  | mappedChoice table => .ok (encodeTable table)
  | tag label | value label | define label | is label | isa label => encodeString "label" (Text.encode label)
  | exit | ret | fail | failTwice | any | nodeOpen | nodeClose | mark | scopeBegin | scopeEnd => .ok []

/-- Writes one instruction: its opcode's byte, then its operands. -/
def encode (i : Instruction) : Except EncodeError Bytes := i.encodeOperands.map (i.opcode.byte :: ·)

end Instruction

end PegMachine
