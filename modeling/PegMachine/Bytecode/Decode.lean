import PegMachine.Bytecode.Reader
import PegMachine.Instruction
/-!
  Instructions read from bytecode: an opcode byte, then the operands of that opcode.

  A jump table is written as a count and that many entries; an entry replaces an earlier one for the same
  byte.

  Correspondence (program ↔ here):
    `target`, `set`, `literal`, `label` ↔ `readTarget`, `readSet`, `readLiteral`, `Reader.utf8`
    `decode_mapped_choice`              ↔ `readTable`, `readEntry`
    `DECODERS`                          ↔ `readOperands`
    a round of `read_instructions`      ↔ `read`
-/
namespace PegMachine.Instruction

/-- Reads a jump target. -/
def readTarget : Read Nat := UInt32.toNat <$> Reader.u32 "jump target"

def readSet : Read CharSet := CharSet.ofEncoded <$> Reader.set "character set"

def readLiteral : Read Bytes := Reader.str "string literal"

def readEntry : Read (UInt8 × UInt32) := do
  let byte ← Reader.u8 "mapped choice key"
  let target ← Reader.u32 "mapped choice target"
  pure (byte, target)

def readTable : Read JumpTable := do
  let count ← Reader.u16 "mapped choice size"
  let entries ← Reader.times count.toNat readEntry
  pure (.ofEntries entries.toList)

/-- Reads the operands of an opcode. -/
def readOperands : Opcode → Read Instruction
  | .exit => pure exit
  | .jump => jump <$> readTarget
  | .call => call <$> readTarget
  | .ret => pure ret
  | .choice => choice <$> readTarget
  | .commit => commit <$> readTarget
  | .partialCommit => partialCommit <$> readTarget
  | .backCommit => backCommit <$> readTarget
  | .fail => pure fail
  | .failTwice => pure failTwice
  | .any => pure any
  | .charRange => do
    let lo ← Reader.u8 "range start"
    let hi ← Reader.u8 "range end"
    pure (charRange lo hi)
  | .charSet => charSet <$> readSet
  | .string => string <$> readLiteral
  | .notCharSet => notCharSet <$> readSet
  | .notString => notString <$> readLiteral
  | .optionalCharSet => optionalCharSet <$> readSet
  | .optionalString => optionalString <$> readLiteral
  | .zeroMoreCharSet => zeroMoreCharSet <$> readSet
  | .mappedChoice => mappedChoice <$> readTable
  | .nodeOpen => pure nodeOpen
  | .nodeClose => pure nodeClose
  | .tag => tag <$> Reader.utf8 "tag"
  | .value => value <$> Reader.utf8 "value"
  | .mark => pure mark
  | .define => define <$> Reader.utf8 "symbol table"
  | .is => is <$> Reader.utf8 "symbol table"
  | .isa => isa <$> Reader.utf8 "symbol table"
  | .scopeBegin => pure scopeBegin
  | .scopeEnd => pure scopeEnd

/-- Reads one instruction. -/
def read : Read Instruction := do
  let offset := (← get).pos
  let byte ← Reader.u8 "opcode"
  match Opcode.ofByte? byte with
  | some op => readOperands op
  | none => throw (.unknownOpcode byte offset)

end PegMachine.Instruction
