import PegMachine.CharSet
import PegMachine.JumpTable
import PegMachine.Opcode
/-!
  Instructions and programs.

  A program is a flat array of instructions. Each instruction carries the operands of its opcode; jump
  targets are absolute indices into the array. Index 0 is reserved: no run starts there.

  Correspondence (program ↔ here):
    `Instruction`                      ↔ `Instruction`
    `opcode`, `targets`                ↔ `Instruction.opcode`, `Instruction.targets`
    `Program`, `prepare`, `get`, `len` ↔ `Program`, `Program.ofList`, `Program.at?`, `Program.size`
-/
namespace PegMachine

inductive Instruction where
  /-- Stops and accepts. -/
  | exit
  | jump (target : Nat)
  /-- Remembers the next index on the call stack and goes to the target. -/
  | call (target : Nat)
  /-- Goes back to the last remembered index; accepts if there is none. -/
  | ret
  /-- Pushes a backtrack frame that resumes at the target. -/
  | choice (alternative : Nat)
  /-- Drops the top frame and goes to the target. -/
  | commit (target : Nat)
  /-- Refreshes the top frame from the current state and goes to the target. -/
  | partialCommit (target : Nat)
  /-- Pops and restores the top frame and goes to the target. -/
  | backCommit (target : Nat)
  | fail
  /-- Drops the top frame, then fails. -/
  | failTwice
  /-- Consumes any byte. -/
  | any
  /-- Consumes one byte from `lo` to `hi`. -/
  | charRange (lo hi : UInt8)
  /-- Consumes one byte of the set. -/
  | charSet (set : CharSet)
  /-- Consumes the literal. -/
  | string (literal : Bytes)
  /-- Fails if the next byte is in the set; consumes nothing. -/
  | notCharSet (set : CharSet)
  /-- Fails if the literal comes next; consumes nothing. -/
  | notString (literal : Bytes)
  /-- Consumes one byte of the set if there is one; never fails. -/
  | optionalCharSet (set : CharSet)
  /-- Consumes the literal if it comes next; never fails. -/
  | optionalString (literal : Bytes)
  /-- Consumes bytes of the set as long as there are any; never fails. -/
  | zeroMoreCharSet (set : CharSet)
  /-- Goes to the target that the table has for the next byte; consumes nothing. -/
  | mappedChoice (table : JumpTable)
  | nodeOpen
  | nodeClose
  | tag (label : String)
  | value (label : String)
  /-- Remembers where the text of the next definition starts. -/
  | mark
  /-- Binds the text since the last mark in the named symbol table. -/
  | define (table : String)
  /-- Consumes the latest text of the named symbol table. -/
  | is (table : String)
  /-- Consumes the latest text of the named symbol table that comes next. -/
  | isa (table : String)
  | scopeBegin
  | scopeEnd
  deriving DecidableEq, Repr

namespace Instruction

def opcode : Instruction → Opcode
  | exit => .exit
  | jump _ => .jump
  | call _ => .call
  | ret => .ret
  | choice _ => .choice
  | commit _ => .commit
  | partialCommit _ => .partialCommit
  | backCommit _ => .backCommit
  | fail => .fail
  | failTwice => .failTwice
  | any => .any
  | charRange _ _ => .charRange
  | charSet _ => .charSet
  | string _ => .string
  | notCharSet _ => .notCharSet
  | notString _ => .notString
  | optionalCharSet _ => .optionalCharSet
  | optionalString _ => .optionalString
  | zeroMoreCharSet _ => .zeroMoreCharSet
  | mappedChoice _ => .mappedChoice
  | nodeOpen => .nodeOpen
  | nodeClose => .nodeClose
  | tag _ => .tag
  | value _ => .value
  | mark => .mark
  | define _ => .define
  | is _ => .is
  | isa _ => .isa
  | scopeBegin => .scopeBegin
  | scopeEnd => .scopeEnd

/-- Every index, other than the next one, that the instruction can send control to. A jump table's
    targets come in the order of their bytes. -/
def targets : Instruction → List Nat
  | jump t | call t | choice t | commit t | partialCommit t | backCommit t => [t]
  | mappedChoice table => table.entries.map (·.2.toNat)
  | _ => []

end Instruction

structure Program where
  code : Array Instruction
  deriving DecidableEq, Repr

namespace Program

def ofList (code : List Instruction) : Program := ⟨code.toArray⟩

def size (p : Program) : Nat := p.code.size

/-- The instruction at an index, if the program reaches that far. -/
def at? (p : Program) (pc : Nat) : Option Instruction := p.code[pc]?

end Program

end PegMachine
