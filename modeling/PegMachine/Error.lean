import PegMachine.Opcode
import PegMachine.Text.Escaped
/-!
  What can go wrong, as causes, and the words for each cause.

  Loading stops with a `LoadError`, a run with a `RunError`, writing a program with an `EncodeError`. An
  input that does not match is no error: it is reported as a `ParseFailure`.

  Correspondence (program ↔ here):
    `LoadError`, `RunError`, `StackKind` ↔ `LoadError`, `RunError`, `StackKind`
    `ParseFailure`, `EncodeError`        ↔ `ParseFailure`, `EncodeError`
    the display form of each             ↔ `message`, and `StackKind.name`
-/
namespace PegMachine

/-! ## Loading -/

inductive LoadError where
  /-- The bytes end inside the named field; `offset` is where they end. -/
  | truncated (offset : Nat) (wanted : String)
  | unknownOpcode (byte : UInt8) (offset : Nat)
  | unsupportedVersion (major minor : UInt8)
  /-- The named text is not UTF-8; `offset` is where its length stands. -/
  | invalidUtf8 (what : String) (offset : Nat)
  | targetOutOfRange (index : Nat) (opcode : Opcode) (target count : Nat)
  | startOutOfRange (start count : Nat)
  /-- A number that does not fit in a machine word. No number in 64-bit bytecode is that large. -/
  | overlarge (what : String) (value : Nat)
  deriving DecidableEq, Repr

/-- A byte as two hexadecimal digits. -/
def hexPair (b : UInt8) : String := String.ofList (Text.hexByte b)

def LoadError.message : LoadError → String
  | truncated offset wanted => s!"bytecode ended at byte {offset} while reading {wanted}"
  | unknownOpcode byte offset => s!"0x{hexPair byte} at byte {offset} is not an opcode"
  | unsupportedVersion major minor => s!"bytecode version {major.toNat}.{minor.toNat} is not supported"
  | invalidUtf8 what offset => s!"{what} at byte {offset} is not valid UTF-8"
  | targetOutOfRange index opcode target count =>
    s!"instruction {index} ({opcode.name}) targets {target}, but there are only {count} instructions"
  | startOutOfRange start count => s!"start point {start} is past the end of {count} instructions"
  | overlarge what value => s!"{what} of {value} does not fit in memory"

/-! ## Running -/

/-- The stacks that have a capacity. -/
inductive StackKind where
  | backtrack | ast | call | symbol
  deriving DecidableEq, Repr

def StackKind.name : StackKind → String
  | backtrack => "Backtrack"
  | ast => "Ast"
  | call => "Call"
  | symbol => "Symbol"

inductive RunError where
  | stackOverflow (stack : StackKind) (capacity : Nat)
  | stackUnderflow (stack : StackKind) (pc : Nat)
  | pcOutOfBounds (pc count : Nat)
  | unbalancedNode (pc : Nat)
  | missingMark (pc : Nat)
  /-- An instruction was given to the routine of another opcode. -/
  | handlerMismatch (pc : Nat) (handler : Opcode)
  | poolExhausted (nodes : Nat)
  | noStartPoint
  deriving DecidableEq, Repr

def RunError.message : RunError → String
  | stackOverflow stack capacity => s!"{stack.name} stack overflowed its capacity of {capacity}"
  | stackUnderflow stack pc => s!"instruction {pc} popped the empty {stack.name} stack"
  | pcOutOfBounds pc count => s!"program counter {pc} is outside the {count} loaded instructions"
  | unbalancedNode pc => s!"instruction {pc} closed a node that was never opened"
  | missingMark pc => s!"instruction {pc} defined a symbol with no mark before it"
  | handlerMismatch pc handler => s!"instruction {pc} is bound to the {handler.name} handler"
  | poolExhausted nodes => s!"memory pool is full at {nodes} nodes"
  | noStartPoint => "context has no start point; load a program into it first"

/-- An input that did not match: where the cursor stood in the end, and the furthest it ever got. -/
structure ParseFailure where
  pos : Nat
  furthest : Nat
  deriving DecidableEq, Repr

def ParseFailure.message (f : ParseFailure) : String :=
  s!"parse error at byte {f.pos} (got as far as byte {f.furthest})"

/-! ## Writing -/

/-- A length or a target that does not fit in its field. -/
structure EncodeError where
  what : String
  value : Nat
  deriving DecidableEq, Repr

def EncodeError.message (e : EncodeError) : String := s!"{e.what} of {e.value} is too big to encode"

end PegMachine
