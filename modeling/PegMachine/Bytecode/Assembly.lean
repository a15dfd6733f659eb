import PegMachine.Bytecode.Encode
import PegMachine.Bytecode.Header
/-!
  Assemblies: programs under construction, and their bytecode.

  An assembly collects instructions and rules and is written as a whole, so that a jump whose target is
  not yet known can be replaced later. A new assembly already holds the reserved instruction at index 0.

  Correspondence (program ↔ here):
    `ProgramWriter`, `new`              ↔ `Assembly`, `new`
    `version`, `pool_size_hint`, `rule` ↔ `withVersion`, `withPoolSizeHint`, `addRule`
    `here`, `push`, `extend`, `set`     ↔ `here`, `push`, `extend`, `set`
    `finish`                            ↔ `encode`
-/
namespace PegMachine

structure Assembly where
  version : Version
  fileName : String
  poolSizeHint : UInt32
  rules : Array Rule
  code : Array Instruction
  deriving DecidableEq, Repr

namespace Assembly

def new (fileName : String) : Assembly where
  version := .current
  fileName := fileName
  poolSizeHint := 0
  rules := #[]
  code := #[.exit]

def withVersion (a : Assembly) (major minor : UInt8) : Assembly := { a with version := ⟨major, minor⟩ }

def withPoolSizeHint (a : Assembly) (hint : UInt32) : Assembly := { a with poolSizeHint := hint }

def addRule (a : Assembly) (name : String) (start : UInt64) : Assembly :=
  { a with rules := a.rules.push ⟨name, start⟩ }

/-- The index that the next instruction will get. -/
def here (a : Assembly) : Nat := a.code.size

def push (a : Assembly) (i : Instruction) : Assembly := { a with code := a.code.push i }

def extend (a : Assembly) (code : List Instruction) : Assembly := { a with code := a.code.appendList code }

/-- Replaces the instruction at an index; does nothing past the end. -/
def set (a : Assembly) (index : Nat) (i : Instruction) : Assembly :=
  { a with code := a.code.setIfInBounds index i }

/-! ## Writing -/

def encodeRule (r : Rule) : Except EncodeError Bytes :=
  (encodeString "rule name" (Text.encode r.name)).map (· ++ toBigEndian 8 r.start.toNat)

/-- The written forms of the items, one after the other, or the first error. -/
def encodeAll {α : Type} (encodeItem : α → Except EncodeError Bytes) (items : List α) :
    Except EncodeError Bytes :=
  (items.mapM encodeItem).map List.flatten

/-- Writes the assembly as bytecode. -/
def encode (a : Assembly) : Except EncodeError Bytes := do
  let fileName ← encodeString "file name" (Text.encode a.fileName)
  let ruleCount ← encodeWord "rule count" a.rules.size
  let rules ← encodeAll encodeRule a.rules.toList
  let code ← encodeAll Instruction.encode a.code.toList
  pure ([a.version.major, a.version.minor] ++ fileName ++ toBigEndian 4 a.poolSizeHint.toNat ++
    ruleCount ++ rules ++ toBigEndian 8 a.code.size ++ code)

end Assembly

end PegMachine
