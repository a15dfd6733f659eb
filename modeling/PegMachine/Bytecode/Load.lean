import PegMachine.Bytecode.Decode
import PegMachine.Bytecode.Header
import PegMachine.Context
/-!
  Loading: from bytes to a program that runs.

  The header is read and its version looked at, then the instructions are read, then it is made sure that
  every jump target and the start point are inside the program. Whatever follows the last instruction is
  ignored. A context is changed only by a load that succeeds.

  Correspondence (program ↔ here):
    `LoaderOptions`, `load`              ↔ `LoadOptions`, `load` with `Context.ofLoaded`
    `read_instructions`, `check_targets` ↔ `readProgram`, `checkTargets`
    `load_into`                          ↔ `Context.loadInto`
-/
namespace PegMachine

structure LoadOptions where
  /-- Whether every version but the current one is refused. -/
  strictVersion : Bool := false
  /-- The capacities of contexts made for the loaded program. -/
  config : Config := {}
  deriving DecidableEq, Repr

/-- What a load found. -/
structure Loaded where
  header : Header
  program : Program
  startPoint : Nat
  /-- How many bytes follow the last instruction. -/
  trailing : Nat
  deriving DecidableEq, Repr

/-! ## The checks -/

/-- Whether the options let a program of this version through. -/
def LoadOptions.accepts (options : LoadOptions) (version : Version) : Bool :=
  !options.strictVersion || version == .current

/-- The first target outside the program, at the first instruction that has one. -/
def strayTarget? (code : Array Instruction) : Option LoadError :=
  code.toList.zipIdx.findSome? fun (i, index) =>
    (i.targets.find? (code.size ≤ ·)).map fun target => .targetOutOfRange index i.opcode target code.size

/-- Accepts the program if all its targets are inside it. -/
def checkTargets (code : Array Instruction) : Except LoadError Unit :=
  match strayTarget? code with
  | some error => .error error
  | none => .ok ()

/-- Accepts a start point inside the program. -/
def checkStart (start count : Nat) : Except LoadError Unit :=
  if start < count then .ok () else .error (.startOutOfRange start count)

/-! ## Loading -/

/-- Reads the header and refuses a version that the options do not let through. -/
def readHeader (options : LoadOptions) : Read Header := do
  let header ← Header.read
  if options.accepts header.version then pure header
  else throw (.unsupportedVersion header.version.major header.version.minor)

/-- Reads the header and as many instructions as it says. -/
def readProgram (options : LoadOptions) : Read (Header × Array Instruction) := do
  let header ← readHeader options
  let code ← Reader.times header.instructionCount.toNat Instruction.read
  pure (header, code)

/-- Loads bytecode, to start at the named rule. -/
def load (options : LoadOptions) (bytes : Bytes) (rule? : Option String) : Except LoadError Loaded :=
  match (readProgram options).run (.ofBytes bytes) with
  | .error error _ => .error error
  | .ok (header, code) rest => do
    let start := (header.startPoint rule?).toNat
    checkTargets code
    checkStart start code.size
    pure ⟨header, ⟨code⟩, start, rest.remaining⟩

namespace Context

/-- Points the context at what was loaded. -/
def adoptLoaded (c : Context) (l : Loaded) : Context :=
  c.adopt l.startPoint l.program.size l.header.poolSizeHint.toNat

/-- A new context for what was loaded. -/
def ofLoaded (options : LoadOptions) (l : Loaded) : Context := (new options.config).adoptLoaded l

/-- Loads a program into the context; a load that fails leaves it as it was. -/
def loadInto (c : Context) (options : LoadOptions) (bytes : Bytes) (rule? : Option String) :
    Except LoadError Program × Context :=
  match load options bytes rule? with
  | .ok loaded => (.ok loaded.program, c.adoptLoaded loaded)
  | .error error => (.error error, c)

end Context

end PegMachine
