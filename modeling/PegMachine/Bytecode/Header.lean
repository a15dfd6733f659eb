import PegMachine.Bytecode.Reader
/-!
  The header of bytecode: everything in front of the instructions.

  File and rule names need not be UTF-8 and are decoded lossily. A rule name leads to the last rule of
  that name. Index 0 is reserved, so a rule that points there counts as having no start of its own.

  Correspondence (program ↔ here):
    `Header`, `RuleEntry`            ↔ `Header`, `Rule`
    `VERSION`, `DEFAULT_START_POINT` ↔ `Version.current`, `defaultStart`
    `read_header`                    ↔ `Header.read`, `Rule.read`
    `start_point`                    ↔ `Header.startPoint`, `Header.rule?`
-/
namespace PegMachine

structure Rule where
  name : String
  start : UInt64
  deriving DecidableEq, Repr

structure Version where
  major : UInt8
  minor : UInt8
  deriving DecidableEq, Repr

/-- The version of the format that is described here. -/
def Version.current : Version := ⟨0, 1⟩

structure Header where
  version : Version
  fileName : String
  poolSizeHint : UInt32
  rules : Array Rule
  instructionCount : UInt64
  deriving DecidableEq, Repr

/-- Where runs start when no rule says otherwise. -/
def defaultStart : UInt64 := 1

def Rule.read : Read Rule := do
  let name ← Reader.str "rule name"
  let start ← Reader.u64 "rule start index"
  pure ⟨Text.decodeLossy name, start⟩

namespace Header

def read : Read Header := do
  let major ← Reader.u8 "version"
  let minor ← Reader.u8 "version"
  let fileName ← Reader.str "file name"
  let poolSizeHint ← Reader.u32 "pool size hint"
  let ruleCount ← Reader.u32 "rule count"
  let rules ← Reader.times ruleCount.toNat Rule.read
  let instructionCount ← Reader.u64 "instruction count"
  pure ⟨⟨major, minor⟩, Text.decodeLossy fileName, poolSizeHint, rules, instructionCount⟩

/-- The last rule of that name. -/
def rule? (h : Header) (name : String) : Option Rule := h.rules.toList.reverse.find? (·.name == name)

/-- Where a run from the named rule starts. -/
def startPoint (h : Header) (rule? : Option String) : UInt64 :=
  match rule?.bind h.rule? with
  | some rule => if rule.start = 0 then defaultStart else rule.start
  | none => defaultStart

end Header

end PegMachine
