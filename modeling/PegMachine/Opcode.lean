/-!
  The thirty opcodes, in the order of their bytes.

  An opcode's byte is its place in `Opcode.all`; the bytes from thirty on stand for no opcode
  (`ofByte?_eq_some_iff`).

  Correspondence (program ↔ here):
    `Opcode`, `Opcode.all`       ↔ `Opcode`, `Opcode.all`
    `OPCODE_COUNT`               ↔ `Opcode.length_all`
    `Opcode.try_from`, `u8.from` ↔ `Opcode.ofByte?`, `Opcode.byte`
    the debug form of an opcode  ↔ `Opcode.name`
-/
namespace PegMachine

inductive Opcode where
  | exit | jump | call | ret
  | choice | commit | partialCommit | backCommit | fail | failTwice
  | any | charRange | charSet | string | notCharSet | notString | optionalCharSet | optionalString
  | zeroMoreCharSet | mappedChoice
  | nodeOpen | nodeClose | tag | value
  | mark | define | is | isa | scopeBegin | scopeEnd
  deriving DecidableEq, Repr, Inhabited

namespace Opcode

/-- Every opcode, in the order of their bytes. -/
def all : List Opcode :=
  [exit, jump, call, ret, choice, commit, partialCommit, backCommit, fail, failTwice, any, charRange,
   charSet, string, notCharSet, notString, optionalCharSet, optionalString, zeroMoreCharSet,
   mappedChoice, nodeOpen, nodeClose, tag, value, mark, define, is, isa, scopeBegin, scopeEnd]

/-- The byte that stands for an opcode. -/
def byte (op : Opcode) : UInt8 := UInt8.ofNat op.ctorIdx

/-- The opcode that a byte stands for, if any. -/
def ofByte? (b : UInt8) : Option Opcode := all[b.toNat]?

def name : Opcode → String
  | exit => "Exit"
  | jump => "Jump"
  | call => "Call"
  | ret => "Ret"
  | choice => "Choice"
  | commit => "Commit"
  | partialCommit => "PartialCommit"
  | backCommit => "BackCommit"
  | fail => "Fail"
  | failTwice => "FailTwice"
  | any => "Any"
  | charRange => "CharRange"
  | charSet => "CharSet"
  | string => "String"
  | notCharSet => "NotCharSet"
  | notString => "NotString"
  | optionalCharSet => "OptionalCharSet"
  | optionalString => "OptionalString"
  | zeroMoreCharSet => "ZeroMoreCharSet"
  | mappedChoice => "MappedChoice"
  | nodeOpen => "NodeOpen"
  | nodeClose => "NodeClose"
  | tag => "Tag"
  | value => "Value"
  | mark => "Mark"
  | define => "Def"
  | is => "Is"
  | isa => "Isa"
  | scopeBegin => "ScopeBegin"
  | scopeEnd => "ScopeEnd"

/-- The opcode of that name, if any. -/
def ofName? (name : String) : Option Opcode := all.find? (·.name == name)

theorem length_all : all.length = 30 := rfl

theorem ofByte?_byte (op : Opcode) : ofByte? op.byte = some op := by cases op <;> rfl

theorem ofByte?_eq_some_iff {b : UInt8} {op : Opcode} : ofByte? b = some op ↔ b = op.byte := by
  constructor
  · intro h
    have hb : b.toNat < 30 := (List.getElem?_eq_some_iff.1 h).1
    have key : ∀ n < 30, ∀ op, all[n]? = some op → n = op.byte.toNat := by decide
    exact UInt8.toNat_inj.1 (key _ hb op h)
  · rintro rfl
    exact ofByte?_byte op

theorem ofName?_name (op : Opcode) : ofName? op.name = some op := by cases op <;> decide

theorem space_notMem_name (op : Opcode) : ' ' ∉ op.name.toList := by cases op <;> decide

theorem ofByte?_eq_none_iff {b : UInt8} : ofByte? b = none ↔ 30 ≤ b := by
  rw [ofByte?, List.getElem?_eq_none_iff, length_all, UInt8.le_iff_toNat_le]
  rfl

end Opcode

end PegMachine
