import PegMachine.Bytecode.Header
import PegMachine.Instruction
import PegMachine.Proofs.Bytecode.Reading
/-!
  The format of bytecode.

  A `Layout` is a byte string taken apart: the fields of the header, the instruction records and what
  follows them. It says nothing of readers or writers. An instruction's operands are a relation, because a
  jump table may list its entries in any order and repeat bytes. `StartsAt` says where the rules of a header
  let runs start. What is proved: `startsAt_iff`, that is where `Header.startPoint` finds it.
-/
namespace PegMachine

/-! ## Instructions -/

/-- The forms of a jump table: how many entries there are, and the entries. -/
def JumpTable.IsForm (table : JumpTable) (bytes : Bytes) : Prop :=
  ∃ entries : List (UInt8 × UInt32), entries.length < UInt16.size ∧ table.Lists entries ∧
    bytes = toBigEndian 2 entries.length ++ entries.flatMap fun e => e.1 :: toBigEndian 4 e.2.toNat

/-- The forms of the operands of an instruction. -/
def Instruction.HasOperands : Instruction → Bytes → Prop
  | jump t, bytes | call t, bytes | choice t, bytes | commit t, bytes | partialCommit t, bytes
  | backCommit t, bytes => t < UInt32.size ∧ bytes = toBigEndian 4 t
  | charRange lo hi, bytes => bytes = [lo, hi]
  | charSet set, bytes | notCharSet set, bytes | optionalCharSet set, bytes | zeroMoreCharSet set, bytes =>
    set.HasBitmap bytes
  | string w, bytes | notString w, bytes | optionalString w, bytes => IsString w bytes
  | mappedChoice table, bytes => table.IsForm bytes
  | tag label, bytes | value label, bytes | define label, bytes | is label, bytes | isa label, bytes =>
    IsString (Text.encode label) bytes
  | exit, bytes | ret, bytes | fail, bytes | failTwice, bytes | any, bytes | nodeOpen, bytes
  | nodeClose, bytes | mark, bytes | scopeBegin, bytes | scopeEnd, bytes => bytes = []

/-- An instruction with one form of its operands. -/
structure Record where
  instruction : Instruction
  operands : Bytes
  valid : instruction.HasOperands operands

def Record.bytes (r : Record) : Bytes := r.instruction.opcode.byte :: r.operands

/-! ## Layouts -/

/-- Bytes whose length fits in 32 bits. -/
structure ShortBytes where
  bytes : Bytes
  fits : bytes.length < UInt32.size

/-- The bytes after their length. -/
def ShortBytes.form (w : ShortBytes) : Bytes := toBigEndian 4 w.bytes.length ++ w.bytes

structure RuleEntry where
  name : ShortBytes
  start : UInt64

namespace RuleEntry

def bytes (e : RuleEntry) : Bytes := e.name.form ++ toBigEndian 8 e.start.toNat

/-- The rule that the entry stands for. Its name is decoded lossily. -/
def rule (e : RuleEntry) : Rule := ⟨Text.decodeLossy e.name.bytes, e.start⟩

end RuleEntry

/-- What stands in front of the instruction count. -/
structure Preamble where
  version : Version
  fileName : ShortBytes
  poolSizeHint : UInt32
  rules : List RuleEntry
  rulesFit : rules.length < UInt32.size

namespace Preamble

def bytes (p : Preamble) : Bytes :=
  [p.version.major, p.version.minor] ++ p.fileName.form ++ toBigEndian 4 p.poolSizeHint.toNat ++
    toBigEndian 4 p.rules.length ++ p.rules.flatMap RuleEntry.bytes

/-- The header of a program with that many instructions. The file name is decoded lossily. -/
def header (p : Preamble) (count : UInt64) : Header where
  version := p.version
  fileName := Text.decodeLossy p.fileName.bytes
  poolSizeHint := p.poolSizeHint
  rules := (p.rules.map RuleEntry.rule).toArray
  instructionCount := count

end Preamble

/-- A byte string taken apart. -/
structure Layout extends Preamble where
  records : List Record
  recordsFit : records.length < UInt64.size
  trailing : Bytes

namespace Layout

/-- The byte string that was taken apart. -/
def bytes (l : Layout) : Bytes :=
  l.toPreamble.bytes ++ toBigEndian 8 l.records.length ++ l.records.flatMap Record.bytes ++ l.trailing

/-- The instructions, in order. -/
def code (l : Layout) : List Instruction := l.records.map Record.instruction

end Layout

/-! ## Start points -/

/-- Where runs from a named rule start: at the index of the last rule of that name. Without a name, without
    such a rule, and if the index is the reserved one, they start at 1. -/
inductive StartsAt : List Rule → Option String → UInt64 → Prop where
  | named (before after : List Rule) (name : String) (start : UInt64) (last : ∀ r ∈ after, r.name ≠ name)
    (free : start ≠ 0) : StartsAt (before ++ ⟨name, start⟩ :: after) (some name) start
  | reserved (before after : List Rule) (name : String) (last : ∀ r ∈ after, r.name ≠ name) :
    StartsAt (before ++ ⟨name, 0⟩ :: after) (some name) 1
  | unknown (rules : List Rule) (name : String) (missing : ∀ r ∈ rules, r.name ≠ name) :
    StartsAt rules (some name) 1
  | unnamed (rules : List Rule) : StartsAt rules none 1

theorem startsAt_startPoint (h : Header) (rule? : Option String) :
    StartsAt h.rules.toList rule? (h.startPoint rule?) := by
  cases rule? with
  | none => exact .unnamed _
  | some name =>
    rw [Header.startPoint, Option.bind_some, Header.rule?]
    cases hfind : h.rules.toList.reverse.find? (·.name == name) with
    | none =>
      refine .unknown _ name fun r hr => ?_
      simpa using List.find?_eq_none.1 hfind r (List.mem_reverse.2 hr)
    | some rule =>
      -- The first from the back: `after` and `before` are the wrong way round.
      obtain ⟨hname, after, before, hsplit, hafter⟩ := List.find?_eq_some_iff_append.1 hfind
      obtain ⟨name', start⟩ := rule
      obtain rfl : name' = name := by simpa using hname
      have hrules : h.rules.toList = before.reverse ++ ⟨name', start⟩ :: after.reverse := by
        rw [← List.reverse_reverse h.rules.toList, hsplit]
        simp
      have last : ∀ r ∈ after.reverse, r.name ≠ name' := by
        intro r hr
        simpa using hafter r (List.mem_reverse.1 hr)
      rw [hrules]
      split
      · next rule heq =>
        obtain rfl := Option.some.inj heq
        split
        · next h0 =>
          obtain rfl : start = 0 := h0
          exact .reserved _ _ _ last
        · next h0 => exact .named _ _ _ _ last h0
      · next heq => cases heq

theorem find?_reverse_of_last {before after : List Rule} {name : String} {start : UInt64}
    (last : ∀ r ∈ after, r.name ≠ name) :
    (before ++ ⟨name, start⟩ :: after).reverse.find? (·.name == name) = some ⟨name, start⟩ := by
  have hnone : after.reverse.find? (·.name == name) = none := List.find?_eq_none.2 (by simpa using last)
  simp [hnone]

/-- The start point is where the rules say that runs start. -/
theorem startsAt_iff {h : Header} {rule? : Option String} {start : UInt64} :
    StartsAt h.rules.toList rule? start ↔ h.startPoint rule? = start := by
  constructor
  · intro hs
    generalize hrules : h.rules.toList = rules at hs
    cases hs with
    | named _ _ name _ last free =>
      simp only [Header.startPoint, Option.bind_some, Header.rule?, hrules, find?_reverse_of_last last,
        if_neg free]
    | reserved _ _ name last =>
      simp only [Header.startPoint, Option.bind_some, Header.rule?, hrules, find?_reverse_of_last last]
      rfl
    | unknown _ name missing =>
      have hnone : rules.reverse.find? (·.name == name) = none := List.find?_eq_none.2 (by simpa using missing)
      simp only [Header.startPoint, Option.bind_some, Header.rule?, hrules, hnone]
      rfl
    | unnamed => rfl
  · rintro rfl
    exact startsAt_startPoint h rule?

end PegMachine
