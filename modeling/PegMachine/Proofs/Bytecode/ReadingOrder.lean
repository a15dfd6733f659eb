import PegMachine.Proofs.Bytecode.Acceptance
import PegMachine.Proofs.Bytecode.Faults
/-!
  Bytecode in reading order.

  The field relations say which field comes next behind fields that are complete, and how many bytes it needs:
  `InstructionField`, `RuleField`, `HeaderField`, and `ProgramField` for the whole. An `Opening` is bytecode up to
  where an instruction begins. What is proved: every read of the loader fails at the first of its fields that is
  missing, or at an instruction with no opcode or a label that is not UTF-8 behind complete instructions, or behind a
  header that is refused (`fails_read`, `fails_header`, `fails_program`).
-/
namespace PegMachine

/-! ## Instructions -/

/-- What the operands of an opcode are written as. -/
inductive Operand where
  | none
  | target
  | range
  | set
  | literal
  | table
  | label (what : String)

def Opcode.operand : Opcode → Operand
  | exit | ret | fail | failTwice | any | nodeOpen | nodeClose | mark | scopeBegin | scopeEnd => .none
  | jump | call | choice | commit | partialCommit | backCommit => .target
  | charRange => .range
  | charSet | notCharSet | optionalCharSet | zeroMoreCharSet => .set
  | string | notString | optionalString => .literal
  | mappedChoice => .table
  | tag => .label "tag"
  | value => .label "value"
  | define | is | isa => .label "symbol table"

/-- An entry of a jump table as it is written. -/
def JumpTable.entryBytes (e : UInt8 × UInt32) : Bytes := e.1 :: toBigEndian 4 e.2.toNat

/-- The fields of operands. A table has a key and a target for each of its entries. -/
inductive Operand.Field : Operand → Fields where
  | target : Field .target [] "jump target" 4
  | rangeStart : Field .range [] "range start" 1
  | rangeEnd (lo : UInt8) : Field .range [lo] "range end" 1
  | set : Field .set [] "character set" 32
  | literal {front : Bytes} {wanted : String} {width : Nat} (text : StringField "string literal" front wanted width) :
    Field .literal front wanted width
  | tableSize : Field .table [] "mapped choice size" 2
  | key (count : UInt16) (entries : List (UInt8 × UInt32)) (more : entries.length < count.toNat) :
    Field .table (toBigEndian 2 count.toNat ++ entries.flatMap JumpTable.entryBytes) "mapped choice key" 1
  | entryTarget (count : UInt16) (entries : List (UInt8 × UInt32)) (more : entries.length < count.toNat)
    (key : UInt8) :
    Field .table (toBigEndian 2 count.toNat ++ entries.flatMap JumpTable.entryBytes ++ [key]) "mapped choice target" 4
  | label (what : String) {front : Bytes} {wanted : String} {width : Nat} (text : StringField what front wanted width) :
    Field (.label what) front wanted width

/-- The fields of an instruction. -/
inductive InstructionField : Fields where
  | opcode : InstructionField [] "opcode" 1
  | operand (op : Opcode) {front : Bytes} {wanted : String} {width : Nat}
      (field : op.operand.Field front wanted width) :
    InstructionField (op.byte :: front) wanted width

/-- Faults in an instruction that is not cut off. -/
inductive BadInstruction : Bytes → Bytes → Fault → Prop where
  | notOpcode (byte : UInt8) (rest : Bytes) (past : 30 ≤ byte) : BadInstruction [] (byte :: rest) (.notOpcode byte)
  | notText (op : Opcode) (what : String) (label : op.operand = .label what) (text bytes rest : Bytes)
    (string : IsString text bytes) (bad : NotUtf8 text) : BadInstruction [op.byte] (bytes ++ rest) (.notText what)

open Reader

namespace Instruction

theorem fails_target : Fails readTarget (Fields.one "jump target" 4).Lack := fails_u32.map reads_u32

theorem fails_set : Fails readSet (Fields.one "character set" 32).Lack := (fails_bytes 32).map (reads_bytes 32)

theorem fails_entry : Fails readEntry
    ((Fields.one "mapped choice key" 1).seq (fun key bytes => bytes = [key]) fun _ =>
      .one "mapped choice target" 4).Lack := by
  refine Fails.lack_bind reads_u8 fails_u8 fun key => ?_
  exact fails_u32.map reads_u32

theorem fails_table : Fails readTable (Fields.Lack (Operand.Field .table)) := by
  have reads : Reads readEntry fun e bytes => ∃ x : UInt8 × UInt32, id x = e ∧ JumpTable.entryBytes x = bytes :=
    reads_entry.congr fun e bytes => by simp [JumpTable.entryBytes]
  refine (Fails.lack_bind reads_u16 fails_u16 fun count => Fails.lack_bind (reads.times count.toNat)
    (fails_entry.lack_times reads count.toNat) fun _ => .lack_pure _).lack_congr fun front wanted width => ?_
  constructor
  · intro h'
    obtain ⟨rfl, rfl, rfl⟩ | ⟨count, _, _, rfl, rfl, h'⟩ := h'
    · exact .tableSize
    obtain ⟨entries, _, more, rfl, h'⟩ | ⟨_, _, _, _, _, ⟨⟩⟩ := h'
    obtain ⟨rfl, rfl, rfl⟩ | ⟨key, _, _, rfl, rfl, rfl, rfl, rfl⟩ := h'
    · rw [List.append_nil]
      exact .key count entries more
    · rw [List.append_nil, ← List.append_assoc]
      exact .entryTarget count entries more key
  · intro field
    cases field with
    | tableSize => exact .inl ⟨rfl, rfl, rfl⟩
    | key count entries more =>
      exact .inr ⟨count, _, _, rfl, rfl, .inl ⟨entries, [], more, (List.append_nil _).symm, .inl ⟨rfl, rfl, rfl⟩⟩⟩
    | entryTarget count entries more key =>
      exact .inr ⟨count, _, _, rfl, List.append_assoc .., .inl ⟨entries, [key], more, rfl,
        .inr ⟨key, [key], [], rfl, rfl, rfl, rfl, rfl⟩⟩⟩

/-- What is wrong with operands: they are cut off, or they are a label that is not UTF-8. -/
def OperandFault (op : Opcode) (front back : Bytes) (fault : Fault) : Prop :=
  op.operand.Field.Lack front back fault ∨
    front = [] ∧ ∃ what text bytes rest, op.operand = .label what ∧ IsString text bytes ∧ NotUtf8 text ∧
      back = bytes ++ rest ∧ fault = .notText what

/-- Operands that are no label can only be cut off. -/
theorem fails_operands_of {r : Read Instruction} {op : Opcode} {operand : Operand} (hop : op.operand = operand)
    (unlabelled : ∀ what, operand ≠ .label what) (h : Fails r operand.Field.Lack) : Fails r (OperandFault op) := by
  subst hop
  refine h.congr fun front back fault => ?_
  constructor
  · exact .inl
  · intro h'
    obtain lack | ⟨-, what, _, _, _, label, -⟩ := h'
    · exact lack
    · exact absurd label (unlabelled what)

theorem fails_label {make : String → Instruction} {op : Opcode} {what : String} (hop : op.operand = .label what) :
    Fails (make <$> utf8 what) (OperandFault op) := by
  refine (fails_utf8.map reads_utf8).congr fun front back fault => or_congr ?_ (and_congr_right fun _ => ?_)
  · rw [hop]
    constructor
    · intro h'
      obtain ⟨wanted, width, text, short, rfl⟩ := h'
      exact ⟨wanted, width, .label what text, short, rfl⟩
    · intro h'
      obtain ⟨wanted, width, field, short, rfl⟩ := h'
      cases field with
      | label _ text => exact ⟨wanted, width, text, short, rfl⟩
  · simp only [hop, Operand.label.injEq]
    constructor
    · intro h'
      obtain ⟨text, bytes, rest, string, bad, rfl, rfl⟩ := h'
      exact ⟨what, text, bytes, rest, rfl, string, bad, rfl, rfl⟩
    · intro h'
      obtain ⟨_, text, bytes, rest, rfl, string, bad, rfl, rfl⟩ := h'
      exact ⟨text, bytes, rest, string, bad, rfl, rfl⟩

theorem fails_operands (op : Opcode) : Fails (readOperands op) (OperandFault op) := by
  cases op with
  | exit | ret | fail | failTwice | any | nodeOpen | nodeClose | mark | scopeBegin | scopeEnd =>
    refine fails_operands_of rfl nofun ((Fails.lack_pure _).lack_congr fun front wanted width => ?_)
    exact ⟨False.elim, nofun⟩
  | jump | call | choice | commit | partialCommit | backCommit =>
    refine fails_operands_of rfl nofun ((fails_target.map reads_target).lack_congr fun front wanted width => ?_)
    constructor
    · intro h'
      obtain ⟨rfl, rfl, rfl⟩ := h'
      exact .target
    · rintro ⟨⟩
      exact ⟨rfl, rfl, rfl⟩
  | charRange =>
    refine fails_operands_of rfl nofun ((Fails.lack_bind reads_u8 fails_u8 fun lo =>
      Fails.lack_bind reads_u8 fails_u8 fun hi => .lack_pure _).lack_congr fun front wanted width => ?_)
    constructor
    · intro h'
      obtain ⟨rfl, rfl, rfl⟩ | ⟨lo, _, _, rfl, rfl, h'⟩ := h'
      · exact .rangeStart
      obtain ⟨rfl, rfl, rfl⟩ | ⟨_, _, _, _, _, ⟨⟩⟩ := h'
      exact .rangeEnd lo
    · intro field
      cases field with
      | rangeStart => exact .inl ⟨rfl, rfl, rfl⟩
      | rangeEnd lo => exact .inr ⟨lo, [lo], [], rfl, rfl, .inl ⟨rfl, rfl, rfl⟩⟩
  | charSet | notCharSet | optionalCharSet | zeroMoreCharSet =>
    refine fails_operands_of rfl nofun ((fails_set.map reads_set).lack_congr fun front wanted width => ?_)
    constructor
    · intro h'
      obtain ⟨rfl, rfl, rfl⟩ := h'
      exact .set
    · rintro ⟨⟩
      exact ⟨rfl, rfl, rfl⟩
  | string | notString | optionalString =>
    refine fails_operands_of rfl nofun ((fails_str.map reads_str).lack_congr fun front wanted width => ?_)
    constructor
    · exact .literal
    · intro field
      cases field with
      | literal text => exact text
  | mappedChoice => exact fails_operands_of rfl nofun (fails_table.map reads_table)
  | tag | value | define | is | isa => exact fails_label rfl

/-- An instruction is cut off, or it has no opcode or a label that is not UTF-8. -/
theorem fails_read : Fails Instruction.read fun front back fault =>
    InstructionField.Lack front back fault ∨ BadInstruction front back fault := by
  refine (Fails.inspect (c := Opcode.ofByte?) (φ := .notOpcode) reads_u8 fails_u8 (q := OperandFault)
    (fun s byte op hop => ?_) fun s byte hop => ?_).congr fun front back fault => ?_
  · simp only [hop]
    exact fails_operands op
  · simp only [hop]
    rfl
  · simp only [Opcode.ofByte?_eq_some_iff, Opcode.ofByte?_eq_none_iff]
    constructor
    · intro h'
      obtain ⟨_, _, ⟨rfl, rfl, rfl⟩, short, rfl⟩ | h' := h'
      · exact .inl ⟨_, _, .opcode, short, rfl⟩
      obtain ⟨rfl, byte, _, rest, rfl, past, rfl, rfl⟩ | ⟨_, op, _, _, rfl, rfl, rfl, h'⟩ := h'
      · exact .inr (.notOpcode byte rest past)
      obtain ⟨wanted, width, field, short, rfl⟩ | ⟨rfl, what, text, bytes, rest, label, string, bad, rfl, rfl⟩ := h'
      · exact .inl ⟨wanted, width, .operand op field, short, rfl⟩
      · exact .inr (.notText op what label text bytes rest string bad)
    · intro h'
      obtain ⟨wanted, width, field, short, rfl⟩ | bad := h'
      · cases field with
        | opcode => exact .inl ⟨_, _, ⟨rfl, rfl, rfl⟩, short, rfl⟩
        | operand op field =>
          exact .inr (.inr ⟨op.byte, op, [op.byte], _, rfl, rfl, rfl, .inl ⟨wanted, width, field, short, rfl⟩⟩)
      · cases bad with
        | notOpcode byte rest past => exact .inr (.inl ⟨rfl, byte, [byte], rest, rfl, past, rfl, rfl⟩)
        | notText op what label text bytes rest string bad =>
          exact .inr (.inr ⟨op.byte, op, [op.byte], [], rfl, rfl, rfl,
            .inr ⟨rfl, what, text, bytes, rest, label, string, bad, rfl, rfl⟩⟩)

end Instruction

/-! ## The header -/

/-- The fields of a rule. -/
inductive RuleField : Fields where
  | name {front : Bytes} {wanted : String} {width : Nat} (text : StringField "rule name" front wanted width) :
    RuleField front wanted width
  | start (name : ShortBytes) : RuleField name.form "rule start index" 8

/-- The fields of a header from the rule count on. -/
inductive RulesField : Fields where
  | ruleCount : RulesField [] "rule count" 4
  | rule (count : UInt32) (rules : List RuleEntry) (more : rules.length < count.toNat) {front : Bytes}
    {wanted : String} {width : Nat} (field : RuleField front wanted width) :
    RulesField (toBigEndian 4 count.toNat ++ rules.flatMap RuleEntry.bytes ++ front) wanted width
  | instructionCount (rules : List RuleEntry) (fits : rules.length < UInt32.size) :
    RulesField (toBigEndian 4 rules.length ++ rules.flatMap RuleEntry.bytes) "instruction count" 8

/-- The fields of a header. -/
inductive HeaderField : Fields where
  | major : HeaderField [] "version" 1
  | minor (major : UInt8) : HeaderField [major] "version" 1
  | fileName (version : Version) {front : Bytes} {wanted : String} {width : Nat}
    (text : StringField "file name" front wanted width) :
    HeaderField ([version.major, version.minor] ++ front) wanted width
  | poolSizeHint (version : Version) (fileName : ShortBytes) :
    HeaderField ([version.major, version.minor] ++ fileName.form) "pool size hint" 4
  | rules (version : Version) (fileName : ShortBytes) (hint : UInt32) {front : Bytes} {wanted : String} {width : Nat}
    (field : RulesField front wanted width) :
    HeaderField ([version.major, version.minor] ++ fileName.form ++ toBigEndian 4 hint.toNat ++ front) wanted width

theorem fails_rule : Fails Rule.read RuleField.Lack := by
  refine (Fails.lack_bind reads_short fails_str fun name => Fails.lack_bind reads_u64 fails_u64 fun start =>
    .lack_pure _).lack_congr fun front wanted width => ?_
  constructor
  · intro h'
    obtain text | ⟨_, _, _, ⟨name, rfl, rfl⟩, rfl, h'⟩ := h'
    · exact .name text
    obtain ⟨rfl, rfl, rfl⟩ | ⟨_, _, _, _, _, ⟨⟩⟩ := h'
    rw [List.append_nil]
    exact .start name
  · intro field
    cases field with
    | name text => exact .inl text
    | start name => exact .inr ⟨_, _, [], ⟨name, rfl, rfl⟩, (List.append_nil _).symm, .inl ⟨rfl, rfl, rfl⟩⟩

theorem fails_rules (version : Version) (fileName : String) (hint : UInt32) :
    Fails (do
      let ruleCount ← u32 "rule count"
      let rules ← times ruleCount.toNat Rule.read
      let count ← u64 "instruction count"
      pure (Header.mk version fileName hint rules count)) RulesField.Lack := by
  refine (Fails.lack_bind reads_u32 fails_u32 fun ruleCount => Fails.lack_bind (reads_rule.times ruleCount.toNat)
    (fails_rule.lack_times reads_rule ruleCount.toNat) fun rules => Fails.lack_bind reads_u64 fails_u64 fun count =>
    .lack_pure _).lack_congr fun front wanted width => ?_
  constructor
  · intro h'
    obtain ⟨rfl, rfl, rfl⟩ | ⟨count, _, _, rfl, rfl, h'⟩ := h'
    · exact .ruleCount
    obtain ⟨rules, front, more, rfl, field⟩ | ⟨_, _, _, ⟨rules, rfl, hlen, rfl⟩, rfl, h'⟩ := h'
    · rw [← List.append_assoc]
      exact .rule count rules more field
    obtain ⟨rfl, rfl, rfl⟩ | ⟨_, _, _, _, _, ⟨⟩⟩ := h'
    rw [← hlen, List.append_nil]
    exact .instructionCount rules (hlen ▸ count.toNat_lt)
  · intro field
    cases field with
    | ruleCount => exact .inl ⟨rfl, rfl, rfl⟩
    | rule count rules more field =>
      exact .inr ⟨count, _, _, rfl, List.append_assoc .., .inl ⟨rules, _, more, rfl, field⟩⟩
    | instructionCount rules fits =>
      have hcount : (UInt32.ofNat rules.length).toNat = rules.length := UInt32.toNat_ofNat_of_lt' fits
      refine .inr ⟨.ofNat rules.length, _, _, rfl, ?_, .inr ⟨_, _, [], ⟨rules, rfl, hcount.symm, rfl⟩, rfl,
        .inl ⟨rfl, rfl, rfl⟩⟩⟩
      rw [hcount, List.append_nil]

theorem fails_header : Fails Header.read HeaderField.Lack := by
  refine (Fails.lack_bind reads_u8 fails_u8 fun major => Fails.lack_bind reads_u8 fails_u8 fun minor =>
    Fails.lack_bind reads_short fails_str fun fileName => Fails.lack_bind reads_u32 fails_u32 fun hint =>
    fails_rules ⟨major, minor⟩ (Text.decodeLossy fileName) hint).lack_congr fun front wanted width => ?_
  constructor
  · intro h'
    -- Each field is missing, or it is complete and what is missing is behind it.
    obtain ⟨rfl, rfl, rfl⟩ | ⟨major, _, _, rfl, rfl, h'⟩ := h'
    · exact .major
    obtain ⟨rfl, rfl, rfl⟩ | ⟨minor, _, _, rfl, rfl, h'⟩ := h'
    · exact .minor major
    obtain text | ⟨_, _, _, ⟨fileName, rfl, rfl⟩, rfl, h'⟩ := h'
    · exact .fileName ⟨major, minor⟩ text
    obtain ⟨rfl, rfl, rfl⟩ | ⟨hint, _, _, rfl, rfl, field⟩ := h'
    · simpa using HeaderField.poolSizeHint ⟨major, minor⟩ fileName
    · simpa using HeaderField.rules ⟨major, minor⟩ fileName hint field
  · intro field
    cases field with
    | major => exact .inl ⟨rfl, rfl, rfl⟩
    | minor major => exact .inr ⟨major, _, [], rfl, rfl, .inl ⟨rfl, rfl, rfl⟩⟩
    | fileName version text => exact .inr ⟨_, _, _, rfl, rfl, .inr ⟨_, _, _, rfl, rfl, .inl text⟩⟩
    | poolSizeHint version fileName =>
      exact .inr ⟨_, _, _, rfl, rfl, .inr ⟨_, _, _, rfl, rfl, .inr ⟨_, _, [], ⟨fileName, rfl, rfl⟩,
        (List.append_nil _).symm, .inl ⟨rfl, rfl, rfl⟩⟩⟩⟩
    | rules version fileName hint field =>
      refine .inr ⟨version.major, _, _, rfl, ?_, .inr ⟨version.minor, _, _, rfl, rfl, .inr ⟨_, _, _,
        ⟨fileName, rfl, rfl⟩, rfl, .inr ⟨hint, _, _, rfl, rfl, field⟩⟩⟩⟩
      simp

/-! ## The program -/

/-- Bytecode up to where an instruction begins: a header and fewer records than it says. -/
structure Opening extends Preamble where
  count : UInt64
  records : List Record
  more : records.length < count.toNat

def Opening.bytes (o : Opening) : Bytes :=
  o.toPreamble.bytes ++ toBigEndian 8 o.count.toNat ++ o.records.flatMap Record.bytes

/-- The fields of bytecode. Instructions come next only behind a header in a version that the options let through. -/
inductive ProgramField (options : LoadOptions) : Fields where
  | header {front : Bytes} {wanted : String} {width : Nat} (field : HeaderField front wanted width) :
    ProgramField options front wanted width
  | instruction (o : Opening) (accepted : options.accepts o.version = true) {front : Bytes} {wanted : String}
    {width : Nat} (field : InstructionField front wanted width) : ProgramField options (o.bytes ++ front) wanted width

theorem fails_readHeader (options : LoadOptions) : Fails (readHeader options) fun front back fault =>
    HeaderField.Lack front back fault ∨
      ∃ (p : Preamble) (count : UInt64), options.accepts p.version = false ∧
        front = p.bytes ++ toBigEndian 8 count.toNat ∧ fault = .refused p.version := by
  have hk : ∀ h : Header, Fails (if options.accepts h.version then pure h
      else throw (.unsupportedVersion h.version.major h.version.minor)) fun front back fault =>
      options.accepts h.version = false ∧ front = [] ∧ fault = .refused h.version := by
    intro h
    split
    · next ok => exact (Fails.pure h).congr fun front back fault => by simp [ok]
    · next bad =>
      refine (Fails.throw (.refused h.version) fun _ _ => rfl).congr fun front back fault => ?_
      simp [bad]
  refine (fails_header.bind reads_header hk).congr fun front back fault => or_congr_right ?_
  constructor
  · intro h'
    obtain ⟨_, _, _, ⟨p, count, rfl, rfl⟩, rfl, bad, rfl, rfl⟩ := h'
    exact ⟨p, count, bad, List.append_nil _, rfl⟩
  · intro h'
    obtain ⟨p, count, bad, rfl, rfl⟩ := h'
    exact ⟨_, _, [], ⟨p, count, rfl, rfl⟩, (List.append_nil _).symm, bad, rfl, rfl⟩

/-- What stops the read of bytecode: it is cut off, or its version is refused, or one of its instructions is bad
    behind complete ones. -/
def ProgramFault (options : LoadOptions) (front back : Bytes) (fault : Fault) : Prop :=
  (ProgramField options).Lack front back fault ∨
    (∃ (p : Preamble) (count : UInt64), options.accepts p.version = false ∧
      front = p.bytes ++ toBigEndian 8 count.toNat ∧ fault = .refused p.version) ∨
    ∃ (o : Opening) (rest : Bytes), options.accepts o.version = true ∧ front = o.bytes ++ rest ∧
      BadInstruction rest back fault

theorem fails_program (options : LoadOptions) : Fails (readProgram options) (ProgramFault options) := by
  refine ((fails_readHeader options).bind (reads_readHeader options) fun header =>
    Fails.bind (Instruction.reads_instruction.times header.instructionCount.toNat)
      (Instruction.fails_read.times Instruction.reads_instruction header.instructionCount.toNat) fun code =>
    .pure (header, code)).congr fun front back fault => ?_
  constructor
  · intro h'
    obtain (⟨wanted, width, field, short, rfl⟩ | refused) | ⟨_, _, _, ⟨p, count, ok, rfl, rfl⟩, rfl, h'⟩ := h'
    · exact .inl ⟨wanted, width, .header field, short, rfl⟩
    · exact .inr (.inl refused)
    obtain ⟨records, rest, more, rfl, h'⟩ | ⟨_, _, _, _, _, ⟨⟩⟩ := h'
    rw [← List.append_assoc]
    obtain ⟨wanted, width, field, short, rfl⟩ | bad := h'
    · exact .inl ⟨wanted, width, .instruction ⟨p, count, records, more⟩ ok field, short, rfl⟩
    · exact .inr (.inr ⟨⟨p, count, records, more⟩, rest, ok, rfl, bad⟩)
  · intro h'
    obtain ⟨wanted, width, field, short, rfl⟩ | refused | ⟨o, rest, ok, rfl, bad⟩ := h'
    · cases field with
      | header field => exact .inl (.inl ⟨wanted, width, field, short, rfl⟩)
      | instruction o ok field =>
        exact .inr ⟨_, _, _, ⟨o.toPreamble, o.count, ok, rfl, rfl⟩, List.append_assoc ..,
          .inl ⟨o.records, _, o.more, rfl, .inl ⟨wanted, width, field, short, rfl⟩⟩⟩
    · exact .inl (.inr refused)
    · exact .inr ⟨_, _, _, ⟨o.toPreamble, o.count, ok, rfl, rfl⟩, List.append_assoc ..,
        .inl ⟨o.records, rest, o.more, rfl, .inr bad⟩⟩

theorem run_readProgram_eq_error {options : LoadOptions} {bytes : Bytes} {error : LoadError} :
    (∃ after, (readProgram options).run (.ofBytes bytes) = .error error after) ↔
      ∃ front back fault, ProgramFault options front back fault ∧ bytes = front ++ back ∧
        error = fault.error bytes.length front.length := by
  rw [fails_program options]
  simp [ofBytes, Reader.stop, Reader.remaining]

/-- The program is read whole exactly from the bytes of a layout in a version that the options let through. -/
theorem run_readProgram_eq_ok {options : LoadOptions} {bytes : Bytes} {header : Header} {code : Array Instruction} :
    (∃ rest, (readProgram options).run (.ofBytes bytes) = .ok (header, code) rest) ↔
      ∃ l : Layout, l.bytes = bytes ∧ options.accepts l.version = true ∧
        l.header (.ofNat l.records.length) = header ∧ l.code.toArray = code := by
  constructor
  · intro h'
    obtain ⟨rest, hrun⟩ := h'
    obtain ⟨_, ⟨p, records, fits, ok, hloaded, rfl⟩, hrest, -⟩ := (reads_program options _ _ _).1 hrun
    obtain ⟨rfl, rfl⟩ := Prod.mk.inj hloaded
    exact ⟨⟨p, records, fits, rest.rest⟩, hrest.symm, ok, rfl, rfl⟩
  · intro h'
    obtain ⟨l, rfl, ok, rfl, rfl⟩ := h'
    exact ⟨⟨0 + _, l.trailing⟩,
      (reads_program options _ _ _).2 ⟨_, ⟨l.toPreamble, l.records, l.recordsFit, ok, rfl, rfl⟩, rfl, rfl⟩⟩

end PegMachine
