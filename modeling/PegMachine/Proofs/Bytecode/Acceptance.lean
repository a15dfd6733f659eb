import PegMachine.Bytecode.Load
import PegMachine.Proofs.Bytecode.Format
/-!
  The loader accepts the format.

  What is proved:
    1. every read of the loader reads the format of what it is for (`reads_operands`, `reads_instruction`,
       `reads_header`, `reads_program`);
    2. `Layout.bytes_injective`: a byte string can be taken apart in at most one way;
    3. `load_eq_ok`: a load succeeds exactly on bytes that can be taken apart, in a version that the
       options let through, and with all targets and the start point inside the program;
    4. `load_iff`: all of this together, and that being strict changes nothing for the current version.
-/
namespace PegMachine

/-! ## Reading instructions -/

namespace Instruction

open Reader

theorem reads_target : Reads readTarget fun t bytes => t < UInt32.size ∧ bytes = toBigEndian 4 t := by
  refine reads_u32.map.congr fun t bytes => ?_
  refine ⟨fun h' => ?_, fun h' => ?_⟩
  · obtain ⟨n, rfl, rfl⟩ := h'
    exact ⟨n.toNat_lt, rfl⟩
  · obtain ⟨ht, rfl⟩ := h'
    have hn : (UInt32.ofNat t).toNat = t := UInt32.toNat_ofNat_of_lt' ht
    exact ⟨.ofNat t, by rw [hn], hn⟩

theorem reads_set : Reads readSet CharSet.HasBitmap := by
  refine (reads_bytes _).map.congr fun set bytes => ?_
  rw [CharSet.hasBitmap_iff]
  refine ⟨fun h' => ?_, fun h' => ?_⟩
  · obtain ⟨raw, ⟨rfl, hlen⟩, rfl⟩ := h'
    exact ⟨hlen, rfl⟩
  · obtain ⟨hlen, rfl⟩ := h'
    exact ⟨bytes, ⟨rfl, hlen⟩, rfl⟩

theorem reads_entry : Reads readEntry fun e bytes => e.1 :: toBigEndian 4 e.2.toNat = bytes := by
  refine (reads_u8.bind fun byte => reads_u32.bind fun target => .pure (byte, target)).congr fun e bytes => ?_
  refine ⟨fun h' => ?_, fun h' => ?_⟩
  · obtain ⟨byte, _, _, rfl, ⟨target, _, _, rfl, ⟨rfl, rfl⟩, rfl⟩, rfl⟩ := h'
    simp
  · obtain rfl := h'
    exact ⟨e.1, _, _, rfl, ⟨e.2, _, [], rfl, ⟨rfl, rfl⟩, (List.append_nil _).symm⟩, rfl⟩

theorem reads_table : Reads readTable JumpTable.IsForm := by
  have item : Reads readEntry fun e bytes =>
      ∃ x : UInt8 × UInt32, id x = e ∧ x.1 :: toBigEndian 4 x.2.toNat = bytes :=
    reads_entry.congr fun e bytes => by simp
  refine (reads_u16.bind fun count => (item.times count.toNat).bind fun entries =>
    .pure (JumpTable.ofEntries entries.toList)).congr fun table bytes => ?_
  refine ⟨fun h' => ?_, fun h' => ?_⟩
  · obtain ⟨count, _, _, rfl, ⟨_, _, _, ⟨entries, rfl, hlen, rfl⟩, ⟨rfl, rfl⟩, rfl⟩, rfl⟩ := h'
    refine ⟨entries, hlen ▸ count.toNat_lt, JumpTable.lists_iff.2 (by simp), ?_⟩
    rw [hlen, List.append_nil]
  · obtain ⟨entries, hlt, hlists, rfl⟩ := h'
    have hcount : (UInt16.ofNat entries.length).toNat = entries.length := UInt16.toNat_ofNat_of_lt' hlt
    refine ⟨.ofNat entries.length, _, _, rfl,
      ⟨entries.toArray, _, [], ⟨entries, ?_, hcount.symm, rfl⟩, ⟨?_, rfl⟩, rfl⟩, ?_⟩
    · simp
    · exact (JumpTable.lists_iff.1 hlists).symm
    · rw [hcount, List.append_nil]

/-- Operands are read as those of an opcode if one constructor makes all instructions with that opcode. -/
theorem reads_operands_of {α : Type} {r : Read α} {f : α → Bytes → Prop} {op : Opcode} (h : Reads r f)
    (make : α → Instruction) (made : ∀ a, (make a).opcode = op)
    (all : ∀ i : Instruction, i.opcode = op → ∃ a, make a = i)
    (operands : ∀ a bytes, f a bytes ↔ (make a).HasOperands bytes) :
    Reads (make <$> r) fun i bytes => i.opcode = op ∧ i.HasOperands bytes := by
  refine h.map.congr fun i bytes => ?_
  refine ⟨fun h' => ?_, fun h' => ?_⟩
  · obtain ⟨a, hf, rfl⟩ := h'
    exact ⟨made a, (operands a bytes).1 hf⟩
  · obtain ⟨hop, hi⟩ := h'
    obtain ⟨a, rfl⟩ := all i hop
    exact ⟨a, (operands a bytes).2 hi, rfl⟩

/-- No operands are read for an opcode that has only one instruction. -/
theorem reads_operands_none {i : Instruction} {op : Opcode} (only : ∀ j : Instruction, j.opcode = op ↔ j = i)
    (operands : ∀ bytes, i.HasOperands bytes ↔ bytes = []) :
    Reads (pure i) fun j bytes => j.opcode = op ∧ j.HasOperands bytes := by
  refine (Reads.pure i).congr fun j bytes => ?_
  rw [only]
  refine and_congr_right ?_
  rintro rfl
  exact (operands bytes).symm

/-- The operands of an opcode are read as those of an instruction with that opcode. -/
theorem reads_operands (op : Opcode) :
    Reads (readOperands op) fun i bytes => i.opcode = op ∧ i.HasOperands bytes := by
  cases op with
  | exit | ret | fail | failTwice | any | nodeOpen | nodeClose | mark | scopeBegin | scopeEnd =>
    exact reads_operands_none (fun j => by cases j <;> simp [opcode]) fun _ => Iff.rfl
  | jump | call | choice | commit | partialCommit | backCommit =>
    refine reads_operands_of reads_target _ (fun _ => rfl) (fun i hi => ?_) fun _ _ => Iff.rfl
    cases i <;> first | exact ⟨_, rfl⟩ | cases hi
  | charRange =>
    refine (reads_u8.bind fun lo => reads_u8.bind fun hi => .pure (charRange lo hi)).congr fun i bytes => ?_
    refine ⟨fun h' => ?_, fun h' => ?_⟩
    · obtain ⟨lo, _, _, rfl, ⟨hi, _, _, rfl, ⟨rfl, rfl⟩, rfl⟩, rfl⟩ := h'
      exact ⟨rfl, rfl⟩
    · obtain ⟨hop, hbytes⟩ := h'
      cases i with
      | charRange lo hi => exact ⟨lo, [lo], [hi], rfl, ⟨hi, [hi], [], rfl, ⟨rfl, rfl⟩, rfl⟩, hbytes⟩
      | _ => cases hop
  | charSet | notCharSet | optionalCharSet | zeroMoreCharSet =>
    refine reads_operands_of reads_set _ (fun _ => rfl) (fun i hi => ?_) fun _ _ => Iff.rfl
    cases i <;> first | exact ⟨_, rfl⟩ | cases hi
  | string | notString | optionalString =>
    refine reads_operands_of reads_str _ (fun _ => rfl) (fun i hi => ?_) fun _ _ => Iff.rfl
    cases i <;> first | exact ⟨_, rfl⟩ | cases hi
  | mappedChoice =>
    refine reads_operands_of reads_table _ (fun _ => rfl) (fun i hi => ?_) fun _ _ => Iff.rfl
    cases i <;> first | exact ⟨_, rfl⟩ | cases hi
  | tag | value | define | is | isa =>
    refine reads_operands_of reads_utf8 _ (fun _ => rfl) (fun i hi => ?_) fun _ _ => Iff.rfl
    cases i <;> first | exact ⟨_, rfl⟩ | cases hi

/-- An instruction is read from its opcode's byte and its operands. -/
theorem reads_instruction : Reads Instruction.read fun i bytes =>
    ∃ r : Record, r.instruction = i ∧ r.bytes = bytes := by
  refine .get fun s => ?_
  refine (reads_u8.bind (g := fun byte i bytes => i.opcode.byte = byte ∧ i.HasOperands bytes)
    fun byte => ?_).congr fun i bytes => ?_
  -- A byte is the opcode of at most one kind of instruction, or of none.
  · cases hop : Opcode.ofByte? byte with
    | some op =>
      refine (reads_operands op).congr fun i bytes => and_congr_left fun _ => ?_
      obtain rfl := Opcode.ofByte?_eq_some_iff.1 hop
      constructor
      · exact congrArg Opcode.byte
      · intro hbyte
        rw [← hbyte, Opcode.ofByte?_byte] at hop
        exact Option.some.inj hop
    | none =>
      refine (Reads.throw _).congr fun i bytes => ?_
      constructor
      · exact False.elim
      · intro h'
        rw [← h'.1, Opcode.ofByte?_byte] at hop
        cases hop
  · refine ⟨fun h' => ?_, fun h' => ?_⟩
    · obtain ⟨byte, _, operands, rfl, ⟨rfl, hi⟩, rfl⟩ := h'
      exact ⟨⟨i, operands, hi⟩, rfl, rfl⟩
    · obtain ⟨r, rfl, rfl⟩ := h'
      exact ⟨_, _, r.operands, rfl, ⟨rfl, r.valid⟩, rfl⟩

end Instruction

/-! ## Reading the header and the program -/

open Reader

theorem reads_short {wanted : String} :
    Reads (str wanted) fun text bytes => ∃ w : ShortBytes, w.bytes = text ∧ w.form = bytes := by
  refine reads_str.congr fun text bytes => ?_
  refine ⟨fun h' => ?_, fun h' => ?_⟩
  · obtain ⟨fits, rfl⟩ := h'
    exact ⟨⟨text, fits⟩, rfl, rfl⟩
  · obtain ⟨w, rfl, rfl⟩ := h'
    exact ⟨w.fits, rfl⟩

theorem reads_rule : Reads Rule.read fun rule bytes => ∃ e : RuleEntry, e.rule = rule ∧ e.bytes = bytes := by
  refine (reads_short.bind fun name => reads_u64.bind fun start =>
    .pure (Rule.mk (Text.decodeLossy name) start)).congr fun rule bytes => ?_
  refine ⟨fun h' => ?_, fun h' => ?_⟩
  · obtain ⟨_, _, _, ⟨name, rfl, rfl⟩, ⟨start, _, _, rfl, ⟨rfl, rfl⟩, rfl⟩, rfl⟩ := h'
    exact ⟨⟨name, start⟩, rfl, by rw [List.append_nil]; rfl⟩
  · obtain ⟨e, rfl, rfl⟩ := h'
    exact ⟨_, _, _, ⟨e.name, rfl, rfl⟩, ⟨e.start, _, [], rfl, ⟨rfl, rfl⟩, (List.append_nil _).symm⟩, rfl⟩

/-- The rules and the instruction count, behind the fields that do not vary in number. -/
theorem reads_rules (version : Version) (fileName : String) (hint : UInt32) :
    Reads (do
      let ruleCount ← u32 "rule count"
      let rules ← times ruleCount.toNat Rule.read
      let count ← u64 "instruction count"
      pure (Header.mk version fileName hint rules count)) fun h bytes =>
    ∃ (rules : List RuleEntry) (count : UInt64), rules.length < UInt32.size ∧
      h = ⟨version, fileName, hint, (rules.map RuleEntry.rule).toArray, count⟩ ∧
      bytes = toBigEndian 4 rules.length ++ rules.flatMap RuleEntry.bytes ++ toBigEndian 8 count.toNat := by
  refine (reads_u32.bind fun ruleCount => (reads_rule.times ruleCount.toNat).bind fun rules =>
    reads_u64.bind fun count => .pure (Header.mk version fileName hint rules count)).congr fun h bytes => ?_
  refine ⟨fun h' => ?_, fun h' => ?_⟩
  · obtain ⟨ruleCount, _, _, rfl, ⟨_, _, _, ⟨rules, rfl, hlen, rfl⟩, counted, rfl⟩, rfl⟩ := h'
    obtain ⟨count, _, _, rfl, ⟨rfl, rfl⟩, rfl⟩ := counted
    refine ⟨rules, count, hlen ▸ ruleCount.toNat_lt, rfl, ?_⟩
    rw [hlen, List.append_nil, List.append_assoc]
  · obtain ⟨rules, count, fits, rfl, rfl⟩ := h'
    have hcount : (UInt32.ofNat rules.length).toNat = rules.length := UInt32.toNat_ofNat_of_lt' fits
    refine ⟨.ofNat rules.length, _, _, rfl, ⟨_, _, _, ⟨rules, rfl, hcount.symm, rfl⟩,
      ⟨count, _, [], rfl, ⟨rfl, rfl⟩, rfl⟩, rfl⟩, ?_⟩
    rw [hcount, List.append_nil, List.append_assoc]

theorem reads_header : Reads Header.read fun h bytes =>
    ∃ (p : Preamble) (count : UInt64), p.header count = h ∧ p.bytes ++ toBigEndian 8 count.toNat = bytes := by
  refine (reads_u8.bind fun major => reads_u8.bind fun minor => reads_short.bind fun fileName =>
    reads_u32.bind fun hint => reads_rules ⟨major, minor⟩ (Text.decodeLossy fileName) hint).congr fun h bytes => ?_
  refine ⟨fun h' => ?_, fun h' => ?_⟩
  · obtain ⟨major, _, _, rfl, ⟨minor, _, _, rfl, ⟨_, _, _, ⟨fileName, rfl, rfl⟩, ⟨hint, _, _, rfl,
      ⟨rules, count, fits, rfl, rfl⟩, rfl⟩, rfl⟩, rfl⟩, rfl⟩ := h'
    refine ⟨⟨⟨major, minor⟩, fileName, hint, rules, fits⟩, count, rfl, ?_⟩
    simp [Preamble.bytes]
  · obtain ⟨p, count, rfl, rfl⟩ := h'
    refine ⟨p.version.major, _, _, rfl, ⟨p.version.minor, _, _, rfl, ⟨_, _, _, ⟨p.fileName, rfl, rfl⟩,
      ⟨p.poolSizeHint, _, _, rfl, ⟨p.rules, count, p.rulesFit, rfl, rfl⟩, rfl⟩, rfl⟩, rfl⟩, ?_⟩
    simp [Preamble.bytes]

/-- The header is refused in a version that the options do not let through. -/
theorem reads_readHeader (options : LoadOptions) : Reads (readHeader options) fun h bytes =>
    ∃ (p : Preamble) (count : UInt64), options.accepts p.version = true ∧ p.header count = h ∧
      p.bytes ++ toBigEndian 8 count.toNat = bytes := by
  have hk : ∀ h : Header, Reads (if options.accepts h.version then pure h
      else throw (.unsupportedVersion h.version.major h.version.minor)) fun h' bytes =>
      options.accepts h.version = true ∧ h' = h ∧ bytes = [] := by
    intro h
    split
    · next ok => exact (Reads.pure h).congr fun h' bytes => by simp [ok]
    · next bad => exact (Reads.throw _).congr fun h' bytes => by simp [bad]
  refine (reads_header.bind hk).congr fun h bytes => ?_
  refine ⟨fun h' => ?_, fun h' => ?_⟩
  · obtain ⟨_, _, _, ⟨p, count, rfl, rfl⟩, ⟨ok, rfl, rfl⟩, rfl⟩ := h'
    exact ⟨p, count, ok, rfl, (List.append_nil _).symm⟩
  · obtain ⟨p, count, ok, rfl, rfl⟩ := h'
    exact ⟨_, _, [], ⟨p, count, rfl, rfl⟩, ⟨ok, rfl, rfl⟩, (List.append_nil _).symm⟩

theorem reads_program (options : LoadOptions) : Reads (readProgram options) fun loaded bytes =>
    ∃ (p : Preamble) (records : List Record), records.length < UInt64.size ∧ options.accepts p.version = true ∧
      loaded = (p.header (.ofNat records.length), (records.map Record.instruction).toArray) ∧
      bytes = p.bytes ++ toBigEndian 8 records.length ++ records.flatMap Record.bytes := by
  refine ((reads_readHeader options).bind fun header =>
    (Instruction.reads_instruction.times header.instructionCount.toNat).bind fun code =>
    .pure (header, code)).congr fun loaded bytes => ?_
  refine ⟨fun h' => ?_, fun h' => ?_⟩
  · obtain ⟨_, _, _, ⟨p, count, ok, rfl, rfl⟩, ⟨_, _, _, ⟨records, rfl, hlen, rfl⟩, ⟨rfl, rfl⟩, rfl⟩, rfl⟩ := h'
    have hlen : records.length = count.toNat := hlen
    refine ⟨p, records, hlen ▸ count.toNat_lt, ok, ?_, ?_⟩
    · rw [hlen, UInt64.ofNat_toNat]
    · rw [hlen, List.append_nil]
  · obtain ⟨p, records, hfit, ok, rfl, rfl⟩ := h'
    have hcount : (UInt64.ofNat records.length).toNat = records.length := UInt64.toNat_ofNat_of_lt' hfit
    refine ⟨_, _, _, ⟨p, .ofNat records.length, ok, rfl, rfl⟩,
      ⟨_, _, [], ⟨records, rfl, hcount.symm, rfl⟩, ⟨rfl, rfl⟩, rfl⟩, ?_⟩
    rw [hcount, List.append_nil]

/-! ## Loading -/

theorem strayTarget?_eq_none_iff {code : Array Instruction} :
    strayTarget? code = none ↔ ∀ i ∈ code.toList, ∀ t ∈ i.targets, t < code.size := by
  have hfst : code.toList = code.toList.zipIdx.map Prod.fst := (List.zipIdx_map_fst 0 code.toList).symm
  rw [hfst, List.forall_mem_map, strayTarget?, List.findSome?_eq_none_iff]
  refine forall₂_congr fun x _ => ?_
  simp [List.find?_eq_none]

namespace Layout

/-- Runs from the named rule start at `start`, and no target leads outside the program. -/
structure Loads (l : Layout) (rule? : Option String) (start : UInt64) : Prop where
  starts : StartsAt (l.rules.map RuleEntry.rule) rule? start
  startInside : start.toNat < l.records.length
  targetsInside : ∀ i ∈ l.code, ∀ t ∈ i.targets, t < l.records.length

/-- What is loaded from the bytes of the layout. -/
def loaded (l : Layout) (start : UInt64) : Loaded where
  header := l.header (.ofNat l.records.length)
  program := .ofList l.code
  startPoint := start.toNat
  trailing := l.trailing.length

end Layout

theorem load_eq_ok_of_run {options : LoadOptions} {bytes : Bytes} {rule? : Option String} {loaded : Loaded} :
    load options bytes rule? = .ok loaded ↔ ∃ header code rest,
      (readProgram options).run (.ofBytes bytes) = .ok (header, code) rest ∧ strayTarget? code = none ∧
      (header.startPoint rule?).toNat < code.size ∧
      loaded = ⟨header, ⟨code⟩, (header.startPoint rule?).toNat, rest.remaining⟩ := by
  rw [load]
  split
  · next error _ hrun =>
    constructor
    · exact nofun
    · intro h'
      obtain ⟨header, code, rest, hrun', -⟩ := h'
      rw [hrun] at hrun'
      cases hrun'
  · next header code rest hrun =>
    -- What is left after the read are the two checks.
    have hload : ∀ result : Loaded, (do
        checkTargets code
        checkStart (header.startPoint rule?).toNat code.size
        pure result : Except LoadError Loaded) = .ok loaded ↔
        strayTarget? code = none ∧ (header.startPoint rule?).toNat < code.size ∧ result = loaded := by
      intro result
      rw [checkTargets, checkStart]
      cases strayTarget? code with
      | some error => simp [bind, Except.bind]
      | none =>
        by_cases hstart : (header.startPoint rule?).toNat < code.size <;>
          simp [hstart, bind, Except.bind, pure, Except.pure]
    rw [hload]
    refine ⟨fun h' => ?_, fun h' => ?_⟩
    · obtain ⟨htargets, hstart, rfl⟩ := h'
      exact ⟨header, code, rest, hrun, htargets, hstart, rfl⟩
    · obtain ⟨header', code', rest', hrun', htargets, hstart, rfl⟩ := h'
      rw [hrun] at hrun'
      cases hrun'
      exact ⟨htargets, hstart, rfl⟩

theorem load_eq_ok {options : LoadOptions} {bytes : Bytes} {rule? : Option String} {loaded : Loaded} :
    load options bytes rule? = .ok loaded ↔ ∃ (l : Layout) (start : UInt64), l.bytes = bytes ∧
      options.accepts l.version = true ∧ l.Loads rule? start ∧ l.loaded start = loaded := by
  rw [load_eq_ok_of_run]
  refine ⟨fun h' => ?_, fun h' => ?_⟩
  · obtain ⟨header, code, rest, hrun, htargets, hstart, rfl⟩ := h'
    obtain ⟨_, ⟨p, records, fits, ok, hloaded, rfl⟩, hrest, -⟩ := (reads_program options _ _ _).1 hrun
    obtain ⟨rfl, rfl⟩ := Prod.mk.inj hloaded
    -- What the read leaves is what follows the last record.
    refine ⟨⟨p, records, fits, rest.rest⟩, _, hrest.symm, ok,
      ⟨startsAt_startPoint (p.header _) rule?, ?_, ?_⟩, rfl⟩
    · simpa using hstart
    · simpa [Layout.code] using strayTarget?_eq_none_iff.1 htargets
  · obtain ⟨l, start, rfl, ok, hloads, rfl⟩ := h'
    have hrun := (reads_program options (l.header (.ofNat l.records.length), l.code.toArray) (.ofBytes l.bytes)
      ⟨0 + _, l.trailing⟩).2 ⟨_, ⟨l.toPreamble, l.records, l.recordsFit, ok, rfl, rfl⟩, rfl, rfl⟩
    have hstart : (l.header (.ofNat l.records.length)).startPoint rule? = start := startsAt_iff.1 hloads.starts
    refine ⟨_, _, _, hrun, strayTarget?_eq_none_iff.2 ?_, ?_, ?_⟩
    · simpa [Layout.code] using hloads.targetsInside
    · rw [hstart]
      simpa [Layout.code] using hloads.startInside
    · rw [hstart]
      rfl

/-! ## Taking apart in one way -/

/-- Bytes begin with the form of at most one value, so it can be told where the form ends. -/
def Delimited {α : Type} (form : α → Bytes) : Prop :=
  ∀ a b rest rest', form a ++ rest = form b ++ rest' → a = b ∧ rest = rest'

theorem delimited_short : Delimited ShortBytes.form := by
  intro w w' rest rest' h
  obtain ⟨hbytes, -, hrest⟩ := (@reads_short "").unique ⟨w, rfl, rfl⟩ ⟨w', rfl, rfl⟩ h
  obtain ⟨bytes, fits⟩ := w
  obtain ⟨bytes', fits'⟩ := w'
  obtain rfl : bytes = bytes' := hbytes
  exact ⟨rfl, hrest⟩

theorem delimited_rule : Delimited RuleEntry.bytes := by
  intro e e' rest rest' h
  obtain ⟨name, start⟩ := e
  obtain ⟨name', start'⟩ := e'
  simp only [RuleEntry.bytes, List.append_assoc] at h
  obtain ⟨rfl, hstart⟩ := delimited_short _ _ _ _ h
  obtain ⟨rfl, -, hrest⟩ := (@reads_u64 "").unique rfl rfl hstart
  exact ⟨rfl, hrest⟩

theorem delimited_record : Delimited Record.bytes := by
  intro r r' rest rest' h
  obtain ⟨i, operands, valid⟩ := r
  obtain ⟨i', operands', valid'⟩ := r'
  obtain ⟨rfl, hbytes, hrest⟩ :=
    Instruction.reads_instruction.unique ⟨⟨i, operands, valid⟩, rfl, rfl⟩ ⟨⟨i', operands', valid'⟩, rfl, rfl⟩ h
  obtain ⟨-, rfl⟩ := List.cons.inj hbytes
  exact ⟨rfl, hrest⟩

/-- As many forms, one after the other. -/
theorem Delimited.flatMap {α : Type} {form : α → Bytes} (hform : Delimited form) {xs ys : List α}
    {rest rest' : Bytes} (hlen : xs.length = ys.length)
    (h : xs.flatMap form ++ rest = ys.flatMap form ++ rest') : xs = ys ∧ rest = rest' := by
  induction xs generalizing ys with
  | nil =>
    obtain rfl := List.eq_nil_of_length_eq_zero hlen.symm
    exact ⟨rfl, h⟩
  | cons x xs ih =>
    obtain ⟨y, ys, rfl⟩ := List.exists_cons_of_length_eq_add_one hlen.symm
    rw [List.flatMap_cons, List.flatMap_cons, List.append_assoc, List.append_assoc] at h
    obtain ⟨rfl, htail⟩ := hform _ _ _ _ h
    obtain ⟨rfl, hrest⟩ := ih (Nat.succ.inj hlen) htail
    exact ⟨rfl, hrest⟩

theorem delimited_preamble : Delimited Preamble.bytes := by
  intro p p' rest rest' h
  obtain ⟨⟨major, minor⟩, fileName, hint, rules, fits⟩ := p
  obtain ⟨⟨major', minor'⟩, fileName', hint', rules', fits'⟩ := p'
  simp only [Preamble.bytes, List.append_assoc, List.cons_append, List.nil_append, List.cons.injEq] at h
  obtain ⟨rfl, rfl, hname⟩ := h
  obtain ⟨rfl, hhint⟩ := delimited_short _ _ _ _ hname
  obtain ⟨rfl, -, hcount⟩ := (@reads_u32 "").unique rfl rfl hhint
  obtain ⟨hlen, -, hrules⟩ := (@reads_number "" 4).unique ⟨fits, rfl⟩ ⟨fits', rfl⟩ hcount
  obtain ⟨rfl, hrest⟩ := delimited_rule.flatMap hlen hrules
  exact ⟨rfl, hrest⟩

namespace Layout

/-- A byte string can be taken apart in at most one way. -/
theorem bytes_injective : Function.Injective Layout.bytes := by
  intro l l' h
  obtain ⟨p, records, fits, trailing⟩ := l
  obtain ⟨p', records', fits', trailing'⟩ := l'
  simp only [Layout.bytes, List.append_assoc] at h
  obtain ⟨rfl, hcount⟩ := delimited_preamble _ _ _ _ h
  obtain ⟨hlen, -, hrecords⟩ := (@reads_number "" 8).unique ⟨fits, rfl⟩ ⟨fits', rfl⟩ hcount
  obtain ⟨rfl, rfl⟩ := delimited_record.flatMap hlen hrecords
  rfl

end Layout

/-! ## Versions -/

theorem accepts_iff {options : LoadOptions} {version : Version} :
    options.accepts version = true ↔ (options.strictVersion = true → version = .current) := by
  cases h : options.strictVersion <;> simp [LoadOptions.accepts, h]

/-- The header of bytes that begin with the current version has that version. -/
theorem version_of_current {rest : Bytes} {h : Header} {after : Reader}
    (hrun : Header.read.run (.ofBytes (0 :: 1 :: rest)) = .ok h after) : h.version = .current := by
  obtain ⟨_, ⟨p, count, rfl, rfl⟩, hrest, -⟩ := (reads_header _ _ _).1 hrun
  obtain ⟨⟨major, minor⟩, fileName, hint, rules, fits⟩ := p
  simp only [Reader.ofBytes, Preamble.bytes, List.append_assoc, List.cons_append, List.cons.injEq] at hrest
  obtain ⟨rfl, rfl, -⟩ := hrest
  rfl

theorem run_readHeader_of_current (options : LoadOptions) (rest : Bytes) :
    (readHeader options).run (.ofBytes (0 :: 1 :: rest)) = Header.read.run (.ofBytes (0 :: 1 :: rest)) := by
  rw [readHeader, EStateM.run_bind]
  cases hrun : Header.read.run (.ofBytes (0 :: 1 :: rest)) with
  | error => rfl
  | ok h after =>
    have ok : options.accepts h.version = true := accepts_iff.2 fun _ => version_of_current hrun
    simp [ok]

theorem load_strict_eq_lenient (config : Config) (rest : Bytes) (rule? : Option String) :
    load ⟨true, config⟩ (0 :: 1 :: rest) rule? = load ⟨false, config⟩ (0 :: 1 :: rest) rule? := by
  have hrun : (readProgram ⟨true, config⟩).run (.ofBytes (0 :: 1 :: rest)) =
      (readProgram ⟨false, config⟩).run (.ofBytes (0 :: 1 :: rest)) := by
    rw [readProgram, readProgram, EStateM.run_bind, EStateM.run_bind, run_readHeader_of_current,
      run_readHeader_of_current]
  rw [load, load, hrun]

/-- **The loader accepts exactly the format.** A load succeeds exactly on the bytes of a layout, in the
    current version if the options are strict, whose targets and start point are inside the program; and
    then it gives the layout's instructions and start point. No byte string has two layouts. Being strict
    makes no difference to bytes in the current version. -/
theorem load_iff :
    (∀ options bytes rule? loaded, load options bytes rule? = .ok loaded ↔
      ∃ (l : Layout) (start : UInt64), l.bytes = bytes ∧
        (options.strictVersion = true → l.version = ⟨0, 1⟩) ∧ l.Loads rule? start ∧ l.loaded start = loaded) ∧
    Function.Injective Layout.bytes ∧
    (∀ config rest rule?,
      load ⟨true, config⟩ (0 :: 1 :: rest) rule? = load ⟨false, config⟩ (0 :: 1 :: rest) rule?) := by
  refine ⟨fun options bytes rule? loaded => ?_, Layout.bytes_injective, load_strict_eq_lenient⟩
  rw [load_eq_ok]
  simp only [accepts_iff]
  rfl

/-- A jump table that lists the byte 97 twice, behind the reserved instruction and with a byte left over. -/
def repeated : Layout where
  version := ⟨0, 1⟩
  fileName := ⟨[], by decide⟩
  poolSizeHint := 7
  rules := [⟨⟨[65], by decide⟩, 1⟩]
  rulesFit := by decide
  records := [⟨.exit, [], rfl⟩,
    ⟨.mappedChoice (.ofEntries [(97, 0), (97, 1)]), [0, 2, 97, 0, 0, 0, 0, 97, 0, 0, 0, 1],
      [(97, 0), (97, 1)], by decide, JumpTable.lists_ofEntries _, rfl⟩]
  recordsFit := by decide
  trailing := [255]

theorem load_iff_repeated : ∃ loaded, load ⟨true, {}⟩ repeated.bytes (some "A") = .ok loaded ∧
    loaded.startPoint = 1 ∧ loaded.trailing = 1 ∧
    loaded.program = .ofList [.exit, .mappedChoice (.ofEntries [(97, 1)])] := by
  have hname : Text.decodeLossy [65] = "A" := Text.decodeLossy_encode "A"
  have starts : StartsAt (repeated.rules.map RuleEntry.rule) (some "A") 1 :=
    hname ▸ .named [] [] (Text.decodeLossy [65]) 1 (by simp) (by decide)
  have targets : ∀ i ∈ repeated.code, ∀ t ∈ i.targets, t < 2 := by
    intro i hi t ht
    simp only [repeated, Layout.code, List.map_cons, List.map_nil, List.mem_cons, List.not_mem_nil,
      or_false] at hi
    rcases hi with rfl | rfl
    · cases ht
    · obtain ⟨⟨b, target⟩, hmem, rfl⟩ := List.mem_map.1 ht
      have hget := (JumpTable.lists_ofEntries _ b).symm.trans (JumpTable.mem_entries.1 hmem)
      cases h : b == 97 <;> simp [List.lookup_cons, h] at hget
      simp [← hget]
  have loads : repeated.Loads (some "A") 1 := ⟨starts, by decide, targets⟩
  have hload := (load_iff.1 ⟨true, {}⟩ repeated.bytes (some "A") (repeated.loaded 1)).2
    ⟨repeated, 1, rfl, fun _ => rfl, loads, rfl⟩
  have last : JumpTable.ofEntries [(97, 0), (97, 1)] = .ofEntries [(97, 1)] := by
    refine JumpTable.lists_iff.1 fun b => ?_
    rw [JumpTable.lists_ofEntries]
    cases h : b == 97 <;> simp [List.lookup_cons, h]
  exact ⟨_, hload, rfl, rfl, by rw [← last]; rfl⟩

end PegMachine
