import PegMachine.Proofs.Bytecode.Acceptance
/-!
  Bytecode that is cut off or continued.

  A load looks at as many bytes as it reads and at nothing behind them. Where a read is missing bytes it says
  where the bytes end, and nothing that is read before it can come out differently. What is proved:
    1. `Reads.append`: a read that succeeds gives the same if its bytes go on;
    2. `Steady`: a read that fails says that the bytes end where they do, or fails in the same way however they go
       on. There is one lemma for each way to put reads together, and one for each read of the loader;
    3. `load_append_of_ok`, `load_append_of_error`: so a load whose bytes go on finds the same, unless it said that
       they were cut off;
    4. `load_depends_on_read`: the bytes that a load reads, and no fewer, decide what it finds.
-/
namespace PegMachine

variable {α β : Type} {r : Read α} {f : α → Bytes → Prop}

/-- The reader with more bytes behind what is left. -/
def Reader.append (r : Reader) (more : Bytes) : Reader := { r with rest := r.rest ++ more }

/-! ## Reads that succeed -/

namespace Reads

/-- The value of a read does not depend on what follows the bytes that were read. -/
theorem append (h : Reads r f) {a : α} {before after : Reader} (ok : r.run before = .ok a after) (more : Bytes) :
    r.run (before.append more) = .ok a (after.append more) := by
  obtain ⟨bytes, hf, hrest, hpos⟩ := (h a before after).1 ok
  refine (h a _ _).2 ⟨bytes, hf, ?_, hpos⟩
  rw [Reader.append, Reader.append, hrest, List.append_assoc]

end Reads

/-! ## Reads that fail -/

/-- A failure of the read is that the bytes end where they do, or it is the same whatever follows them. -/
def Steady (r : Read α) : Prop :=
  ∀ before error after, r.run before = .error error after →
    (∃ wanted, error = .truncated before.stop wanted) ∨
      ∀ more, ∃ after', r.run (before.append more) = .error error after'

namespace Steady

theorem pure (a : α) : Steady (pure a) := nofun

theorem throw (error : LoadError) : Steady (throw error : Read α) := by
  intro before error' after h
  cases h
  exact .inr fun more => ⟨before.append more, rfl⟩

theorem bind {k : α → Read β} (reads : Reads r f) (h : Steady r) (hk : ∀ a, Steady (k a)) : Steady (r >>= k) := by
  intro before error after hbind
  rw [EStateM.run_bind] at hbind
  cases hr : r.run before with
  | error error' mid =>
    simp only [hr] at hbind
    cases hbind
    refine (h before error after hr).imp_right fun same more => ?_
    obtain ⟨after', hafter⟩ := same more
    exact ⟨after', by simp only [EStateM.run_bind, hafter]⟩
  | ok a mid =>
    simp only [hr] at hbind
    rw [← reads.stop_eq hr]
    refine (hk a mid error after hbind).imp_right fun same more => ?_
    obtain ⟨after', hafter⟩ := same more
    exact ⟨after', by simp only [EStateM.run_bind, reads.append hr more, hafter]⟩

theorem map {φ : α → β} (h : Steady r) : Steady (φ <$> r) := by
  intro before error after hmap
  rw [map_eq_pure_bind, EStateM.run_bind] at hmap
  cases hr : r.run before with
  | error error' mid =>
    simp only [hr] at hmap
    cases hmap
    refine (h before error after hr).imp_right fun same more => ?_
    obtain ⟨after', hafter⟩ := same more
    exact ⟨after', by simp only [map_eq_pure_bind, EStateM.run_bind, hafter]⟩
  | ok a mid =>
    simp only [hr] at hmap
    cases hmap

/-- A read that looks at nothing of the reader but how many bytes were read. -/
theorem get {k : Reader → Read α} (hk : ∀ s, Steady (k s)) (same : ∀ s more, k (s.append more) = k s) :
    Steady (get >>= k) := by
  intro before error after h
  have h : (k before).run before = .error error after := h
  refine (hk before before error after h).imp_right fun rest more => ?_
  obtain ⟨after', hafter⟩ := rest more
  refine ⟨after', ?_⟩
  show (k (before.append more)).run (before.append more) = _
  rw [same, hafter]

theorem timesFrom (reads : Reads r f) (h : Steady r) (count : Nat) (items : Array α) :
    Steady (Reader.timesFrom r count items) := by
  induction count generalizing items with
  | zero => exact .pure items
  | succ count ih => exact h.bind reads fun a => ih (items.push a)

theorem times (reads : Reads r f) (h : Steady r) (count : Nat) : Steady (Reader.times count r) :=
  h.timesFrom reads count #[]

end Steady

namespace Reader

variable {wanted : String}

/-- Bytes can only be missing because there are no more. -/
theorem steady_bytes (count : Nat) : Steady (bytes count wanted) := by
  intro before error after h
  have run_bytes : (bytes count wanted).run before =
      if (before.rest.take count).length = count then
        .ok (before.rest.take count) ⟨before.pos + count, before.rest.drop count⟩
      else .error (.truncated before.stop wanted) before := rfl
  rw [run_bytes] at h
  split at h
  · cases h
  · cases h
    exact .inl ⟨wanted, rfl⟩

theorem steady_number (width : Nat) : Steady (number width wanted) := (steady_bytes width).map

theorem steady_u8 : Steady (u8 wanted) := (steady_number 1).map

theorem steady_u16 : Steady (u16 wanted) := (steady_number 2).map

theorem steady_u32 : Steady (u32 wanted) := (steady_number 4).map

theorem steady_u64 : Steady (u64 wanted) := (steady_number 8).map

theorem steady_str : Steady (str wanted) := steady_u32.bind reads_u32 fun length => steady_bytes length.toNat

/-- Text that is not UTF-8 is all there, so it is refused whatever follows it. -/
theorem steady_utf8 : Steady (utf8 wanted) := by
  refine .get (fun s => ?_) fun _ _ => rfl
  refine steady_str.bind reads_str fun text => ?_
  cases Text.decode? text with
  | some text => exact .pure text
  | none => exact .throw _

end Reader

/-! ## The reads of the loader -/

open Reader

namespace Instruction

theorem steady_entry : Steady readEntry :=
  steady_u8.bind reads_u8 fun byte => steady_u32.bind reads_u32 fun target => .pure (byte, target)

theorem steady_table : Steady readTable := by
  refine steady_u16.bind reads_u16 fun count => ?_
  have items : Reads readEntry fun e bytes =>
      ∃ x : UInt8 × UInt32, id x = e ∧ x.1 :: toBigEndian 4 x.2.toNat = bytes :=
    reads_entry.congr fun e bytes => by simp
  exact (steady_entry.times reads_entry count.toNat).bind (items.times count.toNat) fun _ => .pure _

theorem steady_operands (op : Opcode) : Steady (readOperands op) := by
  cases op with
  | exit | ret | fail | failTwice | any | nodeOpen | nodeClose | mark | scopeBegin | scopeEnd => exact .pure _
  | jump | call | choice | commit | partialCommit | backCommit => exact steady_u32.map.map
  | charRange => exact steady_u8.bind reads_u8 fun lo => steady_u8.bind reads_u8 fun hi => .pure (charRange lo hi)
  | charSet | notCharSet | optionalCharSet | zeroMoreCharSet => exact (steady_bytes _).map.map
  | string | notString | optionalString => exact steady_str.map
  | mappedChoice => exact steady_table.map
  | tag | value | define | is | isa => exact steady_utf8.map

theorem steady_read : Steady Instruction.read := by
  refine .get (fun s => ?_) fun _ _ => rfl
  refine steady_u8.bind reads_u8 fun byte => ?_
  cases Opcode.ofByte? byte with
  | some op => exact steady_operands op
  | none => exact .throw _

end Instruction

theorem steady_rule : Steady Rule.read :=
  steady_str.bind reads_str fun name => steady_u64.bind reads_u64 fun start =>
    .pure (Rule.mk (Text.decodeLossy name) start)

theorem steady_header : Steady Header.read :=
  steady_u8.bind reads_u8 fun _ => steady_u8.bind reads_u8 fun _ => steady_str.bind reads_str fun _ =>
    steady_u32.bind reads_u32 fun _ => steady_u32.bind reads_u32 fun ruleCount =>
      (steady_rule.times reads_rule ruleCount.toNat).bind (reads_rule.times ruleCount.toNat) fun _ =>
        steady_u64.bind reads_u64 fun _ => .pure _

theorem steady_readHeader (options : LoadOptions) : Steady (readHeader options) := by
  refine steady_header.bind reads_header fun header => ?_
  split
  · exact .pure header
  · exact .throw _

theorem steady_program (options : LoadOptions) : Steady (readProgram options) :=
  (steady_readHeader options).bind (reads_readHeader options) fun header =>
    (Instruction.steady_read.times Instruction.reads_instruction header.instructionCount.toNat).bind
      (Instruction.reads_instruction.times header.instructionCount.toNat) fun code => .pure (header, code)

/-! ## Loads -/

section

variable {options : LoadOptions} {bytes : Bytes} {rule? : Option String}

/-- A load that succeeds finds the same if the bytes go on; there is only more that it ignores. -/
theorem load_append_of_ok {l : Loaded} (h : load options bytes rule? = .ok l) (more : Bytes) :
    load options (bytes ++ more) rule? = .ok { l with trailing := l.trailing + more.length } := by
  obtain ⟨header, code, rest, hrun, htargets, hstart, rfl⟩ := load_eq_ok_of_run.1 h
  refine load_eq_ok_of_run.2 ⟨header, code, rest.append more, ?_, htargets, hstart, ?_⟩
  · exact (reads_program options).append hrun more
  · rw [Reader.remaining, Reader.remaining, Reader.append, List.length_append]

/-- A load that fails says that the bytes end where they do, or it fails in the same way however they go on. -/
theorem load_append_of_error {error : LoadError} (h : load options bytes rule? = .error error) :
    (∃ wanted, error = .truncated bytes.length wanted) ∨
      ∀ more, load options (bytes ++ more) rule? = .error error := by
  cases hrun : (readProgram options).run (.ofBytes bytes) with
  | error error' after =>
    rw [load, hrun] at h
    cases h
    rcases steady_program options _ _ _ hrun with ⟨wanted, rfl⟩ | same
    · exact .inl ⟨wanted, by rw [Reader.stop, Reader.ofBytes, Reader.remaining, Nat.zero_add]⟩
    · refine .inr fun more => ?_
      obtain ⟨after', hafter⟩ := same more
      rw [load, show Reader.ofBytes (bytes ++ more) = (Reader.ofBytes bytes).append more from rfl, hafter]
  | ok read rest =>
    obtain ⟨header, code⟩ := read
    refine .inr fun more => ?_
    have hmore := (reads_program options).append hrun more
    -- Everything was read, so it is one of the checks that fails, and it looks at nothing else.
    rw [load, hrun] at h
    rw [load, show Reader.ofBytes (bytes ++ more) = (Reader.ofBytes bytes).append more from rfl, hmore]
    cases htargets : checkTargets code with
    | error error' =>
      simp only [htargets] at h ⊢
      exact h
    | ok =>
      cases hstart : checkStart (header.startPoint rule?).toNat code.size with
      | error error' =>
        simp only [htargets, hstart] at h ⊢
        exact h
      | ok =>
        simp only [htargets, hstart] at h
        cases h

/-- What is ignored can be replaced by anything. -/
theorem load_replace {l : Loaded} (h : load options bytes rule? = .ok l) :
    ∃ front back, bytes = front ++ back ∧ l.trailing = back.length ∧
      ∀ other, load options (front ++ other) rule? = .ok { l with trailing := other.length } := by
  obtain ⟨header, code, rest, hrun, htargets, hstart, rfl⟩ := load_eq_ok_of_run.1 h
  obtain ⟨front, hfront, hrest, hpos⟩ := (reads_program options _ _ _).1 hrun
  refine ⟨front, rest.rest, hrest, rfl, fun other => ?_⟩
  exact load_eq_ok_of_run.2 ⟨header, code, ⟨rest.pos, other⟩,
    (reads_program options _ _ _).2 ⟨front, hfront, rfl, hpos⟩, htargets, hstart, rfl⟩

/-- A load that is missing some of the bytes that it would read says that they are cut off. -/
theorem load_take {l : Loaded} (h : load options bytes rule? = .ok l) {k : Nat}
    (short : k + l.trailing < bytes.length) :
    ∃ wanted, load options (bytes.take k) rule? = .error (.truncated k wanted) := by
  have hlength : (bytes.take k).length = k := List.length_take_of_le (by omega)
  cases hk : load options (bytes.take k) rule? with
  | ok l' =>
    -- With the rest put back it would ignore all of the rest.
    have hall := load_append_of_ok hk (bytes.drop k)
    rw [List.take_append_drop, h, Except.ok.injEq] at hall
    have htrailing : l.trailing = l'.trailing + (bytes.drop k).length := congrArg Loaded.trailing hall
    rw [List.length_drop] at htrailing
    omega
  | error error =>
    rcases load_append_of_error hk with ⟨wanted, rfl⟩ | same
    · exact ⟨wanted, by rw [hlength]⟩
    · have hall := same (bytes.drop k)
      rw [List.take_append_drop, h] at hall
      cases hall

end

/-- **A load depends on the bytes that it reads, and on all of them.** If a load accepts bytes and `n` of them are
    read, then a load of fewer of them says that they are cut off, and where. Whatever else follows the `n` bytes,
    the same program is loaded into the same context. And if a load refuses bytes, and not because they are cut
    off, it refuses them for the same reason whatever follows them. -/
theorem load_depends_on_read (options : LoadOptions) (bytes : Bytes) (rule? : Option String) :
    (∀ l, load options bytes rule? = .ok l → ∃ n, n + l.trailing = bytes.length ∧
      (∀ k < n, ∃ wanted, load options (bytes.take k) rule? = .error (.truncated k wanted)) ∧
      ∀ other, load options (bytes.take n ++ other) rule? = .ok { l with trailing := other.length } ∧
        Context.ofLoaded options { l with trailing := other.length } = Context.ofLoaded options l ∧
        ∀ c : Context, c.loadInto options (bytes.take n ++ other) rule? = c.loadInto options bytes rule?) ∧
    ∀ error, load options bytes rule? = .error error → (∀ offset wanted, error ≠ .truncated offset wanted) →
      ∀ more, load options (bytes ++ more) rule? = .error error := by
  refine ⟨fun l hload => ?_, fun error hload untruncated more => ?_⟩
  · obtain ⟨front, back, rfl, htrailing, replace⟩ := load_replace hload
    have hn : front.length + l.trailing = (front ++ back).length := by rw [List.length_append, htrailing]
    refine ⟨front.length, hn, fun k hk => load_take hload (by omega), fun other => ?_⟩
    rw [List.take_left]
    refine ⟨replace other, rfl, fun c => ?_⟩
    rw [Context.loadInto, Context.loadInto, replace other, hload]
    rfl
  · rcases load_append_of_error hload with ⟨wanted, rfl⟩ | same
    · exact absurd rfl (untruncated _ wanted)
    · exact same more

/-- A program that matches the literal `ab`, with a byte left over. -/
def literalBytes : Bytes :=
  [0, 1] ++ toBigEndian 4 0 ++ toBigEndian 4 0 ++ toBigEndian 4 0 ++ toBigEndian 8 2 ++
    [Opcode.exit.byte] ++ Opcode.string.byte :: toBigEndian 4 2 ++ [97, 98] ++ [255]

/-- The same with a byte that is no opcode in place of the second one. -/
def brokenBytes : Bytes := literalBytes.take 23 ++ [255]

theorem load_depends_on_read_literal :
    (∃ l, load {} literalBytes none = .ok l ∧ l.trailing = 1 ∧
      (∃ wanted, load {} (literalBytes.take 28) none = .error (.truncated 28 wanted)) ∧
      load {} (literalBytes.take 30 ++ [1, 2, 3]) none = .ok { l with trailing := 3 }) ∧
    ∀ more, load {} (brokenBytes ++ more) none = .error (.unknownOpcode 255 23) := by
  obtain ⟨l, hload, htrailing⟩ : ∃ l, load {} literalBytes none = .ok l ∧ l.trailing = 1 := by
    have checked : (load {} literalBytes none).map Loaded.trailing = .ok 1 := by decide +kernel
    cases hload : load {} literalBytes none with
    | ok l =>
      rw [hload] at checked
      exact ⟨l, rfl, Except.ok.inj checked⟩
    | error error =>
      rw [hload] at checked
      cases checked
  obtain ⟨n, hn, cut, replace⟩ := (load_depends_on_read {} literalBytes none).1 l hload
  obtain rfl : n = 30 := by
    have : literalBytes.length = 31 := by decide
    omega
  have broken : load {} brokenBytes none = .error (.unknownOpcode 255 23) := by decide +kernel
  refine ⟨⟨l, hload, htrailing, cut 28 (by decide), (replace [1, 2, 3]).1⟩, ?_⟩
  exact (load_depends_on_read {} brokenBytes none).2 _ broken fun _ _ => LoadError.noConfusion

end PegMachine
