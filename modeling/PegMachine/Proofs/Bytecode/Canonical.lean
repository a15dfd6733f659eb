import Mathlib.Data.List.Nodup
import Mathlib.Data.List.Perm.Subperm
import PegMachine.Proofs.Bytecode.RoundTrip
/-!
  What is read and written again is in canonical form.

  Of all records of an instruction the writer writes one. Only a jump table has others: its entries may come in
  any order, and an entry may be listed that a later one replaces. What is proved:
    1. `JumpTable.Lists.length_le`, `JumpTable.Lists.eq_entries`: no list of entries that gives a table is shorter
       than the table's own, and the only one in the order of its bytes is the table's own;
    2. `Instruction.HasOperands.encode`: operands that stand in bytecode can be written;
    3. `Instruction.HasOperands.canonical`: written operands are the ones that were read, unless those list a table
       out of order, and they are never longer;
    4. `prefix_of_encodeAll`: records tell where they end, so if what is written of two sequences begins alike, so
       do the sequences;
    5. `reencode_canonical`: all of this of the instructions that are read, and of the sequences that are written.
-/
namespace PegMachine

/-! ## Lists of entries -/

namespace JumpTable

variable {table : JumpTable} {entries : List (UInt8 × UInt32)}

/-- The entries come with strictly increasing bytes. -/
def Ordered (entries : List (UInt8 × UInt32)) : Prop := entries.Pairwise fun e e' => e.1 < e'.1

instance : DecidablePred Ordered :=
  fun entries => inferInstanceAs (Decidable (entries.Pairwise fun e e' => e.1 < e'.1))

theorem Ordered.nodup_bytes (h : Ordered entries) : (entries.map Prod.fst).Nodup := by
  refine List.pairwise_map.2 (h.imp fun hlt heq => ?_)
  rw [UInt8.lt_iff_toNat_lt, heq] at hlt
  omega

theorem Ordered.nodup (h : Ordered entries) : entries.Nodup := h.nodup_bytes.of_map _

/-- Every entry of the table is listed. -/
theorem Lists.subset (h : table.Lists entries) : table.entries ⊆ entries := by
  rintro ⟨b, target⟩ he
  have hlookup : entries.reverse.lookup b = some target := (h b).symm.trans (mem_entries.1 he)
  obtain ⟨before, after, hsplit, -⟩ := List.lookup_eq_some_iff.1 hlookup
  rw [← List.mem_reverse, hsplit]
  simp

theorem Lists.subperm (h : table.Lists entries) : table.entries.Subperm entries :=
  List.Nodup.subperm (Ordered.nodup table.pairwise_entries) h.subset

/-- No list that gives a table is shorter than the table's own entries. -/
theorem Lists.length_le (h : table.Lists entries) : table.entries.length ≤ entries.length := h.subperm.length_le

/-- A byte that is listed has a target. -/
theorem Lists.bytes_subset (h : table.Lists entries) : entries.map Prod.fst ⊆ table.entries.map Prod.fst := by
  intro b hb
  obtain ⟨⟨b, target⟩, he, rfl⟩ := List.mem_map.1 hb
  cases hget : table.get? b with
  | none =>
    have hnone : entries.reverse.lookup b = none := (h b).symm.trans hget
    have hne := List.lookup_eq_none_iff.1 hnone (b, target) (List.mem_reverse.2 he)
    simp at hne
  | some target' => exact List.mem_map.2 ⟨(b, target'), mem_entries.2 hget, rfl⟩

/-- A list that gives a table and is in the order of its bytes is the table's own. -/
theorem Lists.eq_entries (h : table.Lists entries) (ordered : Ordered entries) : entries = table.entries := by
  have hlen : entries.length ≤ table.entries.length := by
    have := (List.Nodup.subperm ordered.nodup_bytes h.bytes_subset).length_le
    simpa using this
  have hperm : table.entries.Perm entries := h.subperm.perm_of_length_le hlen
  refine (hperm.eq_of_pairwise (fun e e' _ _ hlt hgt => ?_) table.pairwise_entries ordered).symm
  rw [UInt8.lt_iff_toNat_lt] at hlt hgt
  omega

/-- How many entries there are, and the entries. -/
def form (entries : List (UInt8 × UInt32)) : Bytes :=
  toBigEndian 2 entries.length ++ entries.flatMap fun e => e.1 :: toBigEndian 4 e.2.toNat

theorem length_form (entries : List (UInt8 × UInt32)) : (form entries).length = 2 + 5 * entries.length := by
  have hentries : (entries.flatMap fun e => e.1 :: toBigEndian 4 e.2.toNat).length = 5 * entries.length := by
    induction entries with
    | nil => rfl
    | cons e entries ih =>
      rw [List.flatMap_cons, List.length_append, ih, List.length_cons, List.length_cons, length_toBigEndian]
      omega
  rw [form, List.length_append, length_toBigEndian, hentries]

/-- Entries can be told from their form, if they can be counted. -/
theorem form_injective {entries' : List (UInt8 × UInt32)} (hlt : entries.length < UInt16.size)
    (hlt' : entries'.length < UInt16.size) (h : form entries = form entries') : entries = entries' := by
  have delimited : Delimited fun e : UInt8 × UInt32 => e.1 :: toBigEndian 4 e.2.toNat := by
    intro e e' rest rest' heq
    obtain ⟨he, -, hrest⟩ := Instruction.reads_entry.unique rfl rfl heq
    exact ⟨he, hrest⟩
  obtain ⟨hcount, hentries⟩ := List.append_inj h (by rw [length_toBigEndian, length_toBigEndian])
  have hlen : entries.length = entries'.length := by
    apply toBigEndian_injective _ _ hcount
    · exact hlt
    · exact hlt'
  have hends := congrArg (· ++ ([] : Bytes)) hentries
  exact (delimited.flatMap hlen hends).1

/-- Of the lists that give a table, those in order have the form of the table's own. -/
theorem form_entries_eq_iff (hlists : table.Lists entries) (hlt : entries.length < UInt16.size) :
    form table.entries = form entries ↔ Ordered entries := by
  constructor
  · intro heq
    have hown : table.entries = entries := form_injective table.length_entries_lt hlt heq
    rw [← hown]
    exact table.pairwise_entries
  · intro ordered
    rw [hlists.eq_entries ordered]

end JumpTable

/-! ## Records -/

namespace Instruction

variable {i : Instruction} {operands operands' : Bytes}

/-- Operands that stand in bytecode can be written. -/
theorem HasOperands.fits (h : i.HasOperands operands) : ¬ i.Oversized := by
  cases i with
  | jump | call | choice | commit | partialCommit | backCommit => exact Nat.not_le_of_lt h.1
  | string | notString | optionalString => exact Nat.not_le_of_lt h.1
  | tag | value | define | is | isa => exact Nat.not_le_of_lt h.1
  | _ => exact id

/-- Every instruction but a jump table has one form of its operands. -/
theorem HasOperands.unique (h : i.HasOperands operands) (h' : i.HasOperands operands')
    (notTable : ∀ table, i ≠ .mappedChoice table) : operands = operands' := by
  cases i with
  | jump | call | choice | commit | partialCommit | backCommit => exact h.2.trans h'.2.symm
  | string | notString | optionalString => exact h.2.trans h'.2.symm
  | tag | value | define | is | isa => exact h.2.trans h'.2.symm
  | charSet | notCharSet | optionalCharSet | zeroMoreCharSet => exact CharSet.HasBitmap.unique h h'
  | charRange => exact Eq.trans h (Eq.symm h')
  | exit | ret | fail | failTwice | any | nodeOpen | nodeClose | mark | scopeBegin | scopeEnd =>
    exact Eq.trans h (Eq.symm h')
  | mappedChoice table => exact absurd rfl (notTable table)

/-- The operands list the entries of a jump table, and not with strictly increasing bytes. -/
def OutOfOrder (i : Instruction) (operands : Bytes) : Prop :=
  ∃ table entries, i = .mappedChoice table ∧ entries.length < UInt16.size ∧ operands = JumpTable.form entries ∧
    ¬ JumpTable.Ordered entries

/-- Written operands are no longer than any others of the instruction, and the same unless those list a table
    out of order. -/
theorem HasOperands.canonical (h : i.HasOperands operands) (h' : i.HasOperands operands')
    (written : i.encodeOperands = .ok operands') :
    operands'.length ≤ operands.length ∧ (operands' ≠ operands ↔ i.OutOfOrder operands) := by
  by_cases htable : ∃ table, i = .mappedChoice table
  · obtain ⟨table, rfl⟩ := htable
    obtain ⟨entries, hlt, hlists, hform⟩ := h
    have hform : operands = JumpTable.form entries := hform
    -- A table is written with its own entries.
    have hown : JumpTable.form table.entries = operands' := Except.ok.inj written
    have hlen := hlists.length_le
    have hiff := JumpTable.form_entries_eq_iff hlists hlt
    rw [← hown, hform]
    refine ⟨?_, fun ne => ⟨table, entries, rfl, hlt, rfl, fun ordered => ne (hiff.2 ordered)⟩, ?_⟩
    · rw [JumpTable.length_form, JumpTable.length_form]
      omega
    · rintro ⟨_, entries', -, hlt', heq, shuffled⟩ hsame
      rw [← JumpTable.form_injective hlt hlt' heq] at shuffled
      exact shuffled (hiff.1 hsame)
  · obtain rfl : operands' = operands := h'.unique h fun table hi => htable ⟨table, hi⟩
    refine ⟨Nat.le_refl _, fun ne => absurd rfl ne, ?_⟩
    rintro ⟨table, _, hi, -⟩
    exact absurd ⟨table, hi⟩ htable

/-- Operands that stand in bytecode are written as operands of the same instruction. -/
theorem HasOperands.encode (h : i.HasOperands operands) :
    ∃ operands', i.encodeOperands = .ok operands' ∧ i.HasOperands operands' := by
  have written := i.writes_operands
  cases henc : i.encodeOperands with
  | error error => exact absurd (written.fails.1 ⟨error, henc⟩) h.fits
  | ok operands' => exact ⟨operands', rfl, written.writes operands' henc⟩

end Instruction

/-- A record is read as its instruction, wherever it stands and whatever follows. -/
theorem Record.run_read (r : Record) (pos : Nat) (rest : Bytes) :
    Instruction.read.run ⟨pos, r.bytes ++ rest⟩ = .ok r.instruction ⟨pos + r.bytes.length, rest⟩ :=
  (Instruction.reads_instruction _ _ _).2 ⟨r.bytes, ⟨r, rfl, rfl⟩, rfl, rfl⟩

/-! ## Sequences -/

/-- Forms that tell where they end, one after the other: if the bytes begin alike, so do the items. -/
theorem Delimited.prefix_of_prefix {α : Type} {form : α → Bytes} (hform : Delimited form)
    (nonempty : ∀ x, form x ≠ []) {xs ys : List α} (h : xs.flatMap form <+: ys.flatMap form) : xs <+: ys := by
  induction xs generalizing ys with
  | nil => exact List.nil_prefix
  | cons x xs ih =>
    obtain ⟨rest, hrest⟩ := h
    cases ys with
    | nil => simp [nonempty x] at hrest
    | cons y ys =>
      rw [List.flatMap_cons, List.flatMap_cons, List.append_assoc] at hrest
      obtain ⟨rfl, htail⟩ := hform _ _ _ _ hrest
      exact List.cons_prefix_cons.2 ⟨rfl, ih ⟨rest, htail⟩⟩

variable {code code' : List Instruction} {bytes bytes' : Bytes}

/-- Of two sequences of instructions whose written forms begin alike, one is the beginning of the other. -/
theorem prefix_of_encodeAll (h : Assembly.encodeAll Instruction.encode code = .ok bytes)
    (h' : Assembly.encodeAll Instruction.encode code' = .ok bytes') (hbegins : bytes <+: bytes') :
    code <+: code' := by
  obtain ⟨records, rfl, rfl⟩ := (Writes.all Instruction.writes_instruction code).writes bytes h
  obtain ⟨records', rfl, rfl⟩ := (Writes.all Instruction.writes_instruction code').writes bytes' h'
  exact (delimited_record.prefix_of_prefix (fun _ => List.cons_ne_nil _ _) hbegins).map _

/-- What is written of the beginning of a sequence is the beginning of what is written. -/
theorem encodeAll_prefix (h : Assembly.encodeAll Instruction.encode code = .ok bytes)
    (h' : Assembly.encodeAll Instruction.encode code' = .ok bytes') (hbegins : code <+: code') :
    bytes <+: bytes' := by
  obtain ⟨more, rfl⟩ := hbegins
  rw [Assembly.encodeAll] at h h'
  rw [List.mapM_append] at h'
  cases hcode : code.mapM Instruction.encode with
  | error error =>
    rw [hcode] at h
    cases h
  | ok front =>
    rw [hcode] at h h'
    cases hmore : more.mapM Instruction.encode with
    | error error =>
      rw [hmore] at h'
      cases h'
    | ok back =>
      rw [hmore] at h'
      cases h
      cases h'
      rw [List.flatten_append]
      exact List.prefix_append _ _

/-- **What is read and written again is in canonical form.** An instruction that was read can be written. What is
    written is read as the same instruction, all of it and nothing more, whatever follows; it is no longer than
    what was read, and differs from it exactly if that was a jump table with its entries out of order. Of two
    sequences of instructions that can be written, one is the beginning of the other exactly if that holds of the
    written bytes; so different sequences are written differently. -/
theorem reencode_canonical :
    (∀ (before after : Reader) (i : Instruction), Instruction.read.run before = .ok i after →
      ∃ r c : Bytes, before.rest = r ++ after.rest ∧ after.pos = before.pos + r.length ∧ i.encode = .ok c ∧
        (∀ pos rest, Instruction.read.run ⟨pos, r ++ rest⟩ = .ok i ⟨pos + r.length, rest⟩) ∧
        (∀ pos rest, Instruction.read.run ⟨pos, c ++ rest⟩ = .ok i ⟨pos + c.length, rest⟩) ∧
        c.length ≤ r.length ∧ (c ≠ r ↔ ∃ operands, r = i.opcode.byte :: operands ∧ i.OutOfOrder operands)) ∧
    ∀ (code code' : List Instruction) (c c' : Bytes), Assembly.encodeAll Instruction.encode code = .ok c →
      Assembly.encodeAll Instruction.encode code' = .ok c' → (c = c' ↔ code = code') ∧ (c <+: c' ↔ code <+: code') := by
  refine ⟨fun before after i hrun => ?_, fun code code' c c' h h' => ⟨⟨?_, ?_⟩, ?_, ?_⟩⟩
  · obtain ⟨_, ⟨⟨i, operands, valid⟩, rfl, rfl⟩, hrest, hpos⟩ := (Instruction.reads_instruction i before after).1 hrun
    obtain ⟨operands', written, valid'⟩ := valid.encode
    obtain ⟨hlength, hdiffers⟩ := valid.canonical valid' written
    refine ⟨_, i.opcode.byte :: operands', hrest, hpos, by rw [Instruction.encode, written]; rfl,
      Record.run_read ⟨i, operands, valid⟩, Record.run_read ⟨i, operands', valid'⟩, Nat.succ_le_succ hlength, ?_⟩
    simp only [Record.bytes, ne_eq, List.cons.injEq, true_and, exists_eq_left']
    exact hdiffers
  · rintro rfl
    exact (prefix_of_encodeAll h h' (List.prefix_refl c)).eq_of_length_le
      (prefix_of_encodeAll h' h (List.prefix_refl c)).length_le
  · rintro rfl
    exact Except.ok.inj (h.symm.trans h')
  · exact prefix_of_encodeAll h h'
  · exact encodeAll_prefix h h'

/-- A jump table that lists a byte twice and the byte below it in between. -/
def shuffled : Bytes := [19, 0, 3, 98, 0, 0, 0, 1, 97, 0, 0, 0, 0, 98, 0, 0, 0, 2]

theorem reencode_canonical_shuffled :
    (∃ i c, Instruction.read.run (.ofBytes (shuffled ++ [7])) = .ok i ⟨18, [7]⟩ ∧ i.encode = .ok c ∧
      Instruction.read.run (.ofBytes (c ++ [8])) = .ok i ⟨c.length, [8]⟩ ∧ c.length ≤ 18 ∧ c ≠ shuffled) ∧
    Assembly.encodeAll Instruction.encode [.any] = .ok [10] ∧
    Assembly.encodeAll Instruction.encode [.any, .ret] = .ok [10, 3] ∧ ([10] : Bytes) <+: [10, 3] ∧
    [Instruction.any] <+: [.any, .ret] ∧ [Instruction.any] ≠ [.any, .ret] := by
  obtain ⟨single, sequences⟩ := reencode_canonical
  have hrun : Instruction.read.run (.ofBytes (shuffled ++ [7])) =
      .ok (.mappedChoice (.ofEntries [(98, 1), (97, 0), (98, 2)])) ⟨18, [7]⟩ := rfl
  obtain ⟨r, c, hrest, hpos, hencode, -, hread, hlength, hdiffers⟩ := single _ _ _ hrun
  obtain rfl : shuffled = r := (List.append_left_inj [7]).1 hrest
  have outOfOrder : c ≠ shuffled :=
    hdiffers.2 ⟨_, rfl, _, [(98, 1), (97, 0), (98, 2)], rfl, by decide, rfl, by decide⟩
  have hmore := sequences [.any] [.any, .ret] [10] [10, 3] rfl rfl
  refine ⟨⟨_, c, hrun, hencode, ?_, hlength, outOfOrder⟩, rfl, rfl, by decide, hmore.2.1 (by decide), ?_⟩
  · simpa [Reader.ofBytes] using hread 0 [8]
  · exact fun h => absurd (hmore.1.2 h) (by decide)

end PegMachine
