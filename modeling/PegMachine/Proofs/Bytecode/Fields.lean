import Mathlib.Data.List.Induction
import PegMachine.CharSet
import PegMachine.JumpTable
import PegMachine.Text.Utf8
/-!
  The fields of bytecode.

  What the operands mean is said here without saying how they are read: a bitmap has a set if each byte's
  bit says whether the set contains the byte, and a list of entries gives a table if the last entry for a
  byte is what the table has. What is proved:
    1. `toBigEndian_ofBigEndian`, `toBigEndian_injective`: bytes write one number, and a number that fits is
       written in one way;
    2. `CharSet.hasBitmap_iff`, `CharSet.hasBitmap_encode`: a bitmap is read as its set, and a set is
       written as its bitmap, which is the only one it has (`CharSet.HasBitmap.unique`);
    3. `JumpTable.lists_iff`, `JumpTable.lists_entries`: entries are read as their table, and a table's own
       entries give it;
    4. `Text.decode?_eq_some_iff`: strictly decoded bytes are the encoding of what they decode to.
-/
namespace PegMachine

/-! ## Numbers -/

theorem ofBigEndian_concat (bytes : Bytes) (b : UInt8) :
    ofBigEndian (bytes ++ [b]) = ofBigEndian bytes * 256 + b.toNat := by
  simp [ofBigEndian]

theorem ofBigEndian_lt (bytes : Bytes) : ofBigEndian bytes < wordSize bytes.length := by
  induction bytes using List.reverseRecOn with
  | nil => decide
  | append_singleton bytes b ih =>
    have hb : b.toNat < 256 := b.toNat_lt
    rw [ofBigEndian_concat, List.length_append, List.length_singleton, wordSize]
    omega

/-- Bytes are the digits of the number that they write. -/
theorem toBigEndian_ofBigEndian (bytes : Bytes) : toBigEndian bytes.length (ofBigEndian bytes) = bytes := by
  induction bytes using List.reverseRecOn with
  | nil => rfl
  | append_singleton bytes b ih =>
    have hb : b.toNat < 256 := b.toNat_lt
    have hdiv : (ofBigEndian bytes * 256 + b.toNat) / 256 = ofBigEndian bytes := by omega
    have hmod : (ofBigEndian bytes * 256 + b.toNat) % 256 = b.toNat := by omega
    rw [ofBigEndian_concat, List.length_append, List.length_singleton, toBigEndian, hdiv, hmod, ih,
      UInt8.ofNat_toNat]

theorem ofBigEndian_toBigEndian_of_lt {width n : Nat} (h : n < wordSize width) :
    ofBigEndian (toBigEndian width n) = n := by
  rw [ofBigEndian_toBigEndian, Nat.mod_eq_of_lt h]

theorem toBigEndian_injective {width m n : Nat} (hm : m < wordSize width) (hn : n < wordSize width)
    (h : toBigEndian width m = toBigEndian width n) : m = n := by
  rw [← ofBigEndian_toBigEndian_of_lt hm, h, ofBigEndian_toBigEndian_of_lt hn]

/-! ## Bitmaps -/

namespace CharSet

/-- The bitmap says of every byte whether the set contains it: byte `b` is bit `b % 8` of byte `b / 8`. -/
def HasBitmap (set : CharSet) (raw : Bytes) : Prop :=
  raw.length = 32 ∧ ∀ b : UInt8, set.contains b = (raw.getD (b.toNat / 8) 0).toNat.testBit (b.toNat % 8)

theorem getLsbD_ofEncoded (raw : Bytes) {i : Nat} (hi : i < 256) :
    (ofEncoded raw).bits.getLsbD i = (raw.getD (i / 8) 0).toNat.testBit (i % 8) := by
  induction raw generalizing i with
  | nil => simp [ofEncoded]
  | cons byte raw ih =>
    have step : (ofEncoded (byte :: raw)).bits =
        (ofEncoded raw).bits <<< 8 ||| byte.toBitVec.setWidth 256 := rfl
    rw [step, BitVec.getLsbD_or, BitVec.getLsbD_shiftLeft, BitVec.getLsbD_setWidth]
    -- The first byte has bits 0 to 7; the bits of the others are moved up by 8.
    by_cases h8 : i < 8
    · have hdiv : i / 8 = 0 := by omega
      have hmod : i % 8 = i := by omega
      simp [hi, h8, hdiv, hmod, BitVec.getLsbD]
    · have hdiv : i / 8 = (i - 8) / 8 + 1 := by omega
      have hmod : i % 8 = (i - 8) % 8 := by omega
      have hhigh : byte.toBitVec.getLsbD i = false := BitVec.getLsbD_of_ge _ _ (by omega)
      rw [ih (by omega), hdiv, hmod, hhigh]
      simp [hi, h8]

theorem contains_ofEncoded (raw : Bytes) (b : UInt8) :
    (ofEncoded raw).contains b = (raw.getD (b.toNat / 8) 0).toNat.testBit (b.toNat % 8) :=
  getLsbD_ofEncoded raw b.toNat_lt

/-- A set is what its bitmap is read as. -/
theorem hasBitmap_iff {set : CharSet} {raw : Bytes} :
    set.HasBitmap raw ↔ raw.length = 32 ∧ ofEncoded raw = set := by
  refine and_congr_right fun _ => ⟨fun h => ext_contains fun b => ?_, ?_⟩
  · rw [contains_ofEncoded, h b]
  · rintro rfl b
    exact contains_ofEncoded raw b

theorem hasBitmap_encode (s : CharSet) : s.HasBitmap s.encode := by
  refine ⟨length_encode s, fun b => ?_⟩
  have hb : b.toNat < 256 := b.toNat_lt
  have hbyte : b.toNat / 8 < 32 := by omega
  have hbit : 8 * (b.toNat / 8) + b.toNat % 8 = b.toNat := by omega
  have hget : s.encode.getD (b.toNat / 8) 0 = UInt8.ofBitVec (s.bits.extractLsb' (8 * (b.toNat / 8)) 8) := by
    simp [encode, encodedLength, List.getD, hbyte]
  have hmod : b.toNat % 8 < 8 := by omega
  have hlsb : (s.bits.extractLsb' (8 * (b.toNat / 8)) 8).getLsbD (b.toNat % 8) = s.bits.getLsbD b.toNat := by
    rw [BitVec.getLsbD_extractLsb', decide_eq_true hmod, Bool.true_and, hbit]
  rw [hget, contains, ← hlsb]
  rfl

/-- A set has one bitmap: eight bits make a byte. -/
theorem HasBitmap.unique {s : CharSet} {raw raw' : Bytes} (h : s.HasBitmap raw) (h' : s.HasBitmap raw') :
    raw = raw' := by
  refine List.ext_getElem (h.1.trans h'.1.symm) fun j hj hj' => ?_
  apply UInt8.toNat_inj.1
  apply Nat.eq_of_testBit_eq
  intro k
  by_cases hk : k < 8
  · have h32 : j < 32 := h.1 ▸ hj
    have hlt : 8 * j + k < 256 := by omega
    have hb : (UInt8.ofNat (8 * j + k)).toNat = 8 * j + k := UInt8.toNat_ofNat_of_lt' hlt
    have hdiv : (8 * j + k) / 8 = j := by omega
    have hmod : (8 * j + k) % 8 = k := by omega
    have hbyte (w : Bytes) (hw : j < w.length) : w.getD ((8 * j + k) / 8) 0 = w[j] := by
      rw [hdiv, List.getD_eq_getElem?_getD, List.getElem?_eq_getElem hw, Option.getD_some]
    have hbit := (h.2 (.ofNat (8 * j + k))).symm.trans (h'.2 (.ofNat (8 * j + k)))
    rwa [hb, hbyte raw hj, hbyte raw' hj', hmod] at hbit
  · have high (b : UInt8) : b.toNat.testBit k = false := by
      have hb : b.toNat < 2 ^ 8 := b.toNat_lt
      exact Nat.testBit_lt_two_pow (Nat.lt_of_lt_of_le hb (Nat.pow_le_pow_right (by omega) (by omega)))
    rw [high, high]

end CharSet

/-! ## Tables -/

namespace JumpTable

/-- The entries give the table: for every byte the last entry counts. -/
def Lists (table : JumpTable) (entries : List (UInt8 × UInt32)) : Prop :=
  ∀ b, table.get? b = entries.reverse.lookup b

theorem lists_ofEntries (entries : List (UInt8 × UInt32)) : (ofEntries entries).Lists entries := by
  -- From the back, because the last entry counts.
  intro b
  induction entries using List.reverseRecOn with
  | nil => exact get?_empty b
  | append_singleton entries e ih =>
    obtain ⟨key, target⟩ := e
    have step : ofEntries (entries ++ [(key, target)]) = (ofEntries entries).insert key target := by
      simp [ofEntries]
    rw [step, get?_insert, ih, List.reverse_append, List.reverse_singleton, List.singleton_append,
      List.lookup_cons]
    by_cases h : b = key
    · simp [h]
    · have hb : (b == key) = false := beq_false_of_ne h
      simp [h, hb]

/-- A table is what its entries are read as. -/
theorem lists_iff {table : JumpTable} {entries : List (UInt8 × UInt32)} :
    table.Lists entries ↔ ofEntries entries = table := by
  constructor
  · intro h
    exact ext_get? fun b => (lists_ofEntries entries b).trans (h b).symm
  · rintro rfl
    exact lists_ofEntries entries

theorem lists_entries (table : JumpTable) : table.Lists table.entries := by
  intro b
  cases hl : table.entries.reverse.lookup b with
  | some target =>
    obtain ⟨before, after, hsplit, -⟩ := List.lookup_eq_some_iff.1 hl
    exact mem_entries.1 (List.mem_reverse.1 (by simp [hsplit]))
  | none =>
    cases hg : table.get? b with
    | none => rfl
    | some target =>
      have hmem : (b, target) ∈ table.entries.reverse := List.mem_reverse.2 (mem_entries.2 hg)
      have hne := List.lookup_eq_none_iff.1 hl _ hmem
      simp at hne

/-- The entries of a table come in the order of their bytes. -/
theorem pairwise_entries (table : JumpTable) : table.entries.Pairwise fun e e' => e.1 < e'.1 := by
  refine pairwise_allBytes.filterMap _ fun b c hlt e he e' he' => ?_
  obtain ⟨_, -, rfl⟩ := Option.map_eq_some_iff.1 he
  obtain ⟨_, -, rfl⟩ := Option.map_eq_some_iff.1 he'
  exact hlt

/-- A table's entries can be counted in 16 bits. -/
theorem length_entries_lt (table : JumpTable) : table.entries.length < UInt16.size := by
  have h : table.entries.length ≤ allBytes.length := List.length_filterMap_le ..
  have hall : allBytes.length = 256 := by simp [allBytes]
  have hsize : UInt16.size = 65536 := rfl
  omega

end JumpTable

/-! ## Texts -/

namespace Text

theorem decode?_eq_some_iff {bytes : Bytes} {text : String} :
    decode? bytes = some text ↔ bytes = encode text := by
  constructor
  · intro h
    rw [decode?, String.fromUTF8?] at h
    split at h
    · obtain rfl := Option.some.inj h
      show bytes = bytes.toByteArray.data.toList
      simp
    · cases h
  · rintro rfl
    exact decode?_encode text

end Text

end PegMachine
