import Mathlib.Data.Nat.Bitwise
import PegMachine.Proofs.Bytecode.Fields
/-!
  Sets in memory and on the wire.

  In memory the 256 bits of a set are four words of 64 bits, and byte `b` is bit `b % 64` of word `b / 64`. On the
  wire they are 32 bytes, and byte `b` is bit `b % 8` of byte `b / 8`; eight bytes make a word, the least significant
  one first. `Words` has the operations on the words, and `w.Holds s` says that the words `w` are what is in memory
  for the set `s`.
  What is proved:
    1. `Words.contains_eq`, `Words.ext_contains`: the masks pick out single bits, and words that contain the same
       bytes are equal;
    2. `Words.contains_insert`, `Words.contains_ofEncoded`, `Words.Holds.encode_eq`: words that hold a set hold it after
       inserting and reading, and are written as the set is;
    3. `wire_form_exact`: the wire form is exact in both directions, for sets and so for the words that hold them.
-/
namespace PegMachine

/-! ## Least significant byte first -/

/-- The first byte has the lowest eight bits, the next one the eight above them. -/
theorem testBit_ofBigEndian_reverse (bytes : Bytes) (i : Nat) :
    (ofBigEndian bytes.reverse).testBit i = (bytes.getD (i / 8) 0).toNat.testBit (i % 8) := by
  induction bytes generalizing i with
  | nil => simp [ofBigEndian]
  | cons byte bytes ih =>
    have hbyte : byte.toNat < 2 ^ 8 := byte.toNat_lt
    have step : ofBigEndian (byte :: bytes).reverse = 2 ^ 8 * ofBigEndian bytes.reverse + byte.toNat := by
      rw [List.reverse_cons, ofBigEndian_concat]
      omega
    rw [step, Nat.testBit_two_pow_mul_add _ hbyte]
    split
    · next hi =>
      have hdiv : i / 8 = 0 := by omega
      have hmod : i % 8 = i := by omega
      rw [hdiv, hmod, List.getD_cons_zero]
    · next hi =>
      have hdiv : i / 8 = (i - 8) / 8 + 1 := by omega
      have hmod : i % 8 = (i - 8) % 8 := by omega
      rw [ih, hdiv, hmod, List.getD_cons_succ]

section chunks

variable {α β : Type} {form : α → List β} {size : Nat}

theorem length_chunks (hsize : ∀ x, (form x).length = size) (xs : List α) :
    (xs.flatMap form).length = size * xs.length := by
  induction xs with
  | nil => rfl
  | cons x xs ih => rw [List.flatMap_cons, List.length_append, hsize, ih, List.length_cons, Nat.mul_succ, Nat.add_comm]

/-- From chunks of one size that stand one after the other, each can be cut out. -/
theorem take_drop_chunks (hsize : ∀ x, (form x).length = size) {xs : List α} {k : Nat} (hk : k < xs.length) :
    ((xs.flatMap form).drop (size * k)).take size = form xs[k] := by
  induction xs generalizing k with
  | nil => cases hk
  | cons x xs ih =>
    rw [List.flatMap_cons]
    cases k with
    | zero => rw [Nat.mul_zero, List.drop_zero, List.take_left' (hsize x), List.getElem_cons_zero]
    | succ k =>
      have behind : size * (k + 1) = (form x).length + size * k := by rw [hsize, Nat.mul_succ, Nat.add_comm]
      rw [behind, List.drop_length_add_append, ih (Nat.lt_of_succ_lt_succ hk), List.getElem_cons_succ]

end chunks

namespace CharSet

theorem encode_ofEncoded {raw : Bytes} (hraw : raw.length = 32) : (ofEncoded raw).encode = raw := by
  have read : (ofEncoded raw).HasBitmap raw := hasBitmap_iff.2 ⟨hraw, rfl⟩
  exact (hasBitmap_encode _).unique read

theorem ofEncoded_encode (s : CharSet) : ofEncoded s.encode = s := (hasBitmap_iff.1 (hasBitmap_encode s)).2

/-! ## The words -/

/-- A set as it is in memory. -/
abbrev Words : Type := Vector UInt64 4

namespace Words

/-- The word that has the bit of a byte. -/
def place (b : UInt8) : Fin 4 := ⟨b.toNat / 64, Nat.div_lt_of_lt_mul b.toNat_lt⟩

/-- A word with the bit of a byte and no other. -/
def mask (b : UInt8) : UInt64 := 1 <<< UInt64.ofNat (b.toNat % 64)

def contains (w : Words) (b : UInt8) : Bool := w.get (place b) &&& mask b != 0

def insert (w : Words) (b : UInt8) : Words := w.set (place b) (w.get (place b) ||| mask b)

/-- Reads eight bytes for each word. -/
def ofEncoded (raw : Bytes) : Words :=
  Vector.ofFn fun k => UInt64.ofNat (ofBigEndian ((raw.drop (8 * k)).take 8).reverse)

/-- The eight bytes of a word. -/
def bytesOf (word : UInt64) : Bytes := (toBigEndian 8 word.toNat).reverse

/-- Writes eight bytes for each word. -/
def encode (w : Words) : Bytes := w.toList.flatMap bytesOf

/-- The words are the set in memory: they contain the same bytes. -/
def Holds (w : Words) (s : CharSet) : Prop := ∀ b, w.contains b = s.contains b

variable {w w' : Words} {s : CharSet}

theorem toNat_mask (b : UInt8) : (mask b).toNat = 2 ^ (b.toNat % 64) := by
  have hlt : b.toNat % 64 < 64 := Nat.mod_lt _ (by decide)
  have hpow : 2 ^ (b.toNat % 64) < 2 ^ 64 := Nat.pow_lt_pow_right (by decide) hlt
  have hn : (UInt64.ofNat (b.toNat % 64)).toNat = b.toNat % 64 :=
    UInt64.toNat_ofNat_of_lt' (Nat.lt_trans hlt (by decide))
  rw [mask, UInt64.toNat_shiftLeft, hn, Nat.mod_eq_of_lt hlt, UInt64.toNat_one, Nat.shiftLeft_eq, Nat.one_mul,
    Nat.mod_eq_of_lt hpow]

/-- The mask of a byte picks its bit out of its word. -/
theorem contains_eq (w : Words) (b : UInt8) : w.contains b = (w.get (place b)).toNat.testBit (b.toNat % 64) := by
  rw [contains, bne, Bool.eq_iff_iff, Bool.not_eq_true', beq_eq_false_iff_ne, ne_eq, ← UInt64.toNat_inj,
    UInt64.toNat_and, toNat_mask, Nat.and_two_pow]
  cases (w.get (place b)).toNat.testBit (b.toNat % 64) with
  | false => simp
  | true => simp

theorem ext_contains (h : ∀ b, w.contains b = w'.contains b) : w = w' := by
  refine Vector.ext fun k hk => ?_
  apply UInt64.toNat_inj.1
  apply Nat.eq_of_testBit_eq
  intro i
  by_cases hi : i < 64
  · have hlt : 64 * k + i < 256 := by omega
    have hb : (UInt8.ofNat (64 * k + i)).toNat = 64 * k + i := UInt8.toNat_ofNat_of_lt' hlt
    have hplace : place (.ofNat (64 * k + i)) = ⟨k, hk⟩ := by
      apply Fin.ext
      show (UInt8.ofNat (64 * k + i)).toNat / 64 = k
      omega
    have hmod : (64 * k + i) % 64 = i := by omega
    have hbit := h (.ofNat (64 * k + i))
    rwa [contains_eq, contains_eq, hplace, hb, hmod] at hbit
  · have high (word : UInt64) : word.toNat.testBit i = false := by
      have hword : word.toNat < 2 ^ 64 := word.toNat_lt
      exact Nat.testBit_lt_two_pow (Nat.lt_of_lt_of_le hword (Nat.pow_le_pow_right (by decide) (by omega)))
    rw [high, high]

theorem contains_insert (w : Words) (b c : UInt8) : (w.insert b).contains c = (c == b || w.contains c) := by
  have hbc : (c == b) = decide (c.toNat = b.toNat) := by
    rw [Bool.eq_iff_iff, beq_iff_eq, decide_eq_true_iff, UInt8.toNat_inj]
  rw [contains_eq, contains_eq, hbc]
  by_cases hplace : place c = place b
  · have hget : (w.insert b).get (place c) = w.get (place c) ||| mask b := by
      rw [hplace]
      exact Vector.getElem_set_self ..
    have hdiv : c.toNat / 64 = b.toNat / 64 := congrArg Fin.val hplace
    have hbit : decide (b.toNat % 64 = c.toNat % 64) = decide (c.toNat = b.toNat) := by
      rw [decide_eq_decide]
      omega
    rw [hget, UInt64.toNat_or, Nat.testBit_or, toNat_mask, Nat.testBit_two_pow, hbit, Bool.or_comm]
  · have hne : (place b).val ≠ (place c).val := fun h => hplace (Fin.ext h.symm)
    have hget : (w.insert b).get (place c) = w.get (place c) := Vector.getElem_set_ne _ _ hne
    have hdiff : c.toNat ≠ b.toNat := by
      intro h
      apply hne
      show b.toNat / 64 = c.toNat / 64
      rw [h]
    rw [hget, decide_eq_false hdiff, Bool.false_or]

/-- Byte `b` is in the word that is read from the eight bytes around byte `b / 8`. -/
theorem contains_ofEncoded (raw : Bytes) (b : UInt8) :
    (ofEncoded raw).contains b = (raw.getD (b.toNat / 8) 0).toNat.testBit (b.toNat % 8) := by
  let chunk : Bytes := (raw.drop (8 * (b.toNat / 64))).take 8
  have hget : (ofEncoded raw).get (place b) = UInt64.ofNat (ofBigEndian chunk.reverse) := Vector.getElem_ofFn ..
  have hlow : b.toNat % 64 < 64 := Nat.mod_lt _ (by decide)
  have hbyte : b.toNat % 64 / 8 < 8 := by omega
  have hplace : 8 * (b.toNat / 64) + b.toNat % 64 / 8 = b.toNat / 8 := by omega
  have hbit : b.toNat % 64 % 8 = b.toNat % 8 := by omega
  rw [contains_eq, hget, UInt64.toNat_ofNat', Nat.testBit_mod_two_pow, decide_eq_true hlow, Bool.true_and,
    testBit_ofBigEndian_reverse, hbit, List.getD_eq_getElem?_getD, List.getD_eq_getElem?_getD,
    List.getElem?_take_of_lt hbyte, List.getElem?_drop, hplace]

theorem length_bytesOf (word : UInt64) : (bytesOf word).length = 8 := by
  rw [bytesOf, List.length_reverse, length_toBigEndian]

theorem length_encode (w : Words) : w.encode.length = 32 := by
  rw [encode, length_chunks length_bytesOf, Vector.length_toList]

/-- Words are read again from the bytes that they are written to. -/
theorem ofEncoded_encode (w : Words) : ofEncoded w.encode = w := by
  refine Vector.ext fun k hk => ?_
  have hk' : k < w.toList.length := by rwa [Vector.length_toList]
  have hlt : (w.toList[k]).toNat < wordSize 8 := (w.toList[k]).toNat_lt
  rw [ofEncoded, Vector.getElem_ofFn, encode, take_drop_chunks length_bytesOf hk', bytesOf, List.reverse_reverse,
    ofBigEndian_toBigEndian_of_lt hlt, UInt64.ofNat_toNat, Vector.getElem_toList]

/-! ## Words that hold a set -/

theorem Holds.unique (h : w.Holds s) (h' : w'.Holds s) : w = w' :=
  ext_contains fun b => (h b).trans (h' b).symm

theorem Holds.set_unique {t : CharSet} (h : w.Holds s) (h' : w.Holds t) : s = t :=
  CharSet.ext_contains fun b => (h b).symm.trans (h' b)

theorem holds_ofEncoded (raw : Bytes) : (ofEncoded raw).Holds (.ofEncoded raw) := fun b => by
  rw [contains_ofEncoded, CharSet.contains_ofEncoded]

theorem Holds.insert (h : w.Holds s) (b : UInt8) : (w.insert b).Holds (s.insert b) := fun c => by
  rw [contains_insert, CharSet.contains_insert, h c]

/-- Words are written as the set that they hold. -/
theorem Holds.encode_eq (h : w.Holds s) : w.encode = s.encode := by
  have written : s.HasBitmap w.encode := by
    refine ⟨w.length_encode, fun b => ?_⟩
    rw [← contains_ofEncoded, ofEncoded_encode, h b]
  exact written.unique (hasBitmap_encode s)

theorem exists_holds (s : CharSet) : ∃ w : Words, w.Holds s := by
  have read := holds_ofEncoded s.encode
  rw [CharSet.ofEncoded_encode] at read
  exact ⟨_, read⟩

theorem exists_held (w : Words) : ∃ s : CharSet, w.Holds s := by
  have read := holds_ofEncoded w.encode
  rw [ofEncoded_encode] at read
  exact ⟨_, read⟩

end Words

/-- **The wire form of a set is exact in both directions.** The set that 32 bytes are read as contains byte `b` if
    bit `b % 8` of byte `b / 8` is set, and it is written as these bytes again; a set is read again from what it is
    written as. Sets are equal if they contain the same bytes, and inserting a byte adds this one and no other. In
    memory each set is held by four words of 64 bits and by no other four, and each four words hold one set; the
    words that are read hold the set that is read, they go on holding it when a byte is inserted, and they are
    written as the set is. -/
theorem wire_form_exact :
    (∀ raw : Bytes, raw.length = 32 →
      (∀ b, (ofEncoded raw).contains b = true ↔ (raw.getD (b.toNat / 8) 0).toNat.testBit (b.toNat % 8) = true) ∧
      (ofEncoded raw).encode = raw) ∧
    (∀ s : CharSet, s.encode.length = 32 ∧ ofEncoded s.encode = s) ∧
    (∀ s t : CharSet, s = t ↔ ∀ b, s.contains b = t.contains b) ∧
    (∀ (s : CharSet) (b c : UInt8), (s.insert b).contains c = true ↔ c = b ∨ s.contains c = true) ∧
    (∀ s : CharSet, ∃! w : Words, w.Holds s) ∧ (∀ w : Words, ∃! s : CharSet, w.Holds s) ∧
    (∀ raw : Bytes, (Words.ofEncoded raw).Holds (ofEncoded raw)) ∧
    ∀ (w : Words) (s : CharSet), w.Holds s → w.encode = s.encode ∧ ∀ b, (w.insert b).Holds (s.insert b) := by
  refine ⟨fun raw hraw => ⟨fun b => ?_, encode_ofEncoded hraw⟩, fun s => ⟨length_encode s, ofEncoded_encode s⟩,
    fun s t => ⟨fun h b => h ▸ rfl, ext_contains⟩, fun s b c => ?_, fun s => ?_, fun w => ?_, Words.holds_ofEncoded,
    fun w s h => ⟨h.encode_eq, h.insert⟩⟩
  · rw [contains_ofEncoded]
  · rw [contains_insert, Bool.or_eq_true, beq_iff_eq]
  · exact existsUnique_of_exists_of_unique (Words.exists_holds s) fun _ _ => Words.Holds.unique
  · exact existsUnique_of_exists_of_unique w.exists_held fun _ _ => Words.Holds.set_unique

/-- The bytes of a set with members in the first and the last byte of words, and at both ends of a byte. -/
def cornerBytes : Bytes := [1, 2] ++ .replicate 6 0 ++ [2] ++ .replicate 22 0 ++ [128]

theorem wire_form_exact_corners :
    cornerBytes.length = 32 ∧ (ofEncoded cornerBytes).encode = cornerBytes ∧
    (ofEncoded cornerBytes).contains 65 = true ∧ (ofEncoded cornerBytes).contains 64 = false ∧
    (Words.ofEncoded cornerBytes).encode = cornerBytes := by
  obtain ⟨raw, -, -, -, -, -, read, held⟩ := wire_form_exact
  obtain ⟨bits, again⟩ := raw cornerBytes (by decide)
  refine ⟨by decide, again, (bits 65).2 (by decide), ?_, ?_⟩
  · exact Bool.eq_false_iff.2 fun h => absurd ((bits 64).1 h) (by decide)
  · rw [(held _ _ (read cornerBytes)).1, again]

end CharSet

end PegMachine
