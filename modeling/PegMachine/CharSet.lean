import PegMachine.Bytes
/-!
  Sets of bytes.

  A set is 256 bits, one for each byte. Everything about a set is read off `contains`: two sets that
  contain the same bytes are equal (`ext_contains`), and inserting a byte adds that byte and no other
  (`contains_insert`); inserting the bytes of ranges gives the set of what is in one of them
  (`contains_ofRanges`). On the wire a set is 32 bytes; byte `b` is bit `b % 8` of byte `b / 8`.

  Correspondence (program ↔ here):
    `CharSet`, `new`                        ↔ `CharSet`, `empty`
    `insert`, `contains`                    ↔ `insert`, `contains`
    `from_bytes`, `from_ranges`             ↔ `ofBytes`, `ofRanges`
    `ENCODED_LEN`, `encode`, `from_encoded` ↔ `encodedLength`, `encode`, `ofEncoded`
-/
namespace PegMachine

/-- The bytes from `lo` to `hi`, both included; none if `lo` is above `hi`. -/
structure ByteRange where
  lo : UInt8
  hi : UInt8
  deriving DecidableEq, Repr

def ByteRange.contains (r : ByteRange) (b : UInt8) : Bool := r.lo ≤ b && b ≤ r.hi

/-- The bytes of the range, in increasing order. -/
def ByteRange.bytes (r : ByteRange) : Bytes :=
  (List.range' r.lo.toNat (r.hi.toNat + 1 - r.lo.toNat)).map UInt8.ofNat

theorem ByteRange.mem_bytes {r : ByteRange} {b : UInt8} : b ∈ r.bytes ↔ r.lo ≤ b ∧ b ≤ r.hi := by
  have hhi : r.hi.toNat < 256 := r.hi.toNat_lt
  rw [bytes, List.mem_map, UInt8.le_iff_toNat_le, UInt8.le_iff_toNat_le]
  constructor
  · rintro ⟨n, hn, rfl⟩
    rw [List.mem_range'_1] at hn
    have hlt : n < 256 := by omega
    rw [UInt8.toNat_ofNat_of_lt' hlt]
    omega
  · intro h
    refine ⟨b.toNat, ?_, UInt8.ofNat_toNat⟩
    rw [List.mem_range'_1]
    omega

structure CharSet where
  bits : BitVec 256
  deriving DecidableEq, Repr

namespace CharSet

def empty : CharSet := ⟨0⟩

def contains (s : CharSet) (b : UInt8) : Bool := s.bits.getLsbD b.toNat

def insert (s : CharSet) (b : UInt8) : CharSet := ⟨s.bits ||| BitVec.twoPow 256 b.toNat⟩

theorem contains_empty (b : UInt8) : empty.contains b = false := by
  simp [contains, empty]

theorem contains_insert (s : CharSet) (b c : UInt8) :
    (s.insert b).contains c = (c == b || s.contains c) := by
  have hb : b.toNat < 256 := b.toNat_lt
  have hbc : (c == b) = decide (b.toNat = c.toNat) := by
    rw [Bool.eq_iff_iff, beq_iff_eq, decide_eq_true_iff, UInt8.toNat_inj]
    exact eq_comm
  rw [contains, insert, BitVec.getLsbD_or, BitVec.getLsbD_twoPow, hbc, decide_eq_true hb,
    Bool.true_and, Bool.or_comm]
  rfl

theorem ext_contains {s t : CharSet} (h : ∀ b, s.contains b = t.contains b) : s = t := by
  obtain ⟨x⟩ := s
  obtain ⟨y⟩ := t
  congr 1
  apply BitVec.eq_of_getLsbD_eq
  intro i hi
  have := h (UInt8.ofNat i)
  simpa [contains, Nat.mod_eq_of_lt hi] using this

/-! ## Building sets -/

def ofBytes (bytes : Bytes) : CharSet := bytes.foldl insert empty

/-- The bytes of the given ranges, inserted one range after the other. -/
def ofRanges (ranges : List ByteRange) : CharSet := ofBytes (ranges.flatMap ByteRange.bytes)

theorem contains_foldl_insert (bytes : Bytes) (s : CharSet) (b : UInt8) :
    (bytes.foldl insert s).contains b = (bytes.contains b || s.contains b) := by
  induction bytes generalizing s with
  | nil => simp
  | cons c bytes ih =>
    rw [List.foldl_cons, ih, contains_insert, List.contains_cons]
    cases b == c <;> cases bytes.contains b <;> rfl

theorem contains_ofBytes (bytes : Bytes) (b : UInt8) : (ofBytes bytes).contains b = bytes.contains b := by
  rw [ofBytes, contains_foldl_insert, contains_empty, Bool.or_false]

theorem contains_ofRanges {ranges : List ByteRange} {b : UInt8} :
    (ofRanges ranges).contains b = true ↔ ∃ r ∈ ranges, r.lo ≤ b ∧ b ≤ r.hi := by
  simp only [ofRanges, contains_ofBytes, List.contains_iff_mem, List.mem_flatMap, ByteRange.mem_bytes]

/-! ## The wire form -/

/-- How many bytes a set takes on the wire. -/
def encodedLength : Nat := 32

def encode (s : CharSet) : Bytes :=
  (List.range encodedLength).map fun i => UInt8.ofBitVec (s.bits.extractLsb' (8 * i) 8)

/-- The set that wire bytes stand for. The first byte holds the lowest bits. -/
def ofEncoded (raw : Bytes) : CharSet :=
  ⟨raw.foldr (fun byte high => high <<< 8 ||| byte.toBitVec.setWidth 256) 0⟩

theorem length_encode (s : CharSet) : s.encode.length = 32 := by simp [encode, encodedLength]

end CharSet

end PegMachine
