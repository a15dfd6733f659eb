/-!
  Bytes and the input of a run.

  Wire data and literals are lists of bytes, because they are read from the front. The input of a run
  is an array, because a run looks at it at any position. What a run asks of the input is defined here:
  the slice between two positions, whether a literal stands at a position, and where a stretch of bytes
  with a property ends.

  Correspondence (program ↔ here):
    `from_be_bytes`, `to_be_bytes`  ↔ `ofBigEndian`, `toBigEndian`
    `AstNode.text`, `op_def`        ↔ `Input.slice?`
    `rest`, and `starts_with` on it ↔ `Input.hasAt`
    `op_zero_more_char_set`         ↔ `Input.skipWhile`
-/
namespace PegMachine

abbrev Bytes := List UInt8

/-- Every byte, in increasing order. -/
def allBytes : Bytes := (List.range 256).map UInt8.ofNat

theorem mem_allBytes (b : UInt8) : b ∈ allBytes :=
  List.mem_map.2 ⟨b.toNat, List.mem_range.2 b.toNat_lt, UInt8.ofNat_toNat⟩

theorem pairwise_allBytes : allBytes.Pairwise (· < ·) := by
  rw [allBytes, List.pairwise_map]
  refine List.pairwise_lt_range.imp_of_mem fun ha hb hlt => ?_
  rw [List.mem_range] at ha hb
  rw [UInt8.lt_iff_toNat_lt, UInt8.toNat_ofNat_of_lt' ha, UInt8.toNat_ofNat_of_lt' hb]
  exact hlt

/-! ## Numbers as bytes, most significant byte first -/

/-- The number that the bytes write. -/
def ofBigEndian (bytes : Bytes) : Nat := bytes.foldl (fun n b => n * 256 + b.toNat) 0

/-- The last `width` base-256 digits of a number. -/
def toBigEndian : (width : Nat) → Nat → Bytes
  | 0, _ => []
  | width + 1, n => toBigEndian width (n / 256) ++ [UInt8.ofNat (n % 256)]

/-- How many numbers a word of `width` bytes can hold. -/
def wordSize : (width : Nat) → Nat
  | 0 => 1
  | width + 1 => 256 * wordSize width

theorem length_toBigEndian (width n : Nat) : (toBigEndian width n).length = width := by
  induction width generalizing n with
  | zero => rfl
  | succ width ih => simp [toBigEndian, ih]

theorem ofBigEndian_toBigEndian (width n : Nat) : ofBigEndian (toBigEndian width n) = n % wordSize width := by
  induction width generalizing n with
  | zero => simp [toBigEndian, ofBigEndian, wordSize, Nat.mod_one]
  | succ width ih =>
    have step : ofBigEndian (toBigEndian (width + 1) n) =
        ofBigEndian (toBigEndian width (n / 256)) * 256 + n % 256 := by
      simp [toBigEndian, ofBigEndian]
    rw [step, ih, wordSize, Nat.mod_mul, Nat.mul_comm, Nat.add_comm]

/-! ## The input of a run -/

abbrev Input := Array UInt8

namespace Input

/-- The bytes from `start` up to `stop`, if the input has all of them and `start` is not past `stop`. -/
def slice? (input : Input) (start stop : Nat) : Option Bytes :=
  if start ≤ stop ∧ stop ≤ input.size then some (input.extract start stop).toList else none

/-- Whether the literal stands in the input at `pos`. The empty literal stands everywhere. -/
def hasAt (input : Input) : Nat → Bytes → Bool
  | _, [] => true
  | pos, b :: bs => input[pos]? == some b && input.hasAt (pos + 1) bs

/-- The first position from `pos` on whose byte lacks the property, or the end of the input. -/
def skipWhile (p : UInt8 → Bool) (input : Input) (pos : Nat) : Nat :=
  if h : pos < input.size then
    if p input[pos] then input.skipWhile p (pos + 1) else pos
  else pos
termination_by input.size - pos

end Input

end PegMachine
