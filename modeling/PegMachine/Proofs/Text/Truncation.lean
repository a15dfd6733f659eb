import Mathlib.Algebra.Ring.Nat
import PegMachine.Text.Utf8
/-!
  Lossy decoding of a text that is cut off inside a character.

  What is left of that character does not decode, but all of it could begin a character, so that one replacement
  character stands for it. What is proved:
    1. `continuation?_three`, `continuation?_four`, `follows_three`, `follows_four`: the second byte of a character is
       one that may follow the first;
    2. `faultyLength_take`, `firstChar?_take`: so the first bytes of a character are one faulty stretch;
    3. `decodeLossyChars_cut`: and a text that is cut off inside a character decodes to the characters before the
       cut and one more.
-/
namespace PegMachine.Text

/-! ## The second byte of a character -/

/-- The second byte may follow the first in a character of so many bytes. -/
def Follows (lead second : UInt8) (size : Nat) : Prop :=
  ∃ least greatest, continuation? lead = some (size, least, greatest) ∧ least ≤ second ∧ second ≤ greatest

theorem continuation?_three : ∀ high < 16, continuation? (UInt8.ofNat (high + 0xe0)) =
    some (3, if high = 0 then 0xa0 else 0x80, if high = 13 then 0x9f else 0xbf) := by
  decide

theorem continuation?_four : ∀ high < 5, continuation? (UInt8.ofNat (high + 0xf0)) =
    some (4, if high = 0 then 0x90 else 0x80, if high = 4 then 0x8f else 0xbf) := by
  decide

variable {n : Nat}

theorem toNat_second (n : Nat) : (UInt8.ofNat (n % 64 + 0x80)).toNat = n % 64 + 0x80 := by
  have hlt : n % 64 + 0x80 < 256 := by omega
  exact UInt8.toNat_ofNat_of_lt' hlt

theorem isContinuation_of_mod (n : Nat) : isContinuation (UInt8.ofNat (n % 64 + 0x80)) = true := by
  have h := toNat_second n
  simp only [isContinuation, UInt8.le_iff_toNat_le, h, Bool.and_eq_true, decide_eq_true_eq]
  exact ⟨Nat.le_add_left .., by show _ ≤ 0xbf; omega⟩

/-- Six bits as a second byte follow a lead byte if the bounds that only some lead bytes set are kept. -/
theorem follows_of_bounds {lead least greatest : UInt8} {size : Nat} {first last : Prop} [Decidable first]
    [Decidable last]
    (hlead : continuation? lead = some (size, if first then least else 0x80, if last then greatest else 0xbf))
    (hleast : first → least.toNat ≤ n % 64 + 0x80) (hgreatest : last → n % 64 + 0x80 ≤ greatest.toNat) :
    Follows lead (UInt8.ofNat (n % 64 + 0x80)) size := by
  refine ⟨_, _, hlead, ?_, ?_⟩
  · rw [UInt8.le_iff_toNat_le, toNat_second]
    split
    · next h => exact hleast h
    · exact Nat.le_add_left 0x80 (n % 64)
  · rw [UInt8.le_iff_toNat_le, toNat_second]
    split
    · next h => exact hgreatest h
    · show _ ≤ 0xbf
      omega

/-- Code points of three bytes below 0x1000 have a high second byte, and the surrogates, which would have a high
    one too, are not characters. -/
theorem follows_three (above : 0x7ff < n) (upto : n ≤ 0xffff) (scalar : n < 0xd800 ∨ 0xdfff < n) :
    Follows (UInt8.ofNat (n / 4096 % 16 + 0xe0)) (UInt8.ofNat (n / 64 % 64 + 0x80)) 3 := by
  refine follows_of_bounds (continuation?_three (n / 4096 % 16) (by omega)) (fun first => ?_) fun last => ?_
  · show 0xa0 ≤ _
    omega
  · show _ ≤ 0x9f
    omega

/-- The same at the ends of the code points of four bytes. -/
theorem follows_four (above : 0xffff < n) (valid : n < 0x110000) :
    Follows (UInt8.ofNat (n / 262144 % 8 + 0xf0)) (UInt8.ofNat (n / 4096 % 64 + 0x80)) 4 := by
  refine follows_of_bounds (continuation?_four (n / 262144 % 8) (by omega)) (fun first => ?_) fun last => ?_
  · show 0x90 ≤ _
    omega
  · show _ ≤ 0x8f
    omega

/-! ## The first bytes of a character -/

variable {lead second third : UInt8} {size : Nat}

theorem faultyLength_two (h : Follows lead second size) : faultyLength [lead, second] = 2 := by
  obtain ⟨least, greatest, hlead, hleast, hgreatest⟩ := h
  have inside : (second < least || greatest < second) = false := by simp [hleast, hgreatest]
  simp [faultyLength, hlead, inside]

theorem faultyLength_three (h : Follows lead second 4) (hthird : isContinuation third = true) :
    faultyLength [lead, second, third] = 3 := by
  obtain ⟨least, greatest, hlead, hleast, hgreatest⟩ := h
  have inside : (second < least || greatest < second) = false := by simp [hleast, hgreatest]
  simp [faultyLength, hlead, inside, hthird]

variable {c : Char} {k : Nat}

theorem length_take_utf8EncodeChar (h : k ≤ c.utf8Size) : ((String.utf8EncodeChar c).take k).length = k := by
  rw [List.length_take, String.length_utf8EncodeChar, Nat.min_eq_left h]

/-- The first bytes of a character are one faulty stretch. -/
theorem faultyLength_take (some_left : 0 < k) (cut : k < c.utf8Size) :
    faultyLength ((String.utf8EncodeChar c).take k) = k := by
  have valid : c.val.toNat < 0xd800 ∨ 0xdfff < c.val.toNat ∧ c.val.toNat < 0x110000 := c.valid
  rw [← String.length_utf8EncodeChar] at cut
  revert cut
  fun_cases String.utf8EncodeChar c with
  | case1 n upto =>
    intro cut
    obtain rfl : k = 0 := by simpa using cut
    exact absurd some_left (Nat.lt_irrefl 0)
  | case2 n above upto =>
    intro cut
    obtain rfl : k = 1 := by simp only [List.length_cons, List.length_nil] at cut; omega
    rfl
  | case3 n above above' upto =>
    intro cut
    obtain rfl | rfl : k = 1 ∨ k = 2 := by simp only [List.length_cons, List.length_nil] at cut; omega
    · rfl
    · exact faultyLength_two (follows_three (by omega) upto (by omega))
  | case4 n above above' above'' =>
    intro cut
    have follows := follows_four (n := n) (by omega) (by omega)
    obtain rfl | rfl | rfl : k = 1 ∨ k = 2 ∨ k = 3 := by
      simp only [List.length_cons, List.length_nil] at cut
      omega
    · rfl
    · exact faultyLength_two follows
    · exact faultyLength_three follows (isContinuation_of_mod (n / 64))

/-- The first bytes of a character do not decode. -/
theorem firstChar?_take (cut : k < c.utf8Size) : firstChar? ((String.utf8EncodeChar c).take k) = none := by
  have size : c.utf8Size ≤ 4 := c.utf8Size_le_four
  have left := length_take_utf8EncodeChar (Nat.le_of_lt cut)
  rw [firstChar?, List.take_of_length_le (by omega), Option.eq_none_iff_forall_ne_some]
  intro d decodes
  -- They would decode to the character that all its bytes decode to, and they are too few for it.
  have whole := ByteArray.utf8DecodeChar?_append_eq_some decodes ((String.utf8EncodeChar c).drop k).toByteArray
  rw [← List.toByteArray_append, List.take_append_drop] at whole
  have decoded := firstChar?_append c []
  rw [firstChar?, List.append_nil, List.take_of_length_le (by rw [String.length_utf8EncodeChar]; exact size), whole]
    at decoded
  obtain rfl : d = c := Option.some.inj decoded
  have enough := ByteArray.le_size_of_utf8DecodeChar?_eq_some decodes
  rw [List.size_toByteArray, left] at enough
  omega

theorem decodeLossyChars_take (some_left : 0 < k) (cut : k < c.utf8Size) :
    decodeLossyChars ((String.utf8EncodeChar c).take k) = [replacement] := by
  have hfirst := firstChar?_take cut
  have hfaulty := faultyLength_take some_left cut
  have hlength := length_take_utf8EncodeChar (Nat.le_of_lt cut)
  cases hbytes : (String.utf8EncodeChar c).take k with
  | nil =>
    rw [hbytes] at hlength
    exact absurd hlength (Nat.ne_of_lt some_left)
  | cons b bs =>
    rw [hbytes] at hfirst hfaulty hlength
    have rest : bs.drop (k - 1) = [] := by
      rw [← hlength, List.length_cons, Nat.add_sub_cancel, List.drop_length]
    rw [decodeLossyChars, hfirst, hfaulty]
    simp only [rest, decodeLossyChars]

/-! ## A text that is cut off -/

/-- How many bytes the characters take. -/
def byteLength (chars : List Char) : Nat := (chars.map Char.utf8Size).sum

theorem length_flatMap_utf8EncodeChar (chars : List Char) :
    (chars.flatMap String.utf8EncodeChar).length = byteLength chars := by
  simp [byteLength, List.length_flatMap]

/-- The characters before the cut decode, and one replacement character stands for what is left of the one that
    was cut. -/
theorem decodeLossyChars_cut (before : List Char) (some_left : 0 < k) (cut : k < c.utf8Size) :
    decodeLossyChars (before.flatMap String.utf8EncodeChar ++ (String.utf8EncodeChar c).take k) =
      before ++ [replacement] := by
  induction before with
  | nil => exact decodeLossyChars_take some_left cut
  | cons d before ih => rw [List.flatMap_cons, List.append_assoc, decodeLossyChars_append, ih, List.cons_append]

end PegMachine.Text
