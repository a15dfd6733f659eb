import PegMachine.Bytes
/-!
  UTF-8.

  Text is encoded to bytes and decoded in two ways. The strict way refuses bytes that are not UTF-8. The
  lossy way never fails: it puts one replacement character for each longest stretch of bytes that could
  have begun a character and does not make one. On the bytes of a text both give that text back
  (`decode?_encode`, `decodeLossy_encode`).

  Correspondence (program ↔ here):
    `as_bytes`        ↔ `encode`
    `from_utf8`       ↔ `decode?`
    `from_utf8_lossy` ↔ `decodeLossy`, `decodeLossyChars`
-/
namespace PegMachine.Text

/-- The UTF-8 bytes of a text. -/
def encode (text : String) : Bytes := text.toByteArray.data.toList

/-- The text that the bytes encode, if they are valid UTF-8. -/
def decode? (bytes : Bytes) : Option String := String.fromUTF8? bytes.toByteArray

/-! ## Lossy decoding -/

/-- The character whose UTF-8 form the bytes start with, if there is one. -/
def firstChar? (bytes : Bytes) : Option Char := (bytes.take 4).toByteArray.utf8DecodeChar? 0

/-- What may follow a lead byte: how many bytes the character has in all, and the least and the greatest
    second byte. Second bytes that would write a character in too many bytes, a surrogate or a number
    above the last character are left out. -/
def continuation? (lead : UInt8) : Option (Nat × UInt8 × UInt8) :=
  if lead < 0xc2 then none
  else if lead < 0xe0 then some (2, 0x80, 0xbf)
  else if lead = 0xe0 then some (3, 0xa0, 0xbf)
  else if lead = 0xed then some (3, 0x80, 0x9f)
  else if lead < 0xf0 then some (3, 0x80, 0xbf)
  else if lead = 0xf0 then some (4, 0x90, 0xbf)
  else if lead < 0xf4 then some (4, 0x80, 0xbf)
  else if lead = 0xf4 then some (4, 0x80, 0x8f)
  else none

def isContinuation (b : UInt8) : Bool := 0x80 ≤ b && b ≤ 0xbf

/-- How many of the first bytes one replacement character stands for, when the bytes do not start with
    a character: all that could begin one, and at least one. -/
def faultyLength : Bytes → Nat
  | lead :: second :: rest =>
    match continuation? lead with
    | none => 1
    | some (size, least, greatest) =>
      if second < least || greatest < second then 1
      else if size = 4 && rest.head?.any isContinuation then 3
      else 2
  | _ => 1

/-- The character that stands for what could not be decoded. -/
def replacement : Char := Char.ofNat 0xFFFD

/-- The characters that the bytes encode, with a replacement character for each faulty stretch. -/
def decodeLossyChars (bytes : Bytes) : List Char :=
  match bytes with
  | [] => []
  | b :: bs =>
    match firstChar? (b :: bs) with
    | some c => c :: decodeLossyChars (bs.drop (c.utf8Size - 1))
    | none => replacement :: decodeLossyChars (bs.drop (faultyLength (b :: bs) - 1))
termination_by bytes.length
decreasing_by all_goals (simp only [List.length_drop, List.length_cons]; omega)

/-- The text that the bytes encode, faulty stretches replaced. -/
def decodeLossy (bytes : Bytes) : String := String.ofList (decodeLossyChars bytes)

/-! ## Decoding what was encoded -/

theorem toByteArray_encode (text : String) : (encode text).toByteArray = text.toByteArray := by
  apply ByteArray.ext
  apply Array.toList_inj.1
  simp [encode]

theorem decode?_encode (text : String) : decode? (encode text) = some text := by
  rw [decode?, toByteArray_encode, String.fromUTF8?, dif_pos text.isValidUTF8]
  rfl

theorem encode_eq_flatMap (text : String) : encode text = text.toList.flatMap String.utf8EncodeChar := by
  have h : text.toByteArray = text.toList.utf8Encode := by simp
  rw [encode, h]
  simp [List.utf8Encode]

theorem firstChar?_append (c : Char) (rest : Bytes) :
    firstChar? (String.utf8EncodeChar c ++ rest) = some c := by
  have hle : (String.utf8EncodeChar c).length ≤ 4 := by
    rw [String.length_utf8EncodeChar]
    exact c.utf8Size_le_four
  rw [firstChar?, List.take_append, List.take_of_length_le hle, List.toByteArray_append]
  exact ByteArray.utf8DecodeChar?_utf8EncodeChar_append

theorem decodeLossyChars_append (c : Char) (rest : Bytes) :
    decodeLossyChars (String.utf8EncodeChar c ++ rest) = c :: decodeLossyChars rest := by
  have hlen : (String.utf8EncodeChar c).length = c.utf8Size := String.length_utf8EncodeChar c
  have hfirst := firstChar?_append c rest
  match hl : String.utf8EncodeChar c, hlen with
  | [], h0 => exact absurd h0.symm (Nat.ne_of_gt c.utf8Size_pos)
  | b :: bs, h0 =>
    rw [hl, List.cons_append] at hfirst
    rw [List.cons_append, decodeLossyChars, hfirst]
    have hdrop : (bs ++ rest).drop (c.utf8Size - 1) = rest := by
      rw [← h0, List.length_cons, Nat.add_sub_cancel]
      simp
    simp only [hdrop]

theorem decodeLossyChars_flatMap (chars : List Char) :
    decodeLossyChars (chars.flatMap String.utf8EncodeChar) = chars := by
  induction chars with
  | nil => simp [decodeLossyChars]
  | cons c chars ih => rw [List.flatMap_cons, decodeLossyChars_append, ih]

theorem decodeLossy_encode (text : String) : decodeLossy (encode text) = text := by
  rw [decodeLossy, encode_eq_flatMap, decodeLossyChars_flatMap, String.ofList_toList]

end PegMachine.Text
