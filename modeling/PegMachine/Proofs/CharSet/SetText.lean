import Mathlib.Data.List.Chain
import PegMachine.Instruction.Printer
import PegMachine.Proofs.CharSet.RangeForm
import PegMachine.Proofs.Text.Quoting
/-!
  What the text of a set says about the set.

  The text shows the bytes of the ranges one after the other, with a dash between the ends of a range. A dash
  that is in the set looks the same as one between two ends, so the text does not always tell the set. What is
  proved:
    1. `bareChars_inj`: the bytes that are shown can be read off the text. A backslash that is in the set is not
       taken for the start of an escape, because the bytes ascend;
    2. `eq_or_misread`: the ranges can be read off these bytes, but for a dash between a byte below it and one
       above it (`ByteRange.Misread`);
    3. `kind_and_text_of_text`: the text of an instruction has its kind and the text of its set in it;
    4. `text_tells_set`: so two sets have the same text exactly if they are the same or differ in such a dash.
-/
namespace PegMachine

/-- The byte that stands between the ends of a range. -/
def dash : UInt8 := 0x2d

/-! ## The bytes that are shown -/

namespace ByteRange

/-- The bytes that the text of a range shows. -/
def shown (r : ByteRange) : Bytes := if r.lo = r.hi then [r.lo] else [r.lo, dash, r.hi]

/-- The bytes that the text of ranges shows, one range after the other. -/
def row (ranges : List ByteRange) : Bytes := ranges.flatMap shown

theorem chars_eq (r : ByteRange) : r.chars = Text.bareChars r.shown := by
  have between : '-' :: Text.bareByte r.hi = Text.bareByte dash ++ Text.bareByte r.hi := rfl
  rw [chars, shown]
  split
  · simp [Text.bareChars]
  · simp [Text.bareChars, between]

theorem flatMap_chars (ranges : List ByteRange) : ranges.flatMap chars = Text.bareChars (row ranges) := by
  rw [Text.bareChars, row, List.flatMap_assoc]
  exact List.flatMap_congr fun r _ => r.chars_eq

/-- The ranges are not empty, and a byte is missing between any two of them. -/
structure Spaced (ranges : List ByteRange) : Prop where
  valid : ∀ r ∈ ranges, r.lo ≤ r.hi
  apart : ranges.Pairwise Before

variable {r q : ByteRange} {rs qs : List ByteRange} {a b x : UInt8} {bytes : Bytes}

theorem row_cons (r : ByteRange) (rs : List ByteRange) : row (r :: rs) = r.shown ++ row rs := rfl

theorem row_single (a : UInt8) (rs : List ByteRange) : row (⟨a, a⟩ :: rs) = a :: row rs := by
  rw [row_cons, shown, if_pos rfl, List.singleton_append]

theorem row_of_ne (ne : a ≠ b) (rs : List ByteRange) : row (⟨a, b⟩ :: rs) = a :: dash :: b :: row rs := by
  rw [row_cons, shown, if_neg ne]
  rfl

theorem row_eq_nil : row rs = [] ↔ rs = [] := by
  cases rs with
  | nil => simp [row]
  | cons r rs =>
    rw [row_cons, shown]
    split <;> simp

/-- What begins with a byte is the row of ranges of which the first begins with it. -/
theorem row_eq_cons (h : row rs = x :: bytes) :
    ∃ rest, rs = ⟨x, x⟩ :: rest ∧ row rest = bytes ∨
      ∃ y, x ≠ y ∧ rs = ⟨x, y⟩ :: rest ∧ dash :: y :: row rest = bytes := by
  match rs with
  | [] => exact absurd h (List.cons_ne_nil x bytes).symm
  | ⟨lo, hi⟩ :: rest =>
    by_cases ends : lo = hi
    · rw [ends, row_single, List.cons.injEq] at h
      obtain ⟨rfl, rfl⟩ := h
      exact ⟨rest, .inl ⟨by rw [ends], rfl⟩⟩
    · rw [row_of_ne ends, List.cons.injEq] at h
      obtain ⟨rfl, rfl⟩ := h
      exact ⟨rest, .inr ⟨hi, ends, rfl, rfl⟩⟩

/-- Where two rows are the same, the first ranges are, unless one is a byte alone and the other begins with it. -/
theorem row_cons_eq_row (h : row (r :: rs) = row qs) :
    ∃ rest, qs = r :: rest ∧ row rs = row rest ∨
      ∃ a b, r = ⟨a, a⟩ ∧ qs = ⟨a, b⟩ :: rest ∧ row rs = dash :: b :: row rest ∨
        r = ⟨a, b⟩ ∧ qs = ⟨a, a⟩ :: rest ∧ row rest = dash :: b :: row rs := by
  obtain ⟨lo, hi⟩ := r
  by_cases ends : lo = hi
  · subst ends
    rw [row_single] at h
    obtain ⟨rest, ⟨rfl, hrest⟩ | ⟨y, -, rfl, hrest⟩⟩ := row_eq_cons h.symm
    · exact ⟨rest, .inl ⟨rfl, hrest.symm⟩⟩
    · exact ⟨rest, .inr ⟨lo, y, .inl ⟨rfl, rfl, hrest.symm⟩⟩⟩
  · rw [row_of_ne ends] at h
    obtain ⟨rest, ⟨rfl, hrest⟩ | ⟨y, -, rfl, hrest⟩⟩ := row_eq_cons h.symm
    · exact ⟨rest, .inr ⟨lo, hi, .inr ⟨rfl, rfl, hrest⟩⟩⟩
    · obtain ⟨rfl, hrow⟩ := List.cons.inj (List.cons.inj hrest).2
      exact ⟨rest, .inl ⟨rfl, hrow.symm⟩⟩

namespace Spaced

theorem tail (h : Spaced (r :: rs)) : Spaced rs :=
  ⟨fun q hq => h.valid q (List.mem_cons_of_mem r hq), (List.pairwise_cons.1 h.apart).2⟩

theorem lt (h : Spaced (r :: rs)) (hq : q ∈ rs) : r.hi < q.lo := by
  have before : r.hi.toNat + 1 < q.lo.toNat := (List.pairwise_cons.1 h.apart).1 q hq
  rw [UInt8.lt_iff_toNat_lt]
  omega

end Spaced

end ByteRange

/-! ## From the text to the bytes -/

/-- Neighbours ascend, unless one of them is a dash. -/
def Ascending (bytes : Bytes) : Prop := bytes.IsChain fun x y => x = dash ∨ y = dash ∨ x < y

theorem ByteRange.Spaced.ascending {rs : List ByteRange} (h : Spaced rs) : Ascending (row rs) := by
  induction rs with
  | nil => exact List.isChain_nil
  | cons r rs ih =>
    have first : ∀ y ∈ (row rs).head?, r.hi < y := by
      intro y hy
      obtain ⟨bytes, hrow⟩ := List.head?_eq_some_iff.1 hy
      obtain ⟨rest, ⟨rfl, -⟩ | ⟨z, -, rfl, -⟩⟩ := row_eq_cons hrow
      · exact h.lt List.mem_cons_self
      · exact h.lt List.mem_cons_self
    rw [Ascending, row_cons, List.isChain_append]
    refine ⟨?_, ih h.tail, fun x hx y hy => ?_⟩
    · rw [shown]
      split <;> simp
    · have last : x = r.hi := by
        rw [shown] at hx
        split at hx
        · next ends => simpa [ends] using hx.symm
        · simpa using hx.symm
      exact .inr (.inr (last ▸ first y hy))

namespace Text

theorem bareByte_ne_nil (b : UInt8) : bareByte b ≠ [] := by
  rw [bareByte]
  split <;> simp

theorem toNat_printable : ∀ b ∈ allBytes, isPrintable b = true → (Char.ofNat b.toNat).toNat = b.toNat := by
  decide +kernel

/-- A character that starts no escape is a byte that is shown as it is. -/
theorem bareChars_eq_cons {bytes : Bytes} {c : Char} {chars : List Char} (h : bareChars bytes = c :: chars)
    (plain : c ≠ '\\') : ∃ b rest, bytes = b :: rest ∧ b.toNat = c.toNat ∧ bareChars rest = chars := by
  match bytes with
  | [] => exact absurd h (List.cons_ne_nil c chars).symm
  | b :: rest =>
    rw [bareChars, List.flatMap_cons, bareByte] at h
    split at h
    · next printable =>
      rw [List.singleton_append, List.cons.injEq] at h
      obtain ⟨rfl, rfl⟩ := h
      exact ⟨b, rest, rfl, (toNat_printable b (mem_allBytes b) printable).symm, rfl⟩
    · exact absurd (List.cons.inj h).1.symm plain

/-- No backslash is followed by what would make it an escape: no digit comes above the letter. -/
theorem bareChars_ne_escape {x y : UInt8} {bytes : Bytes} {chars : List Char} (ascending : Ascending (x :: bytes))
    (printable : isPrintable x = true) : bareChars (x :: bytes) ≠ '\\' :: 'x' :: (hexByte y ++ chars) := by
  have digits : ∀ n < 16, hexDigit n ≠ '\\' ∧ (hexDigit n).toNat < 0x78 ∧ (hexDigit n).toNat ≠ 0x2d := by decide
  intro h
  rw [bareChars, List.flatMap_cons, bareByte, if_pos printable, List.singleton_append, List.cons.injEq] at h
  obtain ⟨letter, rest, rfl, hletter, h⟩ := bareChars_eq_cons h.2 (by decide)
  have hy : y.toNat < 256 := y.toNat_lt
  obtain ⟨noBackslash, below, noDash⟩ := digits (y.toNat / 16) (by omega)
  obtain ⟨digit, rest, rfl, hdigit, -⟩ := bareChars_eq_cons h noBackslash
  rw [Ascending, List.isChain_cons_cons, List.isChain_cons_cons] at ascending
  have letterValue : ('x').toNat = 0x78 := rfl
  rw [letterValue] at hletter
  rcases ascending.2.1 with rfl | rfl | above
  · exact absurd hletter (by decide)
  · exact noDash hdigit.symm
  · rw [UInt8.lt_iff_toNat_lt] at above
    omega

theorem bareByte_append {x y : UInt8} {chars chars' : List Char} (same : isPrintable x = isPrintable y)
    (h : bareByte x ++ chars = bareByte y ++ chars') : x = y ∧ chars = chars' := by
  rw [bareByte, bareByte, ← same] at h
  split at h
  · next printable =>
    rw [List.singleton_append, List.singleton_append, List.cons.injEq] at h
    have value := congrArg Char.toNat h.1
    rw [toNat_printable x (mem_allBytes x) printable, toNat_printable y (mem_allBytes y) (same ▸ printable)] at value
    exact ⟨UInt8.toNat_inj.1 value, h.2⟩
  · simp only [hexByte, List.cons_append, List.nil_append, List.cons.injEq, true_and] at h
    obtain ⟨high, low, rest⟩ := h
    have escaped := hexEscape?_hexByte x
    rw [high, low, hexEscape?_hexByte] at escaped
    exact ⟨(Option.some.inj escaped).symm, rest⟩

/-- Ascending bytes can be read off their bare form. -/
theorem bareChars_inj {bytes bytes' : Bytes} (ascending : Ascending bytes) (ascending' : Ascending bytes')
    (h : bareChars bytes = bareChars bytes') : bytes = bytes' := by
  induction bytes generalizing bytes' with
  | nil =>
    match bytes' with
    | [] => rfl
    | y :: bytes' => exact absurd (List.append_eq_nil_iff.1 h.symm).1 (bareByte_ne_nil y)
  | cons x bytes ih =>
    match bytes' with
    | [] => exact absurd (List.append_eq_nil_iff.1 h).1 (bareByte_ne_nil x)
    | y :: bytes' =>
      have escape (b : UInt8) (bytes : Bytes) (hb : isPrintable b = false) :
          bareChars (b :: bytes) = '\\' :: 'x' :: (hexByte b ++ bareChars bytes) := by
        simp [bareChars, bareByte, hb]
      have same : isPrintable x = isPrintable y := by
        cases hx : isPrintable x <;> cases hy : isPrintable y
        · rfl
        · exact absurd (h.symm.trans (escape x bytes hx)) (bareChars_ne_escape ascending' hy)
        · exact absurd (h.trans (escape y bytes' hy)) (bareChars_ne_escape ascending hx)
        · rfl
      obtain ⟨rfl, hrest⟩ := bareByte_append same h
      exact congrArg (x :: ·) (ih ascending.tail ascending'.tail hrest)

end Text

/-! ## From the bytes to the ranges -/

namespace ByteRange

/-- The first list has a dash as a byte of its own, or as the upper end of a range, that the second list has
    between the ends of a range, or as their lower end: the two show the same bytes. -/
inductive Misread : List ByteRange → List ByteRange → Prop where
  /-- A dash between two bytes looks like a range. -/
  | between (before after : List ByteRange) (a b : UInt8) (below : a < dash) (above : dash < b) :
    Misread (before ++ ⟨a, a⟩ :: ⟨dash, dash⟩ :: ⟨b, b⟩ :: after) (before ++ ⟨a, b⟩ :: after)
  /-- A range up to the dash and a byte look like a byte and a range from the dash on. -/
  | beside (before after : List ByteRange) (a b : UInt8) (below : a < dash) (above : dash < b) :
    Misread (before ++ ⟨a, dash⟩ :: ⟨b, b⟩ :: after) (before ++ ⟨a, a⟩ :: ⟨dash, b⟩ :: after)

variable {r : ByteRange} {rs qs : List ByteRange} {a b : UInt8}

theorem Misread.cons (r : ByteRange) (h : Misread rs qs) : Misread (r :: rs) (r :: qs) := by
  cases h with
  | between before after a b below above => exact .between (r :: before) after a b below above
  | beside before after a b below above => exact .beside (r :: before) after a b below above

theorem Misread.row_eq (h : Misread rs qs) : row rs = row qs := by
  cases h with
  | between before after a b below above =>
    have ne : a ≠ b := UInt8.ne_of_lt (UInt8.lt_trans below above)
    simp [row, shown, ne]
  | beside before after a b below above => simp [row, shown, UInt8.ne_of_lt below, UInt8.ne_of_lt above]

/-- The byte is in one of the ranges. -/
def Covers (ranges : List ByteRange) (x : UInt8) : Prop := ∃ r ∈ ranges, r.lo ≤ x ∧ x ≤ r.hi

@[simp]
theorem covers_cons {x : UInt8} : Covers (r :: rs) x ↔ r.lo ≤ x ∧ x ≤ r.hi ∨ Covers rs x := by
  rw [Covers, List.exists_mem_cons_iff, Covers]

@[simp]
theorem covers_append {x : UInt8} : Covers (rs ++ qs) x ↔ Covers rs x ∨ Covers qs x := by
  simp only [Covers, List.mem_append, or_and_right, exists_or]

/-- Both lists cover the dash and the bytes next to it, and all bytes that are not between the two alike. -/
theorem Misread.covers_iff (h : Misread rs qs) :
    ∃ a b, a < dash ∧ dash < b ∧ (∀ x ∈ [a, dash, b], Covers rs x) ∧
      ∀ x, x ≤ a ∨ x = dash ∨ b ≤ x → (Covers rs x ↔ Covers qs x) := by
  cases h with
  | between before after a b below above =>
    refine ⟨a, b, below, above, by simp, fun x hx => ?_⟩
    rw [covers_append, covers_append]
    refine or_congr_right ?_
    simp only [covers_cons, UInt8.le_iff_toNat_le, UInt8.lt_iff_toNat_lt, ← UInt8.toNat_inj] at *
    grind
  | beside before after a b below above =>
    refine ⟨a, b, below, above, by simp [UInt8.le_of_lt below], fun x hx => ?_⟩
    rw [covers_append, covers_append]
    refine or_congr_right ?_
    simp only [covers_cons, UInt8.le_iff_toNat_le, UInt8.lt_iff_toNat_lt, ← UInt8.toNat_inj] at *
    grind

theorem row_ne_dash {bytes : Bytes} (above : ∀ r ∈ rs, dash < r.lo) : row rs ≠ dash :: bytes := by
  intro h
  obtain ⟨rest, ⟨rfl, -⟩ | ⟨y, -, rfl, -⟩⟩ := row_eq_cons h
  · exact UInt8.lt_irrefl _ (above _ List.mem_cons_self)
  · exact UInt8.lt_irrefl _ (above _ List.mem_cons_self)

/-- Above the dash the ranges can be read off the bytes: a dash can only be between two ends. -/
theorem eq_of_above (above : ∀ r ∈ rs, dash < r.lo) (above' : ∀ r ∈ qs, dash < r.lo) (h : row rs = row qs) :
    rs = qs := by
  induction rs generalizing qs with
  | nil => exact (row_eq_nil.1 h.symm).symm
  | cons r rs ih =>
    have tail (q : ByteRange) (hq : q ∈ rs) : dash < q.lo := above q (List.mem_cons_of_mem r hq)
    obtain ⟨rest, ⟨rfl, hrest⟩ | ⟨a, b, ⟨rfl, rfl, hrest⟩ | ⟨rfl, rfl, hrest⟩⟩⟩ := row_cons_eq_row h
    · rw [ih tail (fun q hq => above' q (List.mem_cons_of_mem r hq)) hrest]
    · exact absurd hrest (row_ne_dash tail)
    · exact absurd hrest (row_ne_dash fun q hq => above' q (List.mem_cons_of_mem _ hq))

theorem Spaced.above (h : Spaced (r :: rs)) (hr : dash < r.hi) : ∀ q ∈ rs, dash < q.lo :=
  fun _ hq => UInt8.lt_trans hr (h.lt hq)

/-- One byte on the one side, the lower end of a range on the other. -/
theorem misread_of_single (spaced : Spaced (⟨a, a⟩ :: rs)) (spaced' : Spaced (⟨a, b⟩ :: qs))
    (h : row rs = dash :: b :: row qs) :
    Misread (⟨a, a⟩ :: rs) (⟨a, b⟩ :: qs) ∨ Misread (⟨a, b⟩ :: qs) (⟨a, a⟩ :: rs) := by
  obtain ⟨rest, ⟨rfl, hrest⟩ | ⟨y, hy, rfl, hrest⟩⟩ := row_eq_cons h
  · -- The dash is a byte of its own, so what comes next is the byte that ends the range on the other side.
    have below : a < dash := spaced.lt List.mem_cons_self
    obtain ⟨after, ⟨rfl, hafter⟩ | ⟨z, -, rfl, hafter⟩⟩ := row_eq_cons hrest
    · have above : dash < b := spaced.tail.lt List.mem_cons_self
      rw [eq_of_above (spaced.tail.tail.above above) (spaced'.above above) hafter]
      exact .inl (.between [] qs a b below above)
    · have above : dash < b := spaced.tail.lt List.mem_cons_self
      exact absurd hafter.symm (row_ne_dash (spaced'.above above))
  · -- A range begins at the dash, so the dash is the upper end of the range on the other side.
    have below : a < dash := spaced.lt List.mem_cons_self
    have above : dash < y := UInt8.lt_of_le_of_ne (spaced.tail.valid _ List.mem_cons_self) hy
    obtain ⟨rfl, hrow⟩ := List.cons.inj hrest
    obtain ⟨after, ⟨rfl, hafter⟩ | ⟨z, -, rfl, hafter⟩⟩ := row_eq_cons hrow.symm
    · rw [eq_of_above (spaced'.tail.above above) (spaced.tail.above above) hafter]
      exact .inr (.beside [] rest a y below above)
    · exact absurd hafter.symm (row_ne_dash (spaced.tail.above above))

/-- Induction on the ranges. The two sides go on alike until one has a byte where the other has a range. -/
theorem eq_or_misread (spaced : Spaced rs) (spaced' : Spaced qs) (h : row rs = row qs) :
    rs = qs ∨ Misread rs qs ∨ Misread qs rs := by
  induction rs generalizing qs with
  | nil => exact .inl (row_eq_nil.1 h.symm).symm
  | cons r rs ih =>
    obtain ⟨rest, ⟨rfl, hrest⟩ | ⟨a, b, ⟨rfl, rfl, hrest⟩ | ⟨rfl, rfl, hrest⟩⟩⟩ := row_cons_eq_row h
    · exact (ih spaced.tail spaced'.tail hrest).imp (congrArg (r :: ·)) (Or.imp (.cons r) (.cons r))
    · exact .inr (misread_of_single spaced spaced' hrest)
    · exact .inr (misread_of_single spaced' spaced hrest).symm

end ByteRange

/-! ## Sets and their instructions -/

namespace Instruction

/-- The four kinds of instructions that have a set. -/
def setKinds : List (CharSet → Instruction) := [charSet, notCharSet, optionalCharSet, zeroMoreCharSet]

/-- The name of an opcode ends at the first space, so the text has the opcode and the operands in it. -/
theorem opcode_and_operand_of_text {i j : Instruction} {x y : String} (hi : i.operandText? = some x)
    (hj : j.operandText? = some y) (h : i.text = j.text) : i.opcode = j.opcode ∧ x = y := by
  have chars : i.opcode.name.toList ++ ' ' :: x.toList = j.opcode.name.toList ++ ' ' :: y.toList := by
    simpa [text, hi, hj] using congrArg String.toList h
  have front (op : Opcode) (operand : List Char) :
      (op.name.toList ++ ' ' :: operand).takeWhile (· ≠ ' ') = op.name.toList := by
    have inName (c : Char) (hc : c ∈ op.name.toList) : decide (c ≠ ' ') = true :=
      decide_eq_true fun space => op.space_notMem_name (space ▸ hc)
    rw [List.takeWhile_append_of_pos inName]
    simp
  have name : i.opcode.name.toList = j.opcode.name.toList := by rw [← front i.opcode x.toList, chars, front]
  rw [name] at chars
  refine ⟨Option.some.inj ?_, String.toList_inj.1 (List.cons.inj (List.append_cancel_left chars)).2⟩
  rw [← Opcode.ofName?_name i.opcode, String.toList_inj.1 name, Opcode.ofName?_name]

theorem kind_and_text_of_text {kind kind' : CharSet → Instruction} (hkind : kind ∈ setKinds)
    (hkind' : kind' ∈ setKinds) {s t : CharSet} (h : (kind s).text = (kind' t).text) :
    kind = kind' ∧ s.text = t.text := by
  have operand : ∀ kind ∈ setKinds, ∀ s : CharSet, (kind s).operandText? = some s.text := by
    simp [setKinds, operandText?]
  have same : ∀ kind ∈ setKinds, ∀ kind' ∈ setKinds, (kind s).opcode = (kind' t).opcode → kind = kind' := by
    simp [setKinds, opcode]
  obtain ⟨opcode, text⟩ := opcode_and_operand_of_text (operand kind hkind s) (operand kind' hkind' t) h
  exact ⟨same kind hkind kind' hkind' opcode, text⟩

end Instruction

namespace CharSet

open ByteRange (Spaced Misread row)

variable {s t : CharSet}

theorem spaced_ranges (s : CharSet) : Spaced s.ranges := ⟨s.isRangeForm_ranges.valid, s.isRangeForm_ranges.apart⟩

theorem eq_of_ranges (h : s.ranges = t.ranges) : s = t := by
  rw [← ofRanges_of_coveredBy s.isRangeForm_ranges.covers, h, ofRanges_of_coveredBy t.isRangeForm_ranges.covers]

theorem text_eq_iff_row : s.text = t.text ↔ row s.ranges = row t.ranges := by
  rw [text, text, chars, chars, ByteRange.flatMap_chars, ByteRange.flatMap_chars, String.ofList_inj]
  constructor
  · intro h
    exact Text.bareChars_inj s.spaced_ranges.ascending t.spaced_ranges.ascending
      (List.append_cancel_right (List.cons.inj h).2)
  · intro h
    rw [h]

/-- **The text of a set tells everything about it but how to read a dash.** -/
theorem text_eq_iff :
    s.text = t.text ↔ s = t ∨ Misread s.ranges t.ranges ∨ Misread t.ranges s.ranges := by
  rw [text_eq_iff_row]
  constructor
  · intro h
    exact (ByteRange.eq_or_misread s.spaced_ranges t.spaced_ranges h).imp_left eq_of_ranges
  · rintro (rfl | misread | misread)
    · rfl
    · exact misread.row_eq
    · exact misread.row_eq.symm

/-- The two bytes lie on different sides of the dash. They and the dash are in both sets, and whatever is not
    between them and the dash is in both or in none. -/
structure DifferAround (s t : CharSet) (a b : UInt8) : Prop where
  below : a < dash
  above : dash < b
  members : ∀ x ∈ [a, dash, b], s.contains x = true ∧ t.contains x = true
  agree : ∀ x, x ≤ a ∨ x = dash ∨ b ≤ x → s.contains x = t.contains x

theorem DifferAround.symm {a b : UInt8} (h : s.DifferAround t a b) : t.DifferAround s a b where
  below := h.below
  above := h.above
  members x hx := (h.members x hx).symm
  agree x hx := (h.agree x hx).symm

theorem differAround_of_misread (h : Misread s.ranges t.ranges) : ∃ a b, s.DifferAround t a b := by
  obtain ⟨a, b, below, above, members, agree⟩ := h.covers_iff
  have same (x : UInt8) (hx : x ≤ a ∨ x = dash ∨ b ≤ x) : s.contains x = t.contains x := by
    rw [Bool.eq_iff_iff, ← s.isRangeForm_ranges.covers, ← t.isRangeForm_ranges.covers]
    exact agree x hx
  refine ⟨a, b, below, above, fun x hx => ?_, same⟩
  have inside := (s.isRangeForm_ranges.covers x).1 (members x hx)
  refine ⟨inside, (same x ?_).symm.trans inside⟩
  simp only [List.mem_cons, List.not_mem_nil, or_false] at hx
  rcases hx with rfl | rfl | rfl
  · exact .inl (UInt8.le_refl _)
  · exact .inr (.inl rfl)
  · exact .inr (.inr (UInt8.le_refl _))

theorem eq_or_differAround (h : s.text = t.text) : s = t ∨ ∃ a b, s.DifferAround t a b := by
  rcases text_eq_iff.1 h with same | misread | misread
  · exact .inl same
  · exact .inr (differAround_of_misread misread)
  · obtain ⟨a, b, differ⟩ := differAround_of_misread misread
    exact .inr ⟨a, b, differ.symm⟩

/-- **The text of a set tells the set, but for how to read a dash.** Two sets have the same text exactly if they are
    the same or a dash in it can be read in both ways. In this case both have the dash in them, with a byte below
    it and one above it, and they differ between these bytes only. Instructions with sets that have the same text
    are of the same kind, and what is said of the sets holds of theirs. -/
theorem text_tells_set :
    (∀ s t : CharSet, s.text = t.text ↔ s = t ∨ Misread s.ranges t.ranges ∨ Misread t.ranges s.ranges) ∧
    (∀ s t : CharSet, s.text = t.text → s = t ∨ ∃ a b, s.DifferAround t a b) ∧
    ∀ kind ∈ Instruction.setKinds, ∀ kind' ∈ Instruction.setKinds, ∀ s t : CharSet,
      (kind s).text = (kind' t).text → kind = kind' ∧ (s = t ∨ ∃ a b, s.DifferAround t a b) := by
  refine ⟨fun s t => text_eq_iff, fun s t => eq_or_differAround, fun kind hkind kind' hkind' s t h => ?_⟩
  obtain ⟨same, texts⟩ := Instruction.kind_and_text_of_text hkind hkind' h
  exact ⟨same, eq_or_differAround texts⟩

/-- Plus, dash and slash, without the comma and the dot in between. -/
def threeSigns : CharSet := ofRanges [⟨0x2b, 0x2b⟩, ⟨0x2d, 0x2d⟩, ⟨0x2f, 0x2f⟩]

/-- Everything from plus to slash. -/
def plusToSlash : CharSet := ofRanges [⟨0x2b, 0x2f⟩]

theorem text_tells_set_threeSigns :
    threeSigns.text = "[+-/]" ∧ threeSigns.text = plusToSlash.text ∧ threeSigns ≠ plusToSlash ∧
    ∃ a b, threeSigns.DifferAround plusToSlash a b := by
  have same : threeSigns.text = plusToSlash.text := by decide +kernel
  have differ : threeSigns ≠ plusToSlash := by decide
  exact ⟨by decide +kernel, same, differ, (text_tells_set.2.1 _ _ same).resolve_left differ⟩

/-- The text does not identify the set, nor what an instruction with it matches: a comma is in one of the sets. -/
theorem text_threeSigns_ambiguous :
    (¬ ∀ s t : CharSet, s.text = t.text → s = t) ∧
    ¬ ∀ s t : CharSet, (Instruction.charSet s).text = (Instruction.charSet t).text →
      ∀ b, s.contains b = t.contains b := by
  have comma : threeSigns.contains 0x2c ≠ plusToSlash.contains 0x2c := by decide
  constructor
  · intro identified
    have same : threeSigns.text = plusToSlash.text := by decide +kernel
    exact comma (congrArg (contains · 0x2c) (identified _ _ same))
  · intro identified
    have same : (Instruction.charSet threeSigns).text = (Instruction.charSet plusToSlash).text := by decide +kernel
    exact comma (identified _ _ same 0x2c)

end CharSet

end PegMachine
