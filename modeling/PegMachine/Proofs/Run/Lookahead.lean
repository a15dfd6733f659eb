import PegMachine.Machine
/-!
  What a run sees of the input.

  A run looks at the input from the cursor on: at the next byte, at a literal, at a stretch of bytes. What is
  proved:
    1. `getElem?_eq_head?`, `hasAt_eq`, `skipWhile_eq`: what it sees is a matter of the rest of the input, the
       bytes from the cursor on;
    2. `of_lt_skipWhile`, `not_of_skipWhile`: a stretch of bytes with a property is the longest there is;
    3. `add_length_le_of_hasAt`, `skipWhile_le`: what it finds does not go past the end of the input.
-/
namespace PegMachine

namespace Input

variable {input : Input}

/-! ## The rest of the input -/

theorem getElem?_eq_head? (pos : Nat) : input[pos]? = (input.toList.drop pos).head? := by
  rw [List.head?_drop, Array.getElem?_toList]

theorem hasAt_eq (pos : Nat) (literal : Bytes) :
    input.hasAt pos literal = literal.isPrefixOf (input.toList.drop pos) := by
  induction literal generalizing pos with
  | nil => simp [hasAt]
  | cons b bs ih =>
    rw [hasAt, ih, ← List.tail_drop, getElem?_eq_head?]
    cases input.toList.drop pos with
    | nil => rfl
    | cons c rest => simp [List.isPrefixOf, Bool.beq_comm]

theorem drop_eq_cons {pos : Nat} (h : pos < input.size) :
    input.toList.drop pos = input[pos] :: input.toList.drop (pos + 1) := by
  rw [List.drop_eq_getElem_cons (by simpa using h), Array.getElem_toList]

theorem skipWhile_eq (p : UInt8 → Bool) (pos : Nat) :
    input.skipWhile p pos = pos + ((input.toList.drop pos).takeWhile p).length := by
  induction pos using skipWhile.induct p input with
  | case1 pos h hp ih =>
    rw [skipWhile, dif_pos h, if_pos hp, ih, drop_eq_cons h, List.takeWhile_cons_of_pos hp, List.length_cons]
    omega
  | case2 pos h hp =>
    rw [skipWhile, dif_pos h, if_neg hp, drop_eq_cons h, List.takeWhile_cons_of_neg hp]
    rfl
  | case3 pos h =>
    rw [skipWhile, dif_neg h, List.drop_of_length_le (by simpa using h)]
    rfl

/-! ## The longest stretch -/

theorem le_skipWhile (p : UInt8 → Bool) (pos : Nat) : pos ≤ input.skipWhile p pos := by
  rw [skipWhile_eq]
  exact Nat.le_add_right ..

/-- All bytes of the stretch have the property. -/
theorem of_lt_skipWhile {p : UInt8 → Bool} {pos q : Nat} (start : pos ≤ q) (before : q < input.skipWhile p pos) :
    ∃ b, input[q]? = some b ∧ p b = true := by
  induction pos using skipWhile.induct p input with
  | case1 pos h hp ih =>
    rw [skipWhile, dif_pos h, if_pos hp] at before
    rcases Nat.lt_or_eq_of_le start with later | rfl
    · exact ih later before
    · exact ⟨input[pos], Array.getElem?_eq_getElem h, hp⟩
  | case2 pos h hp =>
    rw [skipWhile, dif_pos h, if_neg hp] at before
    omega
  | case3 pos h =>
    rw [skipWhile, dif_neg h] at before
    omega

/-- The byte behind it has not. -/
theorem not_of_skipWhile {p : UInt8 → Bool} {pos : Nat} {b : UInt8} (next : input[input.skipWhile p pos]? = some b) :
    p b = false := by
  induction pos using skipWhile.induct p input with
  | case1 pos h hp ih =>
    rw [skipWhile, dif_pos h, if_pos hp] at next
    exact ih next
  | case2 pos h hp =>
    rw [skipWhile, dif_pos h, if_neg hp, Array.getElem?_eq_getElem h] at next
    cases next
    exact Bool.eq_false_iff.2 hp
  | case3 pos h =>
    rw [skipWhile, dif_neg h, Array.getElem?_eq_none (Nat.le_of_not_lt h)] at next
    cases next

/-! ## The end of the input -/

variable {pos : Nat}

theorem add_length_le_of_hasAt {literal : Bytes} (inside : pos ≤ input.size)
    (h : input.hasAt pos literal = true) : pos + literal.length ≤ input.size := by
  rw [hasAt_eq, List.isPrefixOf_iff_prefix] at h
  have fits := h.length_le
  rw [List.length_drop, input.length_toList] at fits
  omega

theorem skipWhile_le (p : UInt8 → Bool) (inside : pos ≤ input.size) : input.skipWhile p pos ≤ input.size := by
  have fits := (List.takeWhile_prefix p : _ <+: input.toList.drop pos).length_le
  rw [List.length_drop, input.length_toList] at fits
  rw [skipWhile_eq]
  omega

end Input

end PegMachine
