import PegMachine.Proofs.Grammar.Semantics
import PegMachine.Proofs.Run.Lookahead
/-!
  The code of parsing expressions.

  `Expr.code` lays an expression out from an index on; rules are called at their addresses. `Program.Holds`
  says that a stretch of code stands in a program at an index, and `Grammar.LaidOut` that the code of
  every rule stands at its address, with a return behind it. What is proved:
    1. `holds_code`: a stretch of code splits behind the code of an expression, so what is laid out for an
       expression gives what is laid out for its parts;
    2. `Setting.perform_matcher`: the machine's matchers consume and refuse what the matchers of the
       semantics do.
-/
namespace PegMachine

/-! ## Layout -/

def Matcher.instruction : Matcher → Instruction
  | any => .any
  | charRange lo hi => .charRange lo hi
  | charSet set => .charSet set
  | string literal => .string literal
  | notCharSet set => .notCharSet set
  | notString literal => .notString literal
  | optionalCharSet set => .optionalCharSet set
  | optionalString literal => .optionalString literal
  | zeroMoreCharSet set => .zeroMoreCharSet set

namespace Expr

variable {ρ : Type}

/-- How many instructions the code of the expression has. -/
def size : Expr ρ → Nat
  | matcher _ => 1
  | empty => 0
  | seq a b => a.size + b.size
  | choice a b => a.size + b.size + 2
  | star a => a.size + 2
  | and a => a.size + 3
  | not a => a.size + 2
  | capture _ a => a.size + 3
  | rule _ => 1

/-- The code of the expression from index `k` on. -/
def code (address : ρ → Nat) : (k : Nat) → Expr ρ → List Instruction
  | _, matcher m => [m.instruction]
  | _, empty => []
  | k, seq a b => a.code address k ++ b.code address (k + a.size)
  | k, choice a b =>
    let l1 := k + 1 + a.size + 1
    let l2 := l1 + b.size
    .choice l1 :: (a.code address (k + 1) ++ .commit l2 :: b.code address l1)
  | k, star a =>
    let l1 := k + 1
    let l2 := l1 + a.size + 1
    .choice l2 :: (a.code address l1 ++ [.partialCommit l1])
  | k, and a =>
    let l1 := k + 1 + a.size + 1
    let l2 := l1 + 1
    .choice l1 :: (a.code address (k + 1) ++ [.backCommit l2, .fail])
  | k, not a =>
    let l1 := k + 1 + a.size + 1
    .choice l1 :: (a.code address (k + 1) ++ [.failTwice])
  | k, capture label a => .nodeOpen :: (a.code address (k + 1) ++ [.tag label, .nodeClose])
  | _, rule r => [.call (address r)]

theorem length_code (address : ρ → Nat) (e : Expr ρ) (k : Nat) : (e.code address k).length = e.size := by
  induction e generalizing k with
  | matcher | empty | rule => rfl
  | seq a b iha ihb => simp [code, size, iha, ihb]
  | choice a b iha ihb => simp only [code, size, List.length_cons, List.length_append, iha, ihb]; omega
  | star a iha | and a iha | not a iha | capture _ a iha => simp [code, size, iha]

/-- Where the code of a choice ends. -/
theorem add_size_choice (k : Nat) (a b : Expr ρ) : k + (choice a b).size = k + 1 + a.size + 1 + b.size := by
  rw [size]
  omega

end Expr

namespace Program

variable {program : Program} {k : Nat} {i : Instruction} {code code' : List Instruction}

/-- The code stands in the program from index `k` on. -/
def Holds (program : Program) : (k : Nat) → List Instruction → Prop
  | _, [] => True
  | k, i :: code => program.at? k = some i ∧ program.Holds (k + 1) code

instance decidableHolds (program : Program) :
    (k : Nat) → (code : List Instruction) → Decidable (program.Holds k code)
  | _, [] => .isTrue trivial
  | k, _ :: code =>
    have := decidableHolds program (k + 1) code
    inferInstanceAs (Decidable (_ ∧ _))

theorem holds_append :
    program.Holds k (code ++ code') ↔ program.Holds k code ∧ program.Holds (k + code.length) code' := by
  induction code generalizing k with
  | nil => simp [Holds]
  | cons i code ih =>
    rw [List.cons_append, Holds, Holds, ih, List.length_cons, Nat.add_right_comm k 1, and_assoc]
    rfl

/-- The code of an expression with something behind it. -/
theorem holds_code {ρ : Type} {address : ρ → Nat} {e : Expr ρ} : program.Holds k (e.code address k ++ code) ↔
    program.Holds k (e.code address k) ∧ program.Holds (k + e.size) code := by
  rw [holds_append, Expr.length_code]

end Program

/-- The code of every rule stands at its address, with a return behind it. -/
def Grammar.LaidOut {ρ : Type} (g : Grammar ρ) (address : ρ → Nat) (program : Program) : Prop :=
  ∀ r, program.Holds (address r) ((g r).code address (address r) ++ [.ret])

/-! ## Matchers -/

namespace Setting

/-- A matcher of the machine does what the matcher of the semantics says of the rest of the input. -/
theorem perform_matcher (s : Setting) (m : Machine) (mt : Matcher) :
    s.perform mt.instruction m =
      match mt.length? (s.input.toList.drop m.pos) with
      | some count => .next (m.advance count)
      | none => .fail m := by
  -- The machine looks at the input from the cursor on, the semantics at the rest of it.
  have head : s.next? m = (s.input.toList.drop m.pos).head? := Input.getElem?_eq_head? m.pos
  have literally (literal : Bytes) : s.seesLiteral m literal =
      literal.isPrefixOf (s.input.toList.drop m.pos) := Input.hasAt_eq m.pos literal
  cases mt with
  | any =>
    simp only [Matcher.instruction, perform, Matcher.length?, sees, head, Machine.take]
    cases (s.input.toList.drop m.pos).head? <;> rfl
  | charRange lo hi =>
    have range : (ByteRange.mk lo hi).contains = fun b => lo ≤ b && b ≤ hi := rfl
    simp only [Matcher.instruction, perform, Matcher.length?, sees, head, Machine.take, range]
    split <;> rfl
  | charSet =>
    simp only [Matcher.instruction, perform, Matcher.length?, sees, head, Machine.take]
    split <;> rfl
  | string =>
    simp only [Matcher.instruction, perform, Matcher.length?, literally, Machine.take]
    split <;> rfl
  | notCharSet =>
    simp only [Matcher.instruction, perform, Matcher.length?, sees, head, Machine.refuse]
    split <;> rfl
  | notString =>
    simp only [Matcher.instruction, perform, Matcher.length?, literally, Machine.refuse]
    split <;> rfl
  | optionalCharSet =>
    simp only [Matcher.instruction, perform, Matcher.length?, sees, head, Machine.skip]
    split <;> rfl
  | optionalString =>
    simp only [Matcher.instruction, perform, Matcher.length?, literally, Machine.skip]
    split <;> rfl
  | zeroMoreCharSet set =>
    simp only [Matcher.instruction, perform, Matcher.length?, runLength, Input.skipWhile_eq]
    rw [Nat.add_sub_cancel_left]

end Setting

end PegMachine
