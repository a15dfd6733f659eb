import PegMachine.Instruction
import PegMachine.Tree
/-!
  Parsing expressions and what they mean.

  An expression is built from matchers of bytes, sequence, ordered choice, repetition, the two predicates,
  node captures and rules. `Derives` is its big-step meaning: from a position of the input an expression
  is either matched up to a position, with the trees that its captures built, or refused. Predicates
  consume nothing and build nothing. An expression that would loop for ever has no verdict. Nothing here
  knows of the machine. What is proved: `Derives.unique`, an expression has at most one verdict.
-/
namespace PegMachine

/-! ## Matchers -/

inductive Matcher where
  | any
  | charRange (lo hi : UInt8)
  | charSet (set : CharSet)
  | string (literal : Bytes)
  | notCharSet (set : CharSet)
  | notString (literal : Bytes)
  | optionalCharSet (set : CharSet)
  | optionalString (literal : Bytes)
  | zeroMoreCharSet (set : CharSet)
  deriving DecidableEq, Repr

/-- How many of the bytes the matcher consumes, or nothing if it refuses them. -/
def Matcher.length? (rest : Bytes) : Matcher → Option Nat
  | any => if rest.head?.isSome then some 1 else none
  | charRange lo hi => if rest.head?.any (fun b => lo ≤ b && b ≤ hi) then some 1 else none
  | charSet set => if rest.head?.any set.contains then some 1 else none
  | string literal => if literal.isPrefixOf rest then some literal.length else none
  | notCharSet set => if rest.head?.any set.contains then none else some 0
  | notString literal => if literal.isPrefixOf rest then none else some 0
  | optionalCharSet set => if rest.head?.any set.contains then some 1 else some 0
  | optionalString literal => if literal.isPrefixOf rest then some literal.length else some 0
  | zeroMoreCharSet set => some (rest.takeWhile set.contains).length

/-! ## Expressions -/

/-- Parsing expressions over rules of type `ρ`. -/
inductive Expr (ρ : Type) where
  | matcher (m : Matcher)
  | empty
  | seq (a b : Expr ρ)
  | choice (a b : Expr ρ)
  | star (a : Expr ρ)
  | and (a : Expr ρ)
  | not (a : Expr ρ)
  | capture (label : String) (a : Expr ρ)
  | rule (r : ρ)

/-- The body of every rule. -/
abbrev Grammar (ρ : Type) := ρ → Expr ρ

/-! ## Verdicts -/

inductive Verdict where
  /-- Matched up to `stop`, with the trees that were built on the way. -/
  | matched (stop : Nat) (trees : List Tree)
  | refused

section

variable {ρ : Type} (g : Grammar ρ) (input : Input)

/-- The verdict on an expression from a position of the input. -/
inductive Derives : Expr ρ → Nat → Verdict → Prop where
  | consumes {m : Matcher} {p count : Nat} (h : m.length? (input.toList.drop p) = some count) :
    Derives (.matcher m) p (.matched (p + count) [])
  | refuses {m : Matcher} {p : Nat} (h : m.length? (input.toList.drop p) = none) :
    Derives (.matcher m) p .refused
  | empty {p : Nat} : Derives .empty p (.matched p [])
  | seq {a b : Expr ρ} {p q r : Nat} {ts us : List Tree} (ha : Derives a p (.matched q ts))
    (hb : Derives b q (.matched r us)) : Derives (.seq a b) p (.matched r (ts ++ us))
  | seqFirst {a b : Expr ρ} {p : Nat} (ha : Derives a p .refused) : Derives (.seq a b) p .refused
  | seqSecond {a b : Expr ρ} {p q : Nat} {ts : List Tree} (ha : Derives a p (.matched q ts))
    (hb : Derives b q .refused) : Derives (.seq a b) p .refused
  | first {a b : Expr ρ} {p q : Nat} {ts : List Tree} (ha : Derives a p (.matched q ts)) :
    Derives (.choice a b) p (.matched q ts)
  | second {a b : Expr ρ} {p : Nat} {v : Verdict} (ha : Derives a p .refused) (hb : Derives b p v) :
    Derives (.choice a b) p v
  | done {a : Expr ρ} {p : Nat} (ha : Derives a p .refused) : Derives (.star a) p (.matched p [])
  | more {a : Expr ρ} {p q r : Nat} {ts us : List Tree} (ha : Derives a p (.matched q ts))
    (hs : Derives (.star a) q (.matched r us)) : Derives (.star a) p (.matched r (ts ++ us))
  | and {a : Expr ρ} {p q : Nat} {ts : List Tree} (ha : Derives a p (.matched q ts)) :
    Derives (.and a) p (.matched p [])
  | andRefused {a : Expr ρ} {p : Nat} (ha : Derives a p .refused) : Derives (.and a) p .refused
  | not {a : Expr ρ} {p : Nat} (ha : Derives a p .refused) : Derives (.not a) p (.matched p [])
  | notRefused {a : Expr ρ} {p q : Nat} {ts : List Tree} (ha : Derives a p (.matched q ts)) :
    Derives (.not a) p .refused
  | capture {label : String} {a : Expr ρ} {p q : Nat} {ts : List Tree} (ha : Derives a p (.matched q ts)) :
    Derives (.capture label a) p (.matched q [⟨p, q, some label, none, ts⟩])
  | captureRefused {label : String} {a : Expr ρ} {p : Nat} (ha : Derives a p .refused) :
    Derives (.capture label a) p .refused
  | rule {r : ρ} {p : Nat} {v : Verdict} (h : Derives (g r) p v) : Derives (.rule r) p v

end

variable {ρ : Type} {g : Grammar ρ} {input : Input} {e : Expr ρ} {p : Nat} {v w : Verdict}

/-- An expression has at most one verdict from a position. -/
theorem Derives.unique (h : Derives g input e p v) (h' : Derives g input e p w) : v = w := by
  induction h generalizing w with
  | consumes h | refuses h => cases h' <;> simp_all
  | empty => cases h'; rfl
  | seq _ _ iha ihb =>
    cases h' with
    | seq ha hb => cases iha ha; cases ihb hb; rfl
    | seqFirst ha => cases iha ha
    | seqSecond ha hb => cases iha ha; cases ihb hb
  | seqFirst _ iha =>
    cases h' with
    | seq ha => cases iha ha
    | seqFirst => rfl
    | seqSecond ha => cases iha ha
  | seqSecond _ _ iha ihb =>
    cases h' with
    | seq ha hb => cases iha ha; cases ihb hb
    | seqFirst ha => cases iha ha
    | seqSecond => rfl
  | first _ iha =>
    cases h' with
    | first ha => exact iha ha
    | second ha => cases iha ha
  | second _ _ iha ihb =>
    cases h' with
    | first ha => cases iha ha
    | second _ hb => exact ihb hb
  | done _ iha =>
    cases h' with
    | done => rfl
    | more ha => cases iha ha
  | more _ _ iha ihs =>
    cases h' with
    | done ha => cases iha ha
    | more ha hs => cases iha ha; cases ihs hs; rfl
  | and _ iha =>
    cases h' with
    | and => rfl
    | andRefused ha => cases iha ha
  | andRefused _ iha =>
    cases h' with
    | and ha => cases iha ha
    | andRefused => rfl
  | not _ iha =>
    cases h' with
    | not => rfl
    | notRefused ha => cases iha ha
  | notRefused _ iha =>
    cases h' with
    | not ha => cases iha ha
    | notRefused => rfl
  | capture _ iha =>
    cases h' with
    | capture ha => cases iha ha; rfl
    | captureRefused ha => cases iha ha
  | captureRefused _ iha =>
    cases h' with
    | capture ha => cases iha ha
    | captureRefused => rfl
  | rule _ ih =>
    cases h' with
    | rule h => exact ih h

end PegMachine
