import PegMachine.Proofs.Grammar.Code
import PegMachine.Proofs.Run.Attempts
import PegMachine.Proofs.Run.Cursor
/-!
  Fused instructions and the plain code that they stand for.

  An optional byte, a negated literal or a jump table can be written with choices, commits and matchers of single
  bytes. `Fused.plain` is that code. Whichever way its attempts end, their frames are gone in the end and the stacks
  are what they were. Only the furthest cursor can tell the difference, where the plain code has looked further
  ahead. What is proved:
    1. `reaches_loop`: a loop around a set consumes the longest run of bytes in the set, by induction on it;
    2. `goesOn_literal`, `goesOn_ladder`: a literal byte by byte, and a jump table entry by entry;
    3. `zeroMore_unrolls`, `fused_agrees`: every fused instruction goes on the same way as its plain code.
-/
namespace PegMachine

/-! ## Fused instructions -/

/-- What a matcher looks for: a byte of a set, or a literal. -/
inductive Look where
  | byte (set : CharSet)
  | text (literal : Bytes)
  deriving DecidableEq, Repr

/-- The instructions that do in one step what plain code does in several. -/
inductive Fused where
  /-- Consumes what it looks for if that comes next. -/
  | optional (look : Look)
  /-- Fails if what it looks for comes next. -/
  | negated (look : Look)
  | repeated (set : CharSet)
  | string (literal : Bytes)
  | switch (table : JumpTable)
  deriving DecidableEq, Repr

namespace Look

/-- The matcher that consumes what is looked for. -/
def matcher : Look → Instruction
  | byte set => .charSet set
  | text literal => .string literal

def length : Look → Nat
  | byte _ => 1
  | text literal => literal.length

/-- Whether it comes next. -/
def seen (s : Setting) (m : Machine) : Look → Bool
  | byte set => s.sees m set.contains
  | text literal => s.seesLiteral m literal

end Look

/-- One choice for each entry, which leads to the target if the byte comes next and to the next choice if not; a
    failure behind the last. -/
def JumpTable.ladder : (k : Nat) → List (UInt8 × UInt32) → List Instruction
  | _, [] => [.fail]
  | k, (b, target) :: entries =>
    .choice (k + 3) :: .charRange b b :: .backCommit target.toNat :: ladder (k + 3) entries

namespace Fused

def instruction : Fused → Instruction
  | optional (.byte set) => .optionalCharSet set
  | optional (.text literal) => .optionalString literal
  | negated (.byte set) => .notCharSet set
  | negated (.text literal) => .notString literal
  | repeated set => .zeroMoreCharSet set
  | string literal => .string literal
  | switch table => .mappedChoice table

/-- The plain code that does the same, from index `k` on. -/
def plain (k : Nat) : Fused → List Instruction
  | optional look => [.choice (k + 3), look.matcher, .commit (k + 3)]
  | negated look => [.choice (k + 3), look.matcher, .failTwice]
  | repeated set => [.choice (k + 3), .charSet set, .partialCommit (k + 1)]
  | string literal => literal.map fun b => .charRange b b
  | switch table => JumpTable.ladder k table.entries

/-- Whether control comes out behind the instruction whatever comes next. -/
def neverFails : Fused → Bool
  | optional _ | repeated _ => true
  | _ => false

end Fused

/-! ## Which way control goes on -/

/-- Behind the code with some bytes consumed, at a target of it, or where the top frame resumes. -/
inductive Way where
  | behind (count : Nat)
  | target (index : Nat)
  | resumed
  deriving DecidableEq, Repr

namespace Way

/-- The way on from a jump table. -/
def ofTarget? : Option UInt32 → Way
  | some index => target index.toNat
  | none => resumed

end Way

/-- The machine that goes on this way, where `f` is the top frame and `last` the index behind the code. -/
def Machine.goOn (m : Machine) (f : Frame) (last : Nat) : Way → Machine
  | .behind count => (m.advance count).moveOn last
  | .target index => m.moveOn index
  | .resumed => m.resume f

/-- Which way the instruction goes on. -/
def Fused.way (s : Setting) (m : Machine) : Fused → Way
  | optional look => .behind (if look.seen s m then look.length else 0)
  | negated look => if look.seen s m then .resumed else .behind 0
  | repeated set => .behind (s.runLength m set)
  | string literal => if s.seesLiteral m literal then .behind literal.length else .resumed
  | switch table => .ofTarget? ((s.next? m).bind table.get?)

/-- Where the machine is does not matter for how it goes on. -/
theorem Machine.goOn_elsewhere (m : Machine) (f : Frame) (k last : Nat) (way : Way) :
    { m with pc := k }.goOn f last way = m.goOn f last way := by
  cases way <;> rfl

namespace Setting

variable {s : Setting} {m : Machine} {f : Frame} {alternative count last : Nat} {look : Look} {way : Way}

/-! ## Optional and negated matchers -/

theorem perform_look (s : Setting) (x : Machine) (look : Look) :
    s.perform look.matcher x = x.take (look.seen s x) look.length := by
  cases look <;> rfl

theorem perform_optional (s : Setting) (m : Machine) (look : Look) :
    s.perform (Fused.optional look).instruction m = m.skip (look.seen s m) look.length := by
  cases look <;> rfl

theorem perform_negated (s : Setting) (m : Machine) (look : Look) :
    s.perform (Fused.negated look).instruction m = m.refuse (look.seen s m) := by
  cases look <;> rfl

/-- Nothing that is looked for depends on the frames. -/
theorem seen_attempt (s : Setting) (m : Machine) (look : Look) (alternative : Nat) :
    look.seen s (m.attempt alternative) = look.seen s m := by
  cases look <;> rfl

/-- The run goes on this way, having looked at least as far ahead. -/
def GoesOn (s : Setting) (m : Machine) (f : Frame) (last : Nat) (way : Way) : Prop :=
  ∃ further ≥ (m.goOn f last way).furthest, s.Reaches m { m.goOn f last way with furthest := further }

theorem reaches_optional (holds : s.program.Holds m.pc ((Fused.optional look).plain m.pc))
    (room : m.work.backtrack.size < s.config.maxStackLength) (inside : m.work.log.Inside) :
    s.Reaches m ((m.advance (if look.seen s m then look.length else 0)).moveOn (m.pc + 3)) := by
  obtain ⟨chooses, tries, commits, -⟩ := holds
  have performed := perform_look s (m.attempt (m.pc + 3)) look
  rw [seen_attempt] at performed
  refine .head (step_choice chooses room) ?_
  cases hseen : look.seen s m with
  | true =>
    rw [hseen] at performed
    exact .head (step_tried tries performed) (.single (step_commit_tried commits))
  | false =>
    rw [hseen] at performed
    exact reaches_refused inside tries performed

theorem goesOn_negated (holds : s.program.Holds m.pc ((Fused.negated look).plain m.pc))
    (room : m.work.backtrack.size < s.config.maxStackLength) (inside : m.work.log.Inside)
    (top : m.work.backtrack.back? = some f) : s.GoesOn m f (m.pc + 3) ((Fused.negated look).way s m) := by
  obtain ⟨chooses, tries, fails, -⟩ := holds
  have performed := perform_look s (m.attempt (m.pc + 3)) look
  have first := step_choice chooses room
  rw [seen_attempt] at performed
  rw [Fused.way]
  cases hseen : look.seen s m with
  | true =>
    rw [hseen] at performed
    have further : max m.furthest m.pos ≤ max m.furthest (m.pos + look.length) := by omega
    exact ⟨_, further, .head first (.head (step_tried tries performed) (.single (step_failTwice_tried fails top)))⟩
  | false =>
    rw [hseen] at performed
    exact ⟨_, Nat.le_refl _, .head first (reaches_refused inside tries performed)⟩

/-! ## Loops -/

theorem perform_charSet (s : Setting) (set : CharSet) (alternative : Nat) {pos : Nat} (hpos : m.pos = pos) :
    s.perform (.charSet set) (m.attempt alternative) =
      (m.attempt alternative).take ((s.input[pos]?).any set.contains) 1 := by
  subst hpos
  rfl

/-- A loop around a set consumes bytes for as long as there are any in the set. The induction is on the run of
    these bytes; each round begins like the first, one byte further on. -/
theorem reaches_loop {set : CharSet} {pos : Nat} (hpos : m.pos = pos) (inside : m.work.log.Inside)
    (tries : s.program.at? (m.pc + 1) = some (.charSet set))
    (loops : s.program.at? (m.pc + 2) = some (.partialCommit (m.pc + 1))) :
    s.Reaches (m.attempt alternative)
      ((m.advance (s.input.skipWhile set.contains pos - pos)).moveOn alternative) := by
  induction pos using Input.skipWhile.induct set.contains s.input generalizing m with
  | case1 pos h found ih =>
    have performed := perform_charSet s set alternative hpos
    rw [Array.getElem?_eq_getElem h, Option.any_some, found] at performed
    have rest := ih (m := (m.advance 1).moveOn m.pc) (congrArg (· + 1) hpos) inside tries loops
    have after : pos + 1 ≤ s.input.skipWhile set.contains (pos + 1) := Input.le_skipWhile ..
    have count : s.input.skipWhile set.contains pos - pos =
        1 + (s.input.skipWhile set.contains (pos + 1) - (pos + 1)) := by
      rw [Input.skipWhile, dif_pos h, if_pos found]
      omega
    rw [Machine.advance_moveOn_advance, ← count] at rest
    exact .head (step_tried tries performed) (.head (step_partialCommit_tried loops) rest)
  | case2 pos h other =>
    have performed := perform_charSet s set alternative hpos
    rw [Array.getElem?_eq_getElem h, Option.any_some, Bool.eq_false_iff.2 other] at performed
    rw [Input.skipWhile, dif_pos h, if_neg other, Nat.sub_self]
    exact reaches_refused inside tries performed
  | case3 pos h =>
    have performed := perform_charSet s set alternative hpos
    rw [Array.getElem?_eq_none (Nat.le_of_not_lt h)] at performed
    rw [Input.skipWhile, dif_neg h, Nat.sub_self]
    exact reaches_refused inside tries performed

/-- Behind a run of bytes in a set, in terms of the place where the run ends. -/
theorem moveOn_run (s : Setting) (m : Machine) (set : CharSet) (pc : Nat) :
    (m.advance (s.runLength m set)).moveOn pc =
      let e := s.input.skipWhile set.contains m.pos
      { m with pc, pos := e, furthest := max m.furthest e } := by
  have after : m.pos ≤ s.input.skipWhile set.contains m.pos := Input.le_skipWhile ..
  have sum : m.pos + (s.input.skipWhile set.contains m.pos - m.pos) = s.input.skipWhile set.contains m.pos := by
    omega
  simp only [Machine.moveOn, Machine.noteCursor, Machine.advance, runLength, sum]

theorem reaches_repeated {set : CharSet} (holds : s.program.Holds m.pc ((Fused.repeated set).plain m.pc))
    (room : m.work.backtrack.size < s.config.maxStackLength) (inside : m.work.log.Inside) :
    s.Reaches m ((m.advance (s.runLength m set)).moveOn (m.pc + 3)) := by
  obtain ⟨chooses, tries, loops, -⟩ := holds
  exact .head (step_choice chooses room) (reaches_loop rfl inside tries loops)

/-! ## Literals -/

/-- A range of one byte takes just this byte. -/
theorem perform_byte (s : Setting) (m : Machine) (b : UInt8) :
    s.perform (.charRange b b) m = m.take (s.next? m == some b) 1 := by
  have only (c : UInt8) : (ByteRange.mk b b).contains c = (c == b) := by
    rw [Bool.eq_iff_iff]
    simp only [ByteRange.contains, Bool.and_eq_true, decide_eq_true_eq, beq_iff_eq]
    rw [← UInt8.le_antisymm_iff, eq_comm]
  rw [perform, sees, funext only]
  cases s.next? m <;> rfl

namespace GoesOn

variable {pc : Nat}

/-- Control went elsewhere before. -/
theorem moved (h : s.GoesOn (m.moveOn pc) f last way) (before : s.Reaches m (m.moveOn pc)) : s.GoesOn m f last way := by
  obtain ⟨further, hle, reaches⟩ := h
  have lower : (m.goOn f last way).furthest ≤ ((m.moveOn pc).goOn f last way).furthest := by
    cases way with
    | behind count => exact sup_le_sup_right (Nat.le_max_left ..) _
    | target | resumed => exact Nat.le_max_left ..
  refine ⟨further, Nat.le_trans lower hle, before.trans ?_⟩
  cases way <;> exact reaches

/-- One more byte was consumed before. -/
theorem behind_succ (h : s.GoesOn ((m.advance 1).moveOn pc) f last (.behind count))
    (before : s.Reaches m ((m.advance 1).moveOn pc)) : s.GoesOn m f last (.behind (count + 1)) := by
  obtain ⟨further, hle, reaches⟩ := h
  rw [Machine.goOn, Machine.advance_moveOn_advance, Nat.add_comm] at hle reaches
  exact ⟨further, hle, before.trans reaches⟩

/-- Bytes were consumed in vain before. -/
theorem resumed (h : s.GoesOn ((m.advance count).moveOn pc) f last .resumed)
    (before : s.Reaches m ((m.advance count).moveOn pc)) : s.GoesOn m f last .resumed := by
  obtain ⟨further, hle, reaches⟩ := h
  have lower : max m.furthest m.pos ≤ max (max m.furthest (m.pos + count)) (m.pos + count) := by omega
  exact ⟨further, Nat.le_trans lower hle, before.trans reaches⟩

end GoesOn

/-- A literal byte by byte. If only a part of it is there, the furthest cursor has gone along with that part. -/
theorem goesOn_literal {literal : Bytes} (holds : s.program.Holds m.pc ((Fused.string literal).plain m.pc))
    (noted : m.pos ≤ m.furthest) (top : m.work.backtrack.back? = some f) :
    s.GoesOn m f (m.pc + literal.length) ((Fused.string literal).way s m) := by
  induction literal generalizing m with
  | nil => exact ⟨m.furthest, Nat.max_le.2 ⟨Nat.le_refl _, noted⟩, .refl⟩
  | cons b literal ih =>
    obtain ⟨code, rest⟩ := holds
    let m₁ := (m.advance 1).moveOn (m.pc + 1)
    have look := perform_byte s m b
    have seen : s.seesLiteral m (b :: literal) = (s.next? m == some b && s.seesLiteral m₁ literal) := rfl
    rw [Fused.way, seen]
    cases hb : s.next? m == some b with
    | false =>
      rw [hb] at look
      exact ⟨_, Nat.le_refl _, .single (step_refused code look top)⟩
    | true =>
      rw [hb] at look
      have first : s.Reaches m m₁ := .single (step_taken code look)
      have rest := ih (m := m₁) rest (Nat.le_max_right ..) top
      have hlast : m₁.pc + literal.length = m.pc + (literal.length + 1) := Nat.add_right_comm ..
      rw [Fused.way, hlast] at rest
      cases hrest : s.seesLiteral m₁ literal with
      | true =>
        rw [hrest] at rest
        exact rest.behind_succ first
      | false =>
        rw [hrest] at rest
        exact rest.resumed first

/-! ## Jump tables -/

theorem lookup_entries (table : JumpTable) (b : UInt8) : List.lookup b table.entries = table.get? b := by
  cases hget : table.get? b with
  | some target =>
    have entry := JumpTable.mem_entries.2 hget
    cases h : List.lookup b table.entries with
    | none => exact absurd (List.lookup_eq_none_iff.1 h _ entry) (by simp)
    | some other =>
      obtain ⟨before, after, hentries, -⟩ := List.lookup_eq_some_iff.1 h
      have found : (b, other) ∈ table.entries := by simp [hentries]
      exact (JumpTable.mem_entries.1 found).symm.trans hget
  | none =>
    refine List.lookup_eq_none_iff.2 fun entry hentry => ?_
    rw [bne_iff_ne]
    rintro rfl
    rw [JumpTable.mem_entries.1 hentry] at hget
    cases hget

/-- A jump table entry by entry. Each rung either takes the byte back and leads to the target, or it leaves the
    machine as it was for the next one. -/
theorem goesOn_ladder {entries : List (UInt8 × UInt32)} (holds : s.program.Holds m.pc (JumpTable.ladder m.pc entries))
    (room : m.work.backtrack.size < s.config.maxStackLength) (inside : m.work.log.Inside)
    (top : m.work.backtrack.back? = some f) :
    s.GoesOn m f last (.ofTarget? ((s.next? m).bind fun b => List.lookup b entries)) := by
  induction entries generalizing m with
  | nil =>
    obtain ⟨fails, -⟩ := holds
    have none : ((s.next? m).bind fun b => List.lookup b ([] : List (UInt8 × UInt32))) = none := by
      cases s.next? m <;> rfl
    rw [none]
    exact ⟨_, Nat.le_refl _, .single (step_fail fails rfl top)⟩
  | cons entry entries ih =>
    obtain ⟨b, target⟩ := entry
    obtain ⟨chooses, tries, backs, rest⟩ := holds
    have first := step_choice chooses room
    have look := perform_byte s (m.attempt (m.pc + 3)) b
    have next : s.next? (m.attempt (m.pc + 3)) = s.next? m := rfl
    rw [next] at look
    cases hb : s.next? m == some b with
    | true =>
      rw [hb] at look
      rw [eq_of_beq hb, Option.bind_some, List.lookup_cons_self]
      have further : max m.furthest m.pos ≤ max m.furthest (m.pos + 1) := by omega
      exact ⟨_, further, .head first (.head (step_tried tries look) (.single (step_backCommit_tried inside backs)))⟩
    | false =>
      rw [hb] at look
      have onward : s.Reaches m (m.moveOn (m.pc + 3)) := .head first (reaches_refused inside tries look)
      have rest := (ih (m := m.moveOn (m.pc + 3)) rest room inside top).moved onward
      have same : ((s.next? m).bind fun c => List.lookup c ((b, target) :: entries)) =
          (s.next? m).bind fun c => List.lookup c entries := by
        cases hnext : s.next? m with
        | none => rfl
        | some c =>
          rw [hnext] at hb
          have other : (c == b) = false := hb
          rw [Option.bind_some, Option.bind_some, List.lookup_cons, other]
      rw [same]
      exact rest

/-! ## All of them -/

/-- A fused instruction goes on its way in one step. -/
theorem step_fused {i : Fused} (code : s.program.at? m.pc = some i.instruction)
    (top : m.work.backtrack.back? = some f) :
    s.step m = .running (m.goOn f (m.pc + 1) (i.way s m)) := by
  cases i with
  | optional look =>
    have performed := perform_optional s m look
    rw [Fused.way]
    cases hseen : look.seen s m <;> rw [hseen] at performed <;> exact step_next code performed
  | negated look =>
    have performed := perform_negated s m look
    rw [Fused.way]
    cases hseen : look.seen s m <;> rw [hseen] at performed
    · exact step_next code performed
    · exact step_fail code performed top
  | repeated set => exact step_next code rfl
  | string literal =>
    rw [Fused.way]
    cases hseen : s.seesLiteral m literal with
    | true => exact step_next code (by rw [Fused.instruction, perform, hseen]; rfl)
    | false => exact step_fail code (by rw [Fused.instruction, perform, hseen]; rfl) top
  | switch table =>
    rw [Fused.way]
    cases htarget : (s.next? m).bind table.get? with
    | some target => exact step_goto code (by simp only [Fused.instruction, perform, htarget])
    | none => exact step_fail code (by simp only [Fused.instruction, perform, htarget]) top

/-- What never fails comes out behind its plain code with the same furthest cursor. -/
theorem reaches_of_neverFails {i : Fused} (never : i.neverFails = true)
    (holds : s.program.Holds m.pc (i.plain m.pc)) (room : m.work.backtrack.size < s.config.maxStackLength)
    (inside : m.work.log.Inside) :
    s.Reaches m (m.goOn f (m.pc + (i.plain m.pc).length) (i.way s m)) := by
  cases i with
  | optional look => exact reaches_optional holds room inside
  | repeated set => exact reaches_repeated holds room inside
  | negated | string | switch => cases never

/-- The plain code of a fused instruction goes on the same way. -/
theorem goesOn_fused {i : Fused} (holds : s.program.Holds m.pc (i.plain m.pc))
    (room : m.work.backtrack.size < s.config.maxStackLength) (inside : m.work.log.Inside)
    (noted : m.pos ≤ m.furthest) (top : m.work.backtrack.back? = some f) :
    s.GoesOn m f (m.pc + (i.plain m.pc).length) (i.way s m) := by
  cases i with
  | optional look => exact ⟨_, Nat.le_refl _, reaches_optional holds room inside⟩
  | negated look => exact goesOn_negated holds room inside top
  | repeated set => exact ⟨_, Nat.le_refl _, reaches_repeated holds room inside⟩
  | string literal =>
    rw [Fused.plain, List.length_map]
    exact goesOn_literal holds noted top
  | switch table =>
    have entrywise : table.get? = fun b => List.lookup b table.entries := funext fun b => (lookup_entries table b).symm
    rw [Fused.way, entrywise]
    exact goesOn_ladder holds room inside top

end Setting

namespace Context

variable {c : Context} {program : Program} {m : Machine} {f : Frame}

/-- **`zeroMoreCharSet` is the loop that it stands for.** From a state of any run, with room for a frame, the one
    instruction and the loop both come out behind themselves, wherever they stand in whatever program, with the
    cursor at the end of the longest run of bytes in the set, with the same furthest cursor, and with all else as it
    was. -/
theorem zeroMore_unrolls (reached : (c.setting program).Reaches c.machine m)
    (room : m.work.backtrack.size < c.config.maxStackLength) (set : CharSet) :
    ∃ e, m.pos ≤ e ∧ (∀ p, m.pos ≤ p → p < e → ∃ b, c.input[p]? = some b ∧ set.contains b = true) ∧
      (∀ b, c.input[e]? = some b → set.contains b = false) ∧
      (∀ program' k, program'.Holds k [.zeroMoreCharSet set] →
        (c.setting program').step { m with pc := k } =
          .running { m with pc := k + 1, pos := e, furthest := max m.furthest e }) ∧
      ∀ program' k, program'.Holds k [.choice (k + 3), .charSet set, .partialCommit (k + 1)] →
        (c.setting program').Reaches { m with pc := k }
          { m with pc := k + 3, pos := e, furthest := max m.furthest e } := by
  have inside : m.work.log.Inside := (Setting.exact_of_reaches reached).inside
  refine ⟨c.input.skipWhile set.contains m.pos, Input.le_skipWhile .., fun p => Input.of_lt_skipWhile,
    fun b => Input.not_of_skipWhile, fun program' k holds => ?_, fun program' k holds => ?_⟩
  · have done := Setting.step_next (s := c.setting program') (m := { m with pc := k }) holds.1 rfl
    exact done.trans (congrArg Transition.running (Setting.moveOn_run ..))
  · have reaches := Setting.reaches_repeated (s := c.setting program') (m := { m with pc := k }) holds room inside
    rw [Setting.moveOn_run] at reaches
    exact reaches

/-- A set of the letter `a`, behind a byte of any kind. -/
def manyLetters : Program := .ofList [.exit, .any, .zeroMoreCharSet (.ofBytes [97]), .exit]

/-- The same with a loop. -/
def manyLettersPlain : Program :=
  .ofList [.exit, .any, .choice 5, .charSet (.ofBytes [97]), .partialCommit 3, .exit]

def manyLettersContext : Context := { new {} with input := #[120, 97, 97, 98], startPoint := 1 }

theorem zeroMore_unrolls_letters :
    let m := (manyLettersContext.setting manyLetters).states manyLettersContext.machine 1
    (manyLettersContext.setting manyLetters).step { m with pc := 2 } =
        .running { m with pc := 3, pos := 3, furthest := 3 } ∧
      (manyLettersContext.setting manyLettersPlain).Reaches { m with pc := 2 }
        { m with pc := 5, pos := 3, furthest := 3 } := by
  intro m
  have reached := Setting.reaches_states (manyLettersContext.setting manyLetters) manyLettersContext.machine 1
  obtain ⟨e, after, inSet, ends, fused, plain⟩ := zeroMore_unrolls reached (by decide) (.ofBytes [97])
  have start : 1 ≤ e := after
  have hend : e = 3 := by
    rcases Nat.lt_trichotomy e 3 with before | rfl | behind
    · obtain rfl | rfl : e = 1 ∨ e = 2 := by omega
      · exact absurd (ends 97 rfl) (by decide)
      · exact absurd (ends 97 rfl) (by decide)
    · rfl
    · obtain ⟨b, hb, isLetter⟩ := inSet 3 (by decide) behind
      cases hb
      exact absurd isLetter (by decide)
  subst hend
  exact ⟨fused manyLetters 2 (by decide), plain manyLettersPlain 2 (by decide)⟩

/-- **A fused instruction does what its plain code does.** From a state of any run, with room for a frame and with a
    frame on top, the one instruction and the plain code go on the same way, wherever they stand in whatever program:
    behind themselves with as many bytes consumed, at the same target of the table, or at the top frame. The
    machine is the same then, but for the furthest cursor: what never fails leaves the same, and for the others it
    is never smaller after the plain code. -/
theorem fused_agrees (reached : (c.setting program).Reaches c.machine m)
    (room : m.work.backtrack.size < c.config.maxStackLength) (top : m.work.backtrack.back? = some f) (i : Fused) :
    let way := i.way (c.setting program) m
    (∀ program' k, program'.Holds k [i.instruction] →
        (c.setting program').step { m with pc := k } = .running (m.goOn f (k + 1) way)) ∧
      ∀ program' k, program'.Holds k (i.plain k) →
        let left := m.goOn f (k + (i.plain k).length) way
        ∃ further ≥ left.furthest, (i.neverFails = true → further = left.furthest) ∧
          (c.setting program').Reaches { m with pc := k } { left with furthest := further } := by
  have inside : m.work.log.Inside := (Setting.exact_of_reaches reached).inside
  have noted : m.pos ≤ m.furthest := (Setting.within_of_reaches reached c.within_start).pos_le
  intro way
  -- The way is a matter of the input and the cursor, so it is the same in every program and at every index.
  have same (program' : Program) (k : Nat) : i.way (c.setting program') { m with pc := k } = way := by
    cases i with
    | optional look | negated look => cases look <;> rfl
    | repeated | string | switch => rfl
  refine ⟨fun program' k holds => ?_, fun program' k holds => ?_⟩
  · have done := Setting.step_fused (s := c.setting program') (m := { m with pc := k }) holds.1 top
    rw [same, Machine.goOn_elsewhere] at done
    exact done
  · cases never : i.neverFails with
    | true =>
      have reaches := Setting.reaches_of_neverFails (s := c.setting program') (m := { m with pc := k }) (f := f)
        never holds room inside
      rw [same, Machine.goOn_elsewhere] at reaches
      exact ⟨_, Nat.le_refl _, fun _ => rfl, reaches⟩
    | false =>
      obtain ⟨further, hle, reaches⟩ := Setting.goesOn_fused (s := c.setting program') (m := { m with pc := k })
        holds room inside noted top
      rw [same, Machine.goOn_elsewhere] at hle reaches
      exact ⟨further, hle, nofun, reaches⟩

/-- Looks for a literal of which only the first half is there. -/
def halfLiteral : Program := .ofList [.exit, .choice 3, .string [97, 98], .exit]

/-- The same byte by byte. -/
def halfLiteralPlain : Program := .ofList [.exit, .choice 4, .charRange 97 97, .charRange 98 98, .exit]

def halfLiteralContext : Context := { new {} with input := #[97, 99], startPoint := 1 }

/-- Both resume at the frame, but the plain code has looked one byte further ahead. -/
theorem fused_agrees_halfLiteral :
    let m := (halfLiteralContext.setting halfLiteral).states halfLiteralContext.machine 1
    let f : Frame := ⟨3, 0, 0, 0, 0, 0⟩
    (halfLiteralContext.setting halfLiteral).step { m with pc := 2 } = .running (m.resume f) ∧
      (∃ further ≥ (m.resume f).furthest, (halfLiteralContext.setting halfLiteralPlain).Reaches { m with pc := 2 }
        { m.resume f with furthest := further }) ∧
      (m.resume f).furthest = 0 ∧
      ((halfLiteralContext.setting halfLiteralPlain).states { m with pc := 2 } 2).furthest = 1 := by
  intro m f
  have reached := Setting.reaches_states (halfLiteralContext.setting halfLiteral) halfLiteralContext.machine 1
  have way : (Fused.string [97, 98]).way (halfLiteralContext.setting halfLiteral) m = .resumed := by decide
  obtain ⟨fused, plain⟩ := fused_agrees (f := f) reached (by decide) (by decide) (.string [97, 98])
  obtain ⟨further, hle, -, reaches⟩ := plain halfLiteralPlain 2 (by decide)
  rw [way] at fused hle reaches
  exact ⟨fused halfLiteral 2 (by decide), ⟨further, hle, reaches⟩, by decide, by decide +kernel⟩

end Context

end PegMachine
