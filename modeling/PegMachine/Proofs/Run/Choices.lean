import PegMachine.Proofs.Grammar.Code
import PegMachine.Proofs.Run.Cursor
import PegMachine.Proofs.Run.Marks
/-!
  The first alternative of a choice.

  If the code between a `choice` and its `commit` goes straight through, the frame of the choice is pushed and
  popped and nothing is restored from it. But as long as the frame is there it counts the marks that were pending
  before, and a definition in between takes none of them off. What is proved:
    1. `Setting.Passes`: straight code that is carried out from a machine, and so by every program that holds it;
    2. `perform_reframe`: straight instructions do the same whatever the frames are, but for the marks;
    3. `passes_reframe`: so does straight code, as long as its definitions find the same marks;
    4. `Borrows`: under the frame of a choice the definitions that take a mark from before it all find the last one;
    5. `choice_transparent`: so a choice whose first alternative passes leaves what the alternative leaves without
       it, but for what follows from the marks of before that the alternative takes, and that are still there.
-/
namespace PegMachine

/-! ## Straight code -/

namespace Instruction

/-- Whether the instruction goes on to the next one if it does not fail or stop the run, and leaves the frames and
    the calls alone. -/
def straight : Instruction → Bool
  | nodeOpen | nodeClose | tag _ | value _ | mark | define _ | scopeBegin | scopeEnd => true
  | i => i.consumes

/-- How many definitions of the code take a mark that was pending before the code, if `own` marks of its own are
    pending already. -/
def takesPending : (own : Nat) → List Instruction → Nat
  | _, [] => 0
  | own, .mark :: code => takesPending (own + 1) code
  | 0, .define _ :: code => takesPending 0 code + 1
  | own + 1, .define _ :: code => takesPending own code
  | own, _ :: code => takesPending own code

/-- The pending marks after the instruction, where the top frame counts `pinned` of them. -/
def marksAfter (pinned pos : Nat) (marks : Array Nat) : Instruction → Array Nat
  | mark => marks.push pos
  | define _ => if pinned < marks.size then marks.pop else marks
  | _ => marks

end Instruction

/-- The same machine elsewhere in the program, with other frames and marks. -/
def Machine.reframe (m : Machine) (pc : Nat) (backtrack : Array Frame) (marks : Array Nat) : Machine :=
  { m with pc, work.backtrack := backtrack, work.marks := marks }

/-- Using a mark changes nothing but the marks. -/
theorem Stacks.useMark_eq (work : Stacks) : work.useMark =
    { work with marks := if work.pinnedMarks < work.marks.size then work.marks.pop else work.marks } := by
  rw [useMark]
  split <;> rfl

namespace Machine

theorem useMark_reframe (m : Machine) (pc : Nat) (backtrack : Array Frame) (marks : Array Nat) :
    m.useMark.reframe pc backtrack marks = m.reframe pc backtrack marks := by
  rw [useMark, Stacks.useMark_eq]
  rfl

theorem reframe_useMark (m : Machine) (pc : Nat) (backtrack : Array Frame) (marks : Array Nat) :
    (m.reframe pc backtrack marks).useMark = m.reframe pc backtrack
      (if (m.reframe pc backtrack marks).work.pinnedMarks < marks.size then marks.pop else marks) := by
  rw [useMark, Stacks.useMark_eq]
  rfl

variable {m m₁ : Machine} {pc : Nat} {backtrack : Array Frame} {marks : Array Nat}

theorem take_reframe {test : Bool} {count : Nat} (h : m.take test count = .next m₁) :
    (m.reframe pc backtrack marks).take test count = .next (m₁.reframe pc backtrack marks) := by
  cases test with
  | true => cases h; rfl
  | false => cases h

theorem skip_reframe {test : Bool} {count : Nat} (h : m.skip test count = .next m₁) :
    (m.reframe pc backtrack marks).skip test count = .next (m₁.reframe pc backtrack marks) := by
  cases test <;> cases h <;> rfl

theorem refuse_reframe {test : Bool} (h : m.refuse test = .next m₁) :
    (m.reframe pc backtrack marks).refuse test = .next (m₁.reframe pc backtrack marks) := by
  cases test with
  | true => cases h
  | false => cases h; rfl

theorem takeText_reframe {text? : Option Bytes} (h : m.takeText text? = .next m₁) :
    (m.reframe pc backtrack marks).takeText text? = .next (m₁.reframe pc backtrack marks) := by
  cases text? with
  | some text => cases h; rfl
  | none => cases h

end Machine

namespace Setting

variable {s : Setting} {m m₁ m' : Machine} {i : Instruction} {code : List Instruction}

/-! ## One instruction -/

section

variable {pc : Nat} {backtrack : Array Frame} {marks : Array Nat}

theorem nodeClose_reframe (h : m.closeFault? = none) :
    s.perform .nodeClose (m.reframe pc backtrack marks) = .next (m.closeNode.reframe pc backtrack marks) := by
  have innermost : (m.reframe pc backtrack marks).work.log.innermost? = m.work.log.innermost? := rfl
  have room : (m.reframe pc backtrack marks).pool.isFull = m.pool.isFull := rfl
  simp only [Machine.closeFault?] at h
  cases hi : m.work.log.innermost? with
  | none =>
    simp only [hi] at h
    cases h
  | some inner =>
    simp only [hi] at h
    have fault : (m.reframe pc backtrack marks).closeFault? = none := by
      simp only [Machine.closeFault?, innermost, hi, room]
      exact ite_eq_right_iff.2 fun full => by simp [full] at h
    simp only [perform, fault, Machine.closeNode, innermost, hi]
    rfl

/-- A definition that finds the same mark binds the same text. -/
theorem define_reframe {table : String} {mark : Nat} (top : marks.back? = some mark)
    (room : m.work.symbols.size < s.config.maxSymbols) :
    s.perform (.define table) (m.reframe pc backtrack marks) =
      .next ((m.useMark.pushSymbol (.binding table (s.markedText m mark))).reframe pc backtrack
        ((Instruction.define table).marksAfter (m.reframe pc backtrack marks).work.pinnedMarks m.pos marks)) := by
  have top' : (m.reframe pc backtrack marks).work.marks.back? = some mark := top
  have room' : (m.reframe pc backtrack marks).work.symbols.size < s.config.maxSymbols := room
  have text : s.markedText (m.reframe pc backtrack marks) mark = s.markedText m mark := rfl
  simp only [perform, top', if_pos room', text]
  rw [Machine.reframe_useMark]
  exact congrArg (fun x => Effect.next (Machine.pushSymbol x _)) (m.useMark_reframe pc backtrack _).symm

/-- A straight instruction does the same with other frames and marks, if a definition finds the same mark last. -/
theorem perform_reframe (pc : Nat) (backtrack : Array Frame) (straight : i.straight = true)
    (h : s.perform i m = .next m₁) (last : ∀ table, i = .define table → marks.back? = m.work.marks.back?) :
    s.perform i (m.reframe pc backtrack marks) = .next (m₁.reframe pc backtrack
      (i.marksAfter (m.reframe pc backtrack marks).work.pinnedMarks m.pos marks)) := by
  cases i with
  | any | charRange | charSet | string => exact Machine.take_reframe h
  | notCharSet | notString => exact Machine.refuse_reframe h
  | optionalCharSet | optionalString => exact Machine.skip_reframe h
  | is | isa => exact Machine.takeText_reframe h
  | zeroMoreCharSet | tag | value | mark =>
    cases h
    rfl
  | nodeOpen | scopeBegin =>
    simp only [perform] at h
    split at h
    · next room =>
      cases h
      exact if_pos room
    · cases h
  | nodeClose =>
    simp only [perform] at h
    split at h
    · cases h
    · next fault =>
      cases h
      exact nodeClose_reframe fault
  | define table =>
    simp only [perform] at h
    split at h
    · cases h
    · next mark top =>
      split at h
      · next room =>
        cases h
        exact define_reframe ((last table rfl).trans top) room
      · cases h
  | scopeEnd =>
    simp only [perform] at h
    split at h
    · next place latest =>
      cases h
      have latest' : SymbolEntry.lastScope? (m.reframe pc backtrack marks).work.symbols = some place := latest
      simp only [perform, latest']
      rfl
    · cases h
  | _ => cases straight

/-- What a straight instruction leaves of frames and marks. -/
theorem eq_of_perform_straight (straight : i.straight = true) (h : s.perform i m = .next m₁) :
    m₁ = m₁.reframe m.pc m.work.backtrack (i.marksAfter m.work.pinnedMarks m.pos m.work.marks) :=
  Effect.next.inj (h.symm.trans (perform_reframe _ _ straight h fun _ _ => rfl))

end

/-! ## Straight code -/

/-- The code is carried out one instruction after the other: each succeeds and hands over to the next. -/
inductive Passes (s : Setting) : List Instruction → Machine → Machine → Prop where
  | nil (m : Machine) : Passes s [] m m
  | cons {i : Instruction} {code : List Instruction} {m m₁ m' : Machine} (done : s.perform i m = .next m₁)
    (rest : Passes s code (m₁.moveOn (m₁.pc + 1)) m') : Passes s (i :: code) m m'

/-- The machine behind the code, if the code is carried out. -/
def passed? (s : Setting) : List Instruction → Machine → Option Machine
  | [], m => some m
  | i :: code, m =>
    match s.perform i m with
    | .next m₁ => s.passed? code (m₁.moveOn (m₁.pc + 1))
    | _ => none

theorem passes_of_passed? {m : Machine} (h : s.passed? code m = some m') : s.Passes code m m' := by
  induction code generalizing m with
  | nil =>
    cases h
    exact .nil _
  | cons i code ih =>
    rw [passed?] at h
    split at h
    · next m₁ done => exact .cons done (ih h)
    · cases h

/-- A program that holds the code carries it out. -/
theorem reaches_of_passes {program : Program} (h : s.Passes code m m') (holds : program.Holds m.pc code) :
    { s with program }.Reaches m m' := by
  induction h with
  | nil => exact .refl
  | @cons i code m m₁ m' done rest ih =>
    obtain ⟨here, behind⟩ := holds
    have hpc : m₁.pc = m.pc := by
      have := (s.perform_keeps i m).1
      rw [done] at this
      exact this
    have hstep : { s with program }.step m = .running (m₁.moveOn (m₁.pc + 1)) :=
      (step_of_code (s := { s with program }) here).trans (congrArg Effect.settle done)
    exact .head hstep (ih (hpc ▸ behind))

/-- If the marks of two machines are related like this before straight code, a definition at its head finds the same
    mark last in both, and they are related again behind its first instruction. The top frames count so many marks. -/
def Carried (pinned pinned' : Nat) (related : List Instruction → Array Nat → Array Nat → Prop) : Prop :=
  ∀ i code marks marks' pos, related (i :: code) marks marks' →
    (∀ table, i = .define table → marks'.back? = marks.back?) ∧
      related code (i.marksAfter pinned pos marks) (i.marksAfter pinned' pos marks')

/-- Straight code does the same with other frames and marks, as long as its definitions find the same marks last.
    The relation between the marks says why they do. -/
theorem passes_reframe (related : List Instruction → Array Nat → Array Nat → Prop) (pc : Nat)
    (backtrack : Array Frame) {pinned pinned' : Nat} {marks : Array Nat} (h : s.Passes code m m')
    (straight : ∀ i ∈ code, i.straight = true) (hpinned : m.work.pinnedMarks = pinned)
    (hpinned' : Stacks.pinnedMarks { m.work with backtrack } = pinned')
    (carried : Carried pinned pinned' related) (start : related code m.work.marks marks) :
    ∃ marks', s.Passes code (m.reframe pc backtrack marks) (m'.reframe (pc + code.length) backtrack marks') ∧
      related [] m'.work.marks marks' := by
  induction h generalizing pc marks with
  | nil => exact ⟨marks, .nil _, start⟩
  | @cons i code m m₁ m' done rest ih =>
    obtain ⟨last, next⟩ := carried i code _ _ m.pos start
    obtain ⟨here, later⟩ := List.forall_mem_cons.1 straight
    have done' := perform_reframe pc backtrack here done last
    have left := eq_of_perform_straight here done
    have hframes : m₁.work.backtrack = m.work.backtrack := by rw [left]; rfl
    have hmarks : m₁.work.marks = i.marksAfter pinned m.pos m.work.marks := by rw [← hpinned, left]; rfl
    have hpinned₁ : m₁.work.pinnedMarks = pinned := by rw [← hpinned, Stacks.pinnedMarks, hframes]; rfl
    have next : related code m₁.work.marks (i.marksAfter pinned' m.pos marks) := hmarks ▸ next
    obtain ⟨marks', passes, stays⟩ := ih (pc + 1) later hpinned₁ hpinned' next
    refine ⟨marks', ?_, stays⟩
    rw [List.length_cons, Nat.add_comm code.length, ← Nat.add_assoc]
    exact .cons done' (hpinned' ▸ passes)

/-! ## The marks -/

/-- What an instruction means for the marks: it makes one, or it takes one, or it leaves them alone. -/
theorem marks_cases (i : Instruction) :
    i = .mark ∨ (∃ table, i = .define table) ∨
      (∀ table, i ≠ .define table) ∧ (∀ pinned pos marks, i.marksAfter pinned pos marks = marks) ∧
        ∀ own code, Instruction.takesPending own (i :: code) = Instruction.takesPending own code := by
  cases i with
  | mark => exact .inl rfl
  | define table => exact .inr (.inl ⟨table, rfl⟩)
  | _ => exact .inr (.inr ⟨nofun, fun _ _ _ => rfl, fun own code => by cases own <;> rfl⟩)

section

variable {pinned : Nat} {left base own : Array Nat}

/-- A definition that finds a mark of its own leaves the marks below alone. -/
theorem marksAfter_append (hpinned : pinned ≤ left.size) (finds : ∀ table, i = .define table → own ≠ #[])
    (pos : Nat) : i.marksAfter pinned pos (left ++ own) = left ++ i.marksAfter 0 pos own := by
  rcases marks_cases i with rfl | ⟨table, rfl⟩ | ⟨-, kept, -⟩
  · exact Array.push_append
  · have hown : 0 < own.size := Array.size_pos_iff.2 (finds table rfl)
    have free : pinned < (left ++ own).size := by
      rw [Array.size_append]
      omega
    rw [Instruction.marksAfter, Instruction.marksAfter, if_pos free, if_pos hown]
    exact Array.pop_append_of_ne_empty (finds table rfl)
  · rw [kept, kept]

theorem takesPending_marksAfter (finds : ∀ table, i = .define table → own ≠ #[]) (pos : Nat) :
    Instruction.takesPending own.size (i :: code) =
      Instruction.takesPending (i.marksAfter 0 pos own).size code := by
  rcases marks_cases i with rfl | ⟨table, rfl⟩ | ⟨-, kept, same⟩
  · rw [Instruction.takesPending, Instruction.marksAfter, Array.size_push]
  · obtain ⟨below, top, rfl⟩ := Array.exists_push_of_ne_empty (finds table rfl)
    have hown : 0 < (below.push top).size := by
      rw [Array.size_push]
      omega
    rw [Instruction.marksAfter, if_pos hown, Array.pop_push, Array.size_push, Instruction.takesPending]
  · rw [same, kept]

theorem back?_append_of_finds {table : String} (finds : ∀ table, i = .define table → own ≠ #[])
    (hi : i = .define table) : (base ++ own).back? = (left ++ own).back? := by
  obtain ⟨below, top, rfl⟩ := Array.exists_push_of_ne_empty (finds table hi)
  rw [Array.append_push, Array.append_push, Array.back?_push, Array.back?_push]

/-- All marks are the same. -/
def SameMarks (_ : List Instruction) (marks marks' : Array Nat) : Prop := marks' = marks

theorem carried_sameMarks (pinned : Nat) : Carried pinned pinned SameMarks := by
  intro i code marks marks' pos h
  cases h
  exact ⟨fun _ _ => rfl, rfl⟩

/-- Under a frame that counts all of `base`, the definitions that take a mark from there find the last one each time.
    Without the frame they find the same if this mark is there once for each of them, above any others. -/
def Borrows (left base : Array Nat) (code : List Instruction) (marks marks' : Array Nat) : Prop :=
  ∃ own top, marks = left ++ Array.replicate (Instruction.takesPending own.size code) top ++ own ∧
    marks' = base ++ own ∧ (0 < Instruction.takesPending own.size code → base.back? = some top)

theorem carried_borrows (hpinned : pinned ≤ left.size) (base : Array Nat) :
    Carried pinned base.size (Borrows left base) := by
  rintro i code _ _ pos ⟨own, top, rfl, rfl, hbase⟩
  by_cases finds : ∀ table, i = .define table → own ≠ #[]
  · rw [takesPending_marksAfter finds pos] at hbase ⊢
    have hpinned : pinned ≤ (left ++ Array.replicate
        (Instruction.takesPending (i.marksAfter 0 pos own).size code) top).size := by
      rw [Array.size_append]
      omega
    refine ⟨fun table => back?_append_of_finds finds, i.marksAfter 0 pos own, top, ?_, ?_, hbase⟩
    · exact marksAfter_append hpinned finds pos
    · exact marksAfter_append (Nat.le_refl _) finds pos
  · -- The definition finds none of its own, and takes the last of the others.
    obtain ⟨table, rfl, rfl⟩ : ∃ table, i = .define table ∧ own = #[] := by simpa using finds
    have taken : Instruction.takesPending 0 (.define table :: code) = Instruction.takesPending 0 code + 1 := rfl
    rw [Array.size_empty, taken] at hbase ⊢
    rw [Array.append_empty, Array.append_empty, Array.replicate_succ, Array.append_push]
    have free : pinned < (left ++ Array.replicate (Instruction.takesPending 0 code) top).size + 1 := by
      rw [Array.size_append]
      omega
    refine ⟨fun _ _ => (hbase (Nat.succ_pos _)).trans (Array.back?_push ..).symm, #[], top, ?_, ?_, ?_⟩
    · rw [Instruction.marksAfter, Array.size_push, if_pos free, Array.pop_push, Array.append_empty]
      rfl
    · rw [Array.append_empty]
      exact if_neg (Nat.lt_irrefl _)
    · exact fun _ => hbase (Nat.succ_pos _)

end

/-! ## The choice -/

/-- Straight code leaves the frames that it found. -/
theorem backtrack_of_passes (h : s.Passes code m m') (straight : ∀ i ∈ code, i.straight = true) :
    m'.work.backtrack = m.work.backtrack := by
  induction h with
  | nil => rfl
  | @cons i code m m₁ m' done rest ih =>
    obtain ⟨here, later⟩ := List.forall_mem_cons.1 straight
    rw [ih later, eq_of_perform_straight here done]
    rfl

theorem noted_of_passes (h : s.Passes code m m') (noted : m.pos ≤ m.furthest) : m'.pos ≤ m'.furthest := by
  induction h with
  | nil => exact noted
  | cons _ _ ih => exact ih (Nat.le_max_right ..)

/-- Straight code does the same wherever it stands in a program. -/
theorem reaches_elsewhere {program : Program} {k : Nat} (h : s.Passes code m m')
    (straight : ∀ i ∈ code, i.straight = true) (holds : program.Holds k code) :
    { s with program }.Reaches { m with pc := k } { m' with pc := k + code.length } := by
  obtain ⟨marks', passes, hmarks⟩ :=
    passes_reframe SameMarks k m.work.backtrack h straight rfl rfl (carried_sameMarks _) rfl
  cases hmarks
  have left : m'.reframe (k + code.length) m.work.backtrack m'.work.marks = { m' with pc := k + code.length } := by
    rw [← backtrack_of_passes h straight]
    rfl
  exact reaches_of_passes (left ▸ passes) holds

/-- Under the frame of a choice, straight code comes to the commit, which drops the frame. -/
theorem reaches_committed {program : Program} {k alternative target : Nat} {marks : Array Nat}
    (holds : program.Holds k (.choice alternative :: code ++ [.commit target]))
    (room : m.work.backtrack.size < s.config.maxStackLength) (noted : m.pos ≤ m.furthest)
    (h : s.Passes code (m.reframe (k + 1) (m.work.backtrack.push (m.frame alternative)) m.work.marks)
      (m'.reframe (k + 1 + code.length) (m.work.backtrack.push (m.frame alternative)) marks))
    (noted' : m'.pos ≤ m'.furthest) (frames : m'.work.backtrack = m.work.backtrack) :
    { s with program }.Reaches { m with pc := k } { m' with pc := target, work.marks := marks } := by
  obtain ⟨chooses, behind⟩ := holds
  obtain ⟨holdsCode, commits, -⟩ := Program.holds_append.1 behind
  let x := m'.reframe (k + 1 + code.length) (m.work.backtrack.push (m.frame alternative)) marks
  have first : { s with program }.step { m with pc := k } =
      .running (m.reframe (k + 1) (m.work.backtrack.push (m.frame alternative)) m.work.marks) := by
    rw [step_choice (s := { s with program }) (m := { m with pc := k }) chooses room, Machine.attempt, Machine.moveOn,
      Machine.noteCursor]
    show Transition.running ⟨k + 1, m.pos, max m.furthest m.pos, _, m.pool⟩ = _
    rw [Nat.max_eq_left noted]
    rfl
  have last : { s with program }.step x = .running { m' with pc := target, work.marks := marks } := by
    have top : x.work.backtrack.back? = some (m.frame alternative) := Array.back?_push
    have popped : x.work.backtrack.pop = m'.work.backtrack := Array.pop_push.trans frames.symm
    rw [step_of_code (s := { s with program }) (m := x) commits, perform, top]
    show Transition.running ⟨target, m'.pos, max m'.furthest m'.pos,
      { x.work with backtrack := x.work.backtrack.pop }, m'.pool⟩ = _
    rw [Nat.max_eq_left noted', popped]
    rfl
  exact .head first ((reaches_of_passes h holdsCode).tail last)

/-- A choice around straight code leaves what the code leaves without it, but for the marks. They are related as
    the code keeps them related, where the frame of the choice counts all that were pending before it. -/
theorem reaches_choice (related : List Instruction → Array Nat → Array Nat → Prop) {program : Program}
    {k alternative target : Nat} {marks₀ : Array Nat} (h : s.Passes code { m with work.marks := marks₀ } m')
    (straight : ∀ i ∈ code, i.straight = true)
    (holds : program.Holds k (.choice alternative :: code ++ [.commit target]))
    (room : m.work.backtrack.size < s.config.maxStackLength) (noted : m.pos ≤ m.furthest)
    (carried : Carried m.work.pinnedMarks m.work.marks.size related) (start : related code marks₀ m.work.marks) :
    ∃ marks, { s with program }.Reaches { m with pc := k } { m' with pc := target, work.marks := marks } ∧
      related [] m'.work.marks marks := by
  have counts : Stacks.pinnedMarks { m.work with backtrack := m.work.backtrack.push (m.frame alternative) } =
      m.work.marks.size := by
    rw [Stacks.pinnedMarks, Array.back?_push]
    rfl
  obtain ⟨marks, passes, stays⟩ := passes_reframe related (k + 1) _ h straight rfl counts carried start
  have frames := backtrack_of_passes h straight
  exact ⟨marks, reaches_committed holds room noted passes (noted_of_passes h noted) frames, stays⟩

/-- So a choice around straight code leaves what the code leaves where the last pending mark is there once more for
    each definition that takes it, above any marks that are pending then. -/
theorem reaches_choice_of_borrows {program : Program} {k alternative target top : Nat} {marks₀ left : Array Nat}
    (h : s.Passes code { m with work.marks := marks₀ } m') (straight : ∀ i ∈ code, i.straight = true)
    (holds : program.Holds k (.choice alternative :: code ++ [.commit target]))
    (room : m.work.backtrack.size < s.config.maxStackLength) (noted : m.pos ≤ m.furthest)
    (hpinned : m.work.pinnedMarks ≤ left.size)
    (hmarks : marks₀ = left ++ Array.replicate (Instruction.takesPending 0 code) top)
    (last : 0 < Instruction.takesPending 0 code → m.work.marks.back? = some top) :
    ∃ own, m'.work.marks = left ++ own ∧
      { s with program }.Reaches { m with pc := k } { m' with pc := target, work.marks := m.work.marks ++ own } := by
  have start : Borrows left m.work.marks code marks₀ m.work.marks :=
    ⟨#[], top, hmarks.trans Array.append_empty.symm, Array.append_empty.symm, last⟩
  obtain ⟨marks, reaches, own, top, hmarks', rfl, -⟩ :=
    reaches_choice (Borrows left m.work.marks) h straight holds room noted (carried_borrows hpinned _) start
  exact ⟨own, hmarks'.trans (congrArg (· ++ own) Array.append_empty), reaches⟩

end Setting

namespace Context

variable {c : Context} {program : Program} {m m' : Machine} {code : List Instruction}

/-- **A choice leaves what its first alternative leaves, but for the marks of before, which it keeps.** Let straight
    code be carried out from a state of any run. Wherever a program holds the code, it comes to the same state behind
    it. If there is room for a frame, a program that holds the code between a choice and its commit comes to the same
    state where the commit leads, if no definition of the code takes a mark that was pending before the choice, or if
    the top frame counts all pending marks anyway. If a single one does, the code alone uses the mark up; under the
    frame of the choice it stays, and everything else is the same. If more of them do, they all find the last pending
    mark under the frame, so that what they bind can differ too: the choice leaves what the code leaves from the state
    where this mark is there once more for each of them. -/
theorem choice_transparent (reached : (c.setting program).Reaches c.machine m)
    (straight : ∀ i ∈ code, i.straight = true) (passes : (c.setting program).Passes code m m') :
    (∀ program' k, program'.Holds k code →
      (c.setting program').Reaches { m with pc := k } { m' with pc := k + code.length }) ∧
    ∀ program' k target, program'.Holds k (.choice target :: code ++ [.commit target]) →
      m.work.backtrack.size < c.config.maxStackLength →
      (Instruction.takesPending 0 code = 0 ∨ m.work.pinnedMarks = m.work.marks.size →
        (c.setting program').Reaches { m with pc := k } { m' with pc := target }) ∧
      (Instruction.takesPending 0 code = 1 → m.work.pinnedMarks < m.work.marks.size →
        ∃ own, m'.work.marks = m.work.marks.pop ++ own ∧
          (c.setting program').Reaches { m with pc := k }
            { m' with pc := target, work.marks := m.work.marks ++ own }) ∧
      ∀ last m'', m.work.marks.back? = some last →
        (c.setting program).Passes code
          { m with work.marks := m.work.marks ++ Array.replicate (Instruction.takesPending 0 code) last } m'' →
        (c.setting program').Reaches { m with pc := k } { m'' with pc := target } := by
  have noted : m.pos ≤ m.furthest := (Setting.within_of_reaches reached c.within_start).pos_le
  have pinned : m.work.pinnedMarks ≤ m.work.marks.size := Setting.pinnedMarks_le_of_reaches reached
  refine ⟨fun program' k => Setting.reaches_elsewhere passes straight, fun program' k target holds room => ?_⟩
  refine ⟨fun which => ?_, fun one free => ?_, fun last m'' hlast again => ?_⟩
  · rcases which with none | all
    · have same : m.work.marks = m.work.marks ++ Array.replicate (Instruction.takesPending 0 code) 0 := by
        rw [none, Array.replicate_zero, Array.append_empty]
      obtain ⟨own, hmarks, reaches⟩ := Setting.reaches_choice_of_borrows passes straight holds room noted pinned same
        fun some => absurd none (Nat.ne_of_gt some)
      rw [← hmarks] at reaches
      exact reaches
    · have carried := Setting.carried_sameMarks m.work.marks.size
      obtain ⟨marks, reaches, hmarks⟩ := Setting.reaches_choice Setting.SameMarks passes straight holds room noted
        (all ▸ carried) rfl
      cases hmarks
      exact reaches
  · obtain ⟨below, last, hbelow⟩ := Array.exists_push_of_size_pos (Nat.zero_lt_of_lt free)
    have hsize : m.work.pinnedMarks ≤ below.size := by
      rw [hbelow, Array.size_push] at free
      exact Nat.le_of_lt_succ free
    have once : m.work.marks = below ++ Array.replicate (Instruction.takesPending 0 code) last := by
      rw [one, hbelow]
      rfl
    have hlast : m.work.marks.back? = some last := by rw [hbelow, Array.back?_push]
    rw [hbelow, Array.pop_push, ← hbelow]
    exact Setting.reaches_choice_of_borrows passes straight holds room noted hsize once fun _ => hlast
  · obtain ⟨own, hmarks, reaches⟩ := Setting.reaches_choice_of_borrows again straight holds room noted pinned rfl
      fun _ => hlast
    rw [← hmarks] at reaches
    exact reaches

/-- Marks a place, and then binds what was consumed from there, inside a choice and once more behind it. -/
def bindingTwice : Program :=
  .ofList [.exit, .mark, .choice 6, .any, .define "T", .commit 6, .define "T", .exit]

/-- The same without the choice. -/
def bindingTwiceAlone : Program := .ofList [.exit, .mark, .any, .define "T", .define "T", .exit]

/-- Marks two places, and then binds twice, inside a choice. -/
def bindingMarks : Program :=
  .ofList [.exit, .mark, .any, .mark, .any, .choice 9, .define "T", .define "T", .commit 9, .exit]

/-- The same without the choice. -/
def bindingMarksAlone : Program := .ofList [.exit, .mark, .any, .mark, .any, .define "T", .define "T", .exit]

/-- Marks a place of its own inside a choice, and binds what it consumes from there. -/
def bindingOwn : Program := .ofList [.choice 5, .mark, .any, .define "T", .commit 5, .exit]

def bindingContext : Context := { new {} with input := #[97, 98], startPoint := 1 }

/-- One definition that takes the mark of before, one that takes a mark of its own, and two that find the last mark of
    before where they would take one each. -/
theorem choice_transparent_binding :
    let s := bindingContext.setting bindingTwice
    let m := s.states bindingContext.machine 1
    let t := bindingContext.setting bindingMarks
    let n := t.states bindingContext.machine 4
    (∃ m' m'', s.Passes [.any, .define "T"] m m' ∧ m'.work.marks = #[] ∧
      s.Reaches { m with pc := 2 } { m' with pc := 6, work.marks := #[0] } ∧
      s.Passes [.any, .define "T"] { m with work.marks := #[0, 0] } m'' ∧
      s.Reaches { m with pc := 2 } { m'' with pc := 6 } ∧
      (bindingContext.setting (.ofList [.any, .define "T"])).Reaches { m with pc := 0 } { m' with pc := 2 }) ∧
    (∃ m', s.Passes [.mark, .any, .define "T"] m m' ∧ m'.work.marks = #[0] ∧
      (bindingContext.setting bindingOwn).Reaches { m with pc := 0 } { m' with pc := 5 }) ∧
    ∃ n' n'', t.Passes [.define "T", .define "T"] n n' ∧
      n'.work.symbols = #[.binding "T" [98], .binding "T" [97, 98]] ∧
      t.Passes [.define "T", .define "T"] { n with work.marks := #[0, 1, 1, 1] } n'' ∧
      n''.work.symbols = #[.binding "T" [98], .binding "T" [98]] ∧
      t.Reaches { n with pc := 5 } { n'' with pc := 9 } := by
  intro s m t n
  have reached : s.Reaches bindingContext.machine m := Setting.reaches_states s _ 1
  have reached' : t.Reaches bindingContext.machine n := Setting.reaches_states t _ 4
  refine ⟨?_, ?_, ?_⟩
  · have passed : (s.passed? [.any, .define "T"] m).map (·.work.marks) = some #[] := by decide +kernel
    have twice : (s.passed? [.any, .define "T"] { m with work.marks := #[0, 0] }).map (·.work.marks) = some #[0] := by
      decide +kernel
    obtain ⟨m', passed, hmarks⟩ := Option.map_eq_some_iff.1 passed
    obtain ⟨m'', twice, -⟩ := Option.map_eq_some_iff.1 twice
    have passes := Setting.passes_of_passed? passed
    have passes'' := Setting.passes_of_passed? twice
    obtain ⟨alone, inside⟩ := choice_transparent reached (by decide) passes
    obtain ⟨-, once, again⟩ := inside bindingTwice 2 6 (by decide) (by decide +kernel)
    obtain ⟨own, hown, reaches⟩ := once rfl (by decide +kernel)
    have none : own = #[] := (Array.append_eq_empty_iff.1 (hown.symm.trans hmarks)).2
    subst none
    exact ⟨m', m'', passes, hmarks, reaches, passes'', again 0 m'' rfl passes'', alone _ 0 (by decide)⟩
  · have passed : (s.passed? [.mark, .any, .define "T"] m).map (·.work.marks) = some #[0] := by decide +kernel
    obtain ⟨m', passed, hmarks⟩ := Option.map_eq_some_iff.1 passed
    have passes := Setting.passes_of_passed? passed
    obtain ⟨same, -, -⟩ := (choice_transparent reached (by decide) passes).2 bindingOwn 0 5 (by decide)
      (by decide +kernel)
    exact ⟨m', passes, hmarks, same (.inl rfl)⟩
  · have passed : (t.passed? [.define "T", .define "T"] n).map (·.work.symbols) =
        some #[.binding "T" [98], .binding "T" [97, 98]] := by
      decide +kernel
    have more : (t.passed? [.define "T", .define "T"] { n with work.marks := #[0, 1, 1, 1] }).map (·.work.symbols) =
        some #[.binding "T" [98], .binding "T" [98]] := by
      decide +kernel
    obtain ⟨n', passed, hsymbols⟩ := Option.map_eq_some_iff.1 passed
    obtain ⟨n'', more, hsymbols'⟩ := Option.map_eq_some_iff.1 more
    have passes := Setting.passes_of_passed? passed
    have passes' := Setting.passes_of_passed? more
    obtain ⟨-, -, again⟩ := (choice_transparent reached' (by decide) passes).2 bindingMarks 5 9 (by decide)
      (by decide +kernel)
    have marks : n.work.marks = #[0, 1] := by decide +kernel
    rw [marks] at again
    exact ⟨n', n'', passes, hsymbols, passes', hsymbols', again 1 n'' rfl passes'⟩

/-- A mark that is pending before a choice is not used up by the definition inside, since the frame of the choice
    counts it. So a second definition behind the choice finds it once more, which finds none if there is no choice;
    and a second definition inside binds from the same mark as the first, and not from the one before it. -/
theorem choice_keeps_mark :
    let inside := (bindingContext.setting bindingTwice).states bindingContext.machine
    let alone := (bindingContext.setting bindingTwiceAlone).states bindingContext.machine
    ((inside 1).work = (alone 1).work ∧ (inside 1).work.backtrack.size = 0 ∧ (inside 1).work.marks = #[0] ∧
      (bindingContext.setting bindingTwiceAlone).Passes [.any, .define "T"] (alone 1) (alone 3) ∧
      (alone 3).work.marks = #[] ∧
      bindingTwice.Holds (inside 1).pc (.choice 6 :: [.any, .define "T"] ++ [.commit 6]) ∧ (inside 5).pc = 6 ∧
      (inside 5).work.marks = #[0]) ∧
    (bindingContext.run bindingTwiceAlone 4).map Prod.fst = some (.stopped (.missingMark 4)) ∧
    (bindingContext.run bindingTwice 7).map Prod.fst = some (.matched ⟨0, 1, none, none, []⟩) ∧
    ((bindingContext.setting bindingMarksAlone).states bindingContext.machine 6).work.symbols =
      #[.binding "T" [98], .binding "T" [97, 98]] ∧
    ((bindingContext.setting bindingMarks).states bindingContext.machine 8).work.symbols =
      #[.binding "T" [98], .binding "T" [98]] := by
  intro inside alone
  have passes : (bindingContext.setting bindingTwiceAlone).Passes [.any, .define "T"] (alone 1) (alone 3) := by
    have takes : (bindingContext.setting bindingTwiceAlone).perform .any (alone 1) =
        .next ((alone 1).advance 1) := rfl
    exact .cons takes (.cons rfl (.nil _))
  refine ⟨⟨?_, ?_, ?_, passes, ?_, ?_, ?_, ?_⟩, ?_, ?_, ?_, ?_⟩ <;> decide +kernel

end Context

end PegMachine
