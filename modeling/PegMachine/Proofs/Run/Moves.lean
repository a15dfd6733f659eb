import Mathlib.Logic.Relation
import PegMachine.Machine
import PegMachine.Proofs.Stacks.NodeLog
/-!
  What a step can do.

  A step that does not end the run carries out one instruction. `Setting.Move` lists everything it can do
  to the machine, with what was the case before: which instruction stood at the program counter, which
  stack had room, what was on top. `move_of_step` says that the list is complete, so an invariant of runs
  is one case analysis over it (`invariant_of_reaches`). `perform_fails` says what a failing instruction
  leaves.
-/
namespace PegMachine

/-! ## The instructions that only look at the input -/

/-- Whether the instruction does nothing but look at the input, consume bytes and fail. -/
def Instruction.consumes : Instruction → Bool
  | any | charRange _ _ | charSet _ | string _ | notCharSet _ | notString _ | optionalCharSet _
  | optionalString _ | zeroMoreCharSet _ | is _ | isa _ => true
  | _ => false

/-- Whether the instruction can fail without dropping a frame first. -/
def Instruction.fails : Instruction → Bool
  | fail | mappedChoice _ => true
  | i => i.consumes

theorem Instruction.fails_of_consumes {i : Instruction} (h : i.consumes = true) : i.fails = true := by
  cases i with
  | fail | mappedChoice => rfl
  | _ => exact h

/-! ## The moves -/

namespace Machine

/-- The machine going on at `pc`, with the furthest cursor kept up to date. -/
def moveOn (m : Machine) (pc : Nat) : Machine := { m.noteCursor with pc }

@[simp] theorem moveOn_pc (m : Machine) (pc : Nat) : (m.moveOn pc).pc = pc := rfl

/-! Using a mark touches no other stack. -/

@[simp] theorem useMark_log (m : Machine) : m.useMark.work.log = m.work.log := by
  simp only [useMark, Stacks.useMark]
  split <;> rfl

@[simp] theorem useMark_backtrack (m : Machine) : m.useMark.work.backtrack = m.work.backtrack := by
  simp only [useMark, Stacks.useMark]
  split <;> rfl

@[simp] theorem useMark_calls (m : Machine) : m.useMark.work.calls = m.work.calls := by
  simp only [useMark, Stacks.useMark]
  split <;> rfl

@[simp] theorem useMark_symbols (m : Machine) : m.useMark.work.symbols = m.work.symbols := by
  simp only [useMark, Stacks.useMark]
  split <;> rfl

/-- The machine resumed at a frame that was popped. -/
def resume (m : Machine) (f : Frame) : Machine := { m.noteCursor.popFrame.restore f with pc := f.alternative }

end Machine

namespace Setting

/-- What a step with the instruction makes of the machine, if the run goes on. -/
inductive Move (s : Setting) (m : Machine) : Instruction → Machine → Prop where
  /-- A matcher or a symbol look-up consumed bytes, or went on without. -/
  | consumed (i : Instruction) (count : Nat) (looks : i.consumes = true)
    (done : s.perform i m = .next (m.advance count)) : Move s m i ((m.advance count).moveOn (m.pc + 1))
  | jumped (target : Nat) : Move s m (.jump target) (m.moveOn target)
  | switched (table : JumpTable) (b : UInt8) (target : UInt32) (byte : s.next? m = some b)
    (entry : table.get? b = some target) : Move s m (.mappedChoice table) (m.moveOn target.toNat)
  | called (target : Nat) (room : m.work.calls.size < s.config.maxStackLength) :
    Move s m (.call target) ((m.pushCall (m.pc + 1)).moveOn target)
  | returned (back : Nat) (top : m.work.calls.back? = some back) :
    Move s m .ret (m.popCall.moveOn back)
  | chose (alternative : Nat) (room : m.work.backtrack.size < s.config.maxStackLength) :
    Move s m (.choice alternative) ((m.pushFrame (m.frame alternative)).moveOn (m.pc + 1))
  | committed (target : Nat) (f : Frame) (top : m.work.backtrack.back? = some f) :
    Move s m (.commit target) (m.popFrame.moveOn target)
  | refreshed (target : Nat) (f : Frame) (top : m.work.backtrack.back? = some f) :
    Move s m (.partialCommit target) ((m.refreshFrame f).moveOn target)
  | wentBack (target : Nat) (f : Frame) (top : m.work.backtrack.back? = some f) :
    Move s m (.backCommit target) ((m.popFrame.restore f).moveOn target)
  | failed (i : Instruction) (f : Frame) (fails : i.fails = true) (done : s.perform i m = .fail m)
    (top : m.work.backtrack.back? = some f) : Move s m i (m.resume f)
  | failedTwice (f g : Frame) (top : m.work.backtrack.back? = some g)
    (next : m.popFrame.work.backtrack.back? = some f) : Move s m .failTwice (m.popFrame.resume f)
  | opened (room : m.work.log.depth < s.config.maxStackLength) :
    Move s m .nodeOpen (m.openNode.moveOn (m.pc + 1))
  | closed (place start : Nat) (innermost : m.work.log.innermost? = some (place, start))
    (room : m.pool.isFull = false) : Move s m .nodeClose ((m.foldFrom place start).moveOn (m.pc + 1))
  | tagged (label : String) : Move s m (.tag label) ((m.pushEntry (.tag label)).moveOn (m.pc + 1))
  | valued (label : String) : Move s m (.value label) ((m.pushEntry (.value label)).moveOn (m.pc + 1))
  | marked : Move s m .mark (m.pushMark.moveOn (m.pc + 1))
  | defined (table : String) (mark : Nat) (top : m.work.marks.back? = some mark)
    (room : m.work.symbols.size < s.config.maxSymbols) :
    Move s m (.define table)
      ((m.useMark.pushSymbol (.binding table (s.markedText m mark))).moveOn (m.pc + 1))
  | scopeBegun (room : m.work.symbols.size < s.config.maxSymbols) :
    Move s m .scopeBegin ((m.pushSymbol .scope).moveOn (m.pc + 1))
  | scopeEnded (place : Nat) (latest : SymbolEntry.lastScope? m.work.symbols = some place) :
    Move s m .scopeEnd
      ({ m with work.symbols := m.work.symbols.shrink place }.moveOn (m.pc + 1))

end Setting

namespace Machine

variable {m : Machine} {test : Bool} {count : Nat}

theorem take_cases : m.take test count = .next (m.advance count) ∨ m.take test count = .fail m := by
  cases test <;> simp [take]

theorem skip_cases : m.skip test count = .next (m.advance count) ∨ m.skip test count = .next (m.advance 0) := by
  cases test <;> simp [skip, advance]

theorem refuse_cases : m.refuse test = .next (m.advance 0) ∨ m.refuse test = .fail m := by
  cases test <;> simp [refuse, advance]

theorem takeText_cases (text? : Option Bytes) :
    (∃ count, m.takeText text? = .next (m.advance count)) ∨ m.takeText text? = .fail m := by
  cases text? with
  | none => exact .inr rfl
  | some text => exact .inl ⟨text.length, rfl⟩

end Machine

def Effect.fails : Effect → Bool
  | fail _ => true
  | _ => false

/-- Whether the run goes on after the step. -/
def Transition.goesOn : Transition → Bool
  | running _ => true
  | _ => false

namespace Setting

variable {s : Setting} {m m' : Machine} {i : Instruction}

theorem perform_consumes (h : i.consumes = true) :
    (∃ count, s.perform i m = .next (m.advance count)) ∨ s.perform i m = .fail m := by
  cases i with
  | any | charRange | charSet | string => exact Machine.take_cases.imp_left fun e => ⟨_, e⟩
  | notCharSet | notString => exact Machine.refuse_cases.imp_left fun e => ⟨_, e⟩
  | optionalCharSet | optionalString => exact .inl (Machine.skip_cases.elim (⟨_, ·⟩) (⟨_, ·⟩))
  | zeroMoreCharSet => exact .inl ⟨_, rfl⟩
  | is | isa => exact Machine.takeText_cases _
  | _ => cases h

/-- An instruction that fails leaves the machine as it was, except that `failTwice` drops the top frame. -/
theorem perform_fails (h : s.perform i m = .fail m') : i.fails = true ∧ m' = m ∨
    i = .failTwice ∧ m' = m.popFrame ∧ ∃ g, m.work.backtrack.back? = some g := by
  by_cases hc : i.consumes = true
  · rcases perform_consumes (s := s) (m := m) hc with ⟨count, hp⟩ | hp
    · rw [hp] at h
      cases h
    · exact .inl ⟨Instruction.fails_of_consumes hc, Effect.fail.inj (h.symm.trans hp)⟩
  cases i with
  | fail => exact .inl ⟨rfl, (Effect.fail.inj h).symm⟩
  | mappedChoice table =>
    simp only [perform] at h
    split at h
    · cases h
    · exact .inl ⟨rfl, (Effect.fail.inj h).symm⟩
  | failTwice =>
    simp only [perform] at h
    split at h
    · next g hg => exact .inr ⟨rfl, (Effect.fail.inj h).symm, g, hg⟩
    · cases h
  | define table =>
    simp only [perform] at h
    split at h
    · cases h
    · split at h <;> cases h
  | exit | jump | tag | value | mark => cases h
  | call | ret | choice | commit | partialCommit | backCommit | nodeOpen | nodeClose | scopeBegin | scopeEnd =>
    simp only [perform] at h
    split at h <;> cases h
  | _ => exact absurd rfl hc

theorem perform_eq_fail (h : s.perform i m = .fail m') :
    m' = m ∨ i = .failTwice ∧ m' = m.popFrame ∧ ∃ g, m.work.backtrack.back? = some g :=
  (perform_fails h).imp_left And.right

/-- An instruction that cannot fail goes on or ends the run. -/
theorem fails_of_not_fails (never : i.fails = false) (notTwice : i ≠ .failTwice) : (s.perform i m).fails = false := by
  cases he : s.perform i m with
  | fail =>
    rcases perform_fails he with ⟨fails, -⟩ | ⟨twice, -⟩
    · rw [never] at fails
      cases fails
    · exact absurd twice notTwice
  | next | goto | accept | stop => rfl

/-! ## The list is complete -/

theorem settle_next (h : (Effect.next m).settle = .running m') : m' = m.moveOn (m.pc + 1) :=
  (Transition.running.inj h).symm

theorem settle_goto {target : Nat} (h : (Effect.goto target m).settle = .running m') : m' = m.moveOn target :=
  (Transition.running.inj h).symm

theorem settle_fail (h : (Effect.fail m).settle = .running m') :
    ∃ f, m.work.backtrack.back? = some f ∧ m' = m.resume f := by
  simp only [Effect.settle, Machine.backtrack] at h
  split at h
  · next f hf => exact ⟨f, hf, (Transition.running.inj h).symm⟩
  · cases h

/-- An instruction that fails as it is resumes at the top frame. -/
theorem move_of_fail (fails : i.fails = true) (done : s.perform i m = .fail m)
    (h : (s.perform i m).settle = .running m') : s.Move m i m' := by
  rw [done] at h
  obtain ⟨f, top, rfl⟩ := settle_fail h
  exact .failed i f fails done top

theorem move_of_consumes (hc : i.consumes = true) (h : (s.perform i m).settle = .running m') : s.Move m i m' := by
  rcases perform_consumes (s := s) (m := m) hc with ⟨count, hp⟩ | hp
  · rw [hp] at h
    rw [settle_next h]
    exact .consumed i count hc hp
  · exact move_of_fail (Instruction.fails_of_consumes hc) hp h

theorem move_of_mappedChoice {table : JumpTable} (h : (s.perform (.mappedChoice table) m).settle = .running m') :
    s.Move m (.mappedChoice table) m' := by
  cases ht : (s.next? m).bind table.get? with
  | some target =>
    have done : s.perform (.mappedChoice table) m = .goto target.toNat m := by simp only [perform, ht]
    obtain ⟨b, byte, entry⟩ := Option.bind_eq_some_iff.1 ht
    rw [done] at h
    rw [settle_goto h]
    exact .switched table b target byte entry
  | none => exact move_of_fail rfl (by simp only [perform, ht]) h

theorem move_of_nodeClose (h : (s.perform .nodeClose m).settle = .running m') : s.Move m .nodeClose m' := by
  simp only [perform, Machine.closeFault?] at h
  cases hi : m.work.log.innermost? with
  | none =>
    simp only [hi] at h
    cases h
  | some open? =>
    obtain ⟨place, start⟩ := open?
    cases hf : m.pool.isFull with
    | true =>
      simp only [hi, hf, if_true] at h
      cases h
    | false =>
      simp only [hi, hf, Bool.false_eq_true, if_false, Machine.closeNode] at h
      rw [settle_next h]
      exact .closed place start hi hf

theorem move_of_define {table : String} (h : (s.perform (.define table) m).settle = .running m') :
    s.Move m (.define table) m' := by
  simp only [perform] at h
  split at h
  · cases h
  · next mark top =>
    split at h
    · next room =>
      rw [settle_next h]
      exact .defined table mark top room
    · cases h

theorem move_of_perform (h : (s.perform i m).settle = .running m') : s.Move m i m' := by
  by_cases hc : i.consumes = true
  · exact move_of_consumes hc h
  -- What is left: one case for each instruction, and in it the ways in which it can stop the run fall away.
  cases i with
  | exit => cases h
  | jump target =>
    rw [settle_goto h]
    exact .jumped target
  | call target =>
    simp only [perform] at h
    split at h
    · next room => rw [settle_goto h]; exact .called target room
    · cases h
  | ret =>
    simp only [perform] at h
    split at h
    · next back top => rw [settle_goto h]; exact .returned back top
    · cases h
  | choice alternative =>
    simp only [perform] at h
    split at h
    · next room => rw [settle_next h]; exact .chose alternative room
    · cases h
  | commit target =>
    simp only [perform] at h
    split at h
    · next f top => rw [settle_goto h]; exact .committed target f top
    · cases h
  | partialCommit target =>
    simp only [perform] at h
    split at h
    · next f top => rw [settle_goto h]; exact .refreshed target f top
    · cases h
  | backCommit target =>
    simp only [perform] at h
    split at h
    · next f top => rw [settle_goto h]; exact .wentBack target f top
    · cases h
  | fail => exact move_of_fail rfl rfl h
  | failTwice =>
    simp only [perform] at h
    split at h
    · next g top =>
      obtain ⟨f, next, rfl⟩ := settle_fail h
      exact .failedTwice f g top next
    · cases h
  | mappedChoice table => exact move_of_mappedChoice h
  | nodeOpen =>
    simp only [perform] at h
    split at h
    · next room => rw [settle_next h]; exact .opened room
    · cases h
  | nodeClose => exact move_of_nodeClose h
  | tag label => rw [settle_next h]; exact .tagged label
  | value label => rw [settle_next h]; exact .valued label
  | mark => rw [settle_next h]; exact .marked
  | define table => exact move_of_define h
  | scopeBegin =>
    simp only [perform] at h
    split at h
    · next room => rw [settle_next h]; exact .scopeBegun room
    · cases h
  | scopeEnd =>
    simp only [perform] at h
    split at h
    · next place latest => rw [settle_next h]; exact .scopeEnded place latest
    · cases h
  | _ => exact absurd rfl hc

/-- Every step that does not end the run is one of the moves. -/
theorem move_of_step (h : s.step m = .running m') : ∃ i, s.program.at? m.pc = some i ∧ s.Move m i m' := by
  simp only [step] at h
  split at h
  · cases h
  · next i hi => exact ⟨i, hi, move_of_perform (dispatch_eq s i m ▸ h)⟩

/-! ## Runs -/

/-- The run comes from one machine to another in some number of steps. -/
def Reaches (s : Setting) : Machine → Machine → Prop :=
  Relation.ReflTransGen fun m m' => s.step m = .running m'

/-- What every move keeps holds in every state of a run that starts with it. -/
theorem invariant_of_reaches {P : Machine → Prop}
    (keeps : ∀ m i m', s.program.at? m.pc = some i → s.Move m i m' → P m → P m')
    (h : s.Reaches m m') (hm : P m) : P m' := by
  induction h with
  | refl => exact hm
  | tail _ hstep ih =>
    obtain ⟨i, code, hmove⟩ := move_of_step hstep
    exact keeps _ i _ code hmove ih

/-- The machines of a run, one after the other, up to number `n`. -/
def Trace (s : Setting) (t : Nat → Machine) (n : Nat) : Prop :=
  ∀ k < n, s.step (t k) = .running (t (k + 1))

theorem Trace.reaches {t : Nat → Machine} {n : Nat} (h : s.Trace t n) : ∀ k ≤ n, s.Reaches (t 0) (t k) := by
  intro k
  induction k with
  | zero => exact fun _ => .refl
  | succ k ih => exact fun hk => (ih (by omega)).tail (h k (by omega))

/-- The machines of a run; the last one again once the run is over. -/
def states (s : Setting) (m : Machine) : Nat → Machine
  | 0 => m
  | n + 1 =>
    match s.step (s.states m n) with
    | .running m' => m'
    | _ => s.states m n

theorem reaches_states (s : Setting) (m : Machine) (n : Nat) : s.Reaches m (s.states m n) := by
  induction n with
  | zero => exact .refl
  | succ n ih =>
    rw [states]
    split
    · next hstep => exact ih.tail hstep
    · exact ih

/-- The machines of a run are one after the other for as long as no step ends it. -/
theorem trace_of_goesOn {n : Nat} (h : ∀ k < n, (s.step (s.states m k)).goesOn = true) : s.Trace (s.states m) n := by
  intro k hk
  have goesOn := h k hk
  rw [states]
  cases hstep : s.step (s.states m k) with
  | running m' => rfl
  | halted | stopped =>
    rw [hstep] at goesOn
    cases goesOn

/-- A run is over at one step only. -/
theorem Trace.unique {n k : Nat} (trace : s.Trace (s.states m) n)
    (last : (s.step (s.states m n)).goesOn = false) (trace' : s.Trace (s.states m) k)
    (last' : (s.step (s.states m k)).goesOn = false) : n = k := by
  rcases Nat.lt_trichotomy n k with before | same | after
  · rw [trace' n before] at last
    cases last
  · exact same
  · rw [trace k after] at last'
    cases last'

/-! ## The node log in a run -/

theorem exact_of_move (h : s.Move m i m') (exact : m.work.log.Exact) : m'.work.log.Exact := by
  cases h with
  | opened => exact exact.openNode m.pos
  | closed place => exact (exact.truncate place).push nofun
  | tagged | valued => exact exact.push nofun
  | wentBack _ f | failed _ f | failedTwice f => exact exact.truncate f.logLength
  | defined =>
    have hlog : m.useMark.work.log.Exact := by rwa [Machine.useMark_log]
    exact hlog
  | _ => exact exact

/-- In every state of a run the log's places are exact. -/
theorem exact_of_reaches {pc pos : Nat} {pool : Pool} (h : s.Reaches (.start pc pos pool) m) :
    m.work.log.Exact :=
  invariant_of_reaches (fun _ _ _ _ => exact_of_move) h .empty

end Setting

end PegMachine
