import PegMachine.Context.Run
import PegMachine.Proofs.Run.Leads
/-!
  How a run ends.

  A run goes on from step to step and ends at the first step that does not lead to a further machine. What is
  proved:
    1. `perform_keeps`, `perform_eq_goto`: what an instruction leaves, and where it sends control;
       `perform_eq_accept`, `perform_eq_stop`: an instruction that ends the run leaves the machine as it
       found it, and stops the run for a reason of its own, not because control went astray;
    2. `step_halted`, `step_stopped`: what a step was that ended the run;
    3. `trace_of_execute`, `execute_of_trace`: a run that ends has a trace up to the step that ends it, and a run
       with such a trace ends;
    4. `executeWatched_snd`: a run that is watched is the same run.
-/
namespace PegMachine

/-- Whether the error says that control went where there is nothing to carry out: outside the program, to a
    routine of another opcode, or nowhere from the start. -/
def RunError.astray : RunError → Bool
  | pcOutOfBounds _ _ | handlerMismatch _ _ | noStartPoint => true
  | _ => false

/-- The machine that an instruction leaves, before anything is done about its failure. -/
def Effect.machine : Effect → Machine
  | next m | goto _ m | fail m | accept m | stop _ m => m

/-- The step that the end of a run comes from. -/
def Halt.transition (halt : Halt) : Transition :=
  match halt.result with
  | .ok matched => .halted matched halt.machine
  | .error error => .stopped error halt.machine

namespace Setting

variable {s : Setting} {m m' : Machine} {i : Instruction} {error : RunError} {halt : Halt}

/-! ## What an instruction leaves -/

/-- No instruction touches the program counter or the furthest cursor by itself. -/
theorem perform_keeps (i : Instruction) (m : Machine) :
    (s.perform i m).machine.pc = m.pc ∧ (s.perform i m).machine.furthest = m.furthest := by
  by_cases hc : i.consumes = true
  · rcases perform_consumes (s := s) (m := m) hc with ⟨count, hp⟩ | hp <;> rw [hp] <;> exact ⟨rfl, rfl⟩
  cases i with
  | exit | jump | fail | tag | value | mark => exact ⟨rfl, rfl⟩
  | call | ret | choice | commit | partialCommit | backCommit | failTwice | mappedChoice | nodeOpen | scopeBegin
  | scopeEnd =>
    simp only [perform]
    split <;> exact ⟨rfl, rfl⟩
  | nodeClose =>
    simp only [perform, Machine.closeNode]
    split
    · exact ⟨rfl, rfl⟩
    · cases m.work.log.innermost? <;> exact ⟨rfl, rfl⟩
  | define =>
    simp only [perform]
    split
    · exact ⟨rfl, rfl⟩
    · split <;> exact ⟨rfl, rfl⟩
  | _ => exact absurd rfl hc

/-- Control is sent to a target of the instruction, or back to where a call came from. -/
theorem perform_eq_goto {target : Nat} (h : s.perform i m = .goto target m') :
    target ∈ i.targets ∨ i = .ret ∧ m.work.calls.back? = some target := by
  by_cases hc : i.consumes = true
  · rcases perform_consumes (s := s) (m := m) hc with ⟨count, hp⟩ | hp <;> rw [hp] at h <;> cases h
  cases i with
  | jump =>
    cases h
    exact .inl (List.mem_singleton_self _)
  | ret =>
    simp only [perform] at h
    split at h
    · next back top =>
      cases h
      exact .inr ⟨rfl, top⟩
    · cases h
  | mappedChoice table =>
    simp only [perform] at h
    split at h
    · next target hget =>
      cases h
      obtain ⟨b, -, entry⟩ := Option.bind_eq_some_iff.1 hget
      exact .inl (List.mem_map.2 ⟨(b, target), JumpTable.mem_entries.2 entry, rfl⟩)
    · cases h
  | call | commit | partialCommit | backCommit =>
    simp only [perform] at h
    split at h <;> cases h
    exact .inl (List.mem_singleton_self _)
  | exit | fail | tag | value | mark => cases h
  | define =>
    simp only [perform] at h
    split at h
    · cases h
    · split at h <;> cases h
  | choice | failTwice | nodeOpen | nodeClose | scopeBegin | scopeEnd =>
    simp only [perform] at h
    split at h <;> cases h
  | _ => exact absurd rfl hc


theorem perform_eq_accept (h : s.perform i m = .accept m') : m' = m := by
  by_cases hc : i.consumes = true
  · rcases perform_consumes (s := s) (m := m) hc with ⟨count, hp⟩ | hp <;> rw [hp] at h <;> cases h
  cases i with
  | exit => exact (Effect.accept.inj h).symm
  | ret =>
    simp only [perform] at h
    split at h
    · cases h
    · exact (Effect.accept.inj h).symm
  | jump | fail | tag | value | mark => cases h
  | define =>
    simp only [perform] at h
    split at h
    · cases h
    · split at h <;> cases h
  | call | choice | commit | partialCommit | backCommit | failTwice | mappedChoice | nodeOpen | nodeClose
  | scopeBegin | scopeEnd =>
    simp only [perform] at h
    split at h <;> cases h
  | _ => exact absurd rfl hc

theorem astray_of_closeFault? (h : m.closeFault? = some error) : error.astray = false := by
  rw [Machine.closeFault?] at h
  split at h
  · cases h
    rfl
  · split at h
    · cases h
      rfl
    · cases h

/-- An instruction that stops the run leaves the machine as it found it. Whatever its reason, it is that a
    stack is full or empty, a mark or an open node is missing, or the pool is full. -/
theorem perform_eq_stop (h : s.perform i m = .stop error m') : m' = m ∧ error.astray = false := by
  by_cases hc : i.consumes = true
  · rcases perform_consumes (s := s) (m := m) hc with ⟨count, hp⟩ | hp <;> rw [hp] at h <;> cases h
  cases i with
  | exit | jump | fail | tag | value | mark => cases h
  | nodeClose =>
    simp only [perform] at h
    split at h
    · next fault hfault =>
      cases h
      exact ⟨rfl, astray_of_closeFault? hfault⟩
    · cases h
  | define =>
    simp only [perform] at h
    split at h
    · cases h
      exact ⟨rfl, rfl⟩
    · split at h
      · cases h
      · cases h
        exact ⟨rfl, rfl⟩
  | call | ret | choice | commit | partialCommit | backCommit | failTwice | mappedChoice | nodeOpen
  | scopeBegin | scopeEnd =>
    simp only [perform] at h
    split at h <;> cases h
    all_goals exact ⟨rfl, rfl⟩
  | _ => exact absurd rfl hc

/-! ## Steps that end the run -/

/-- A step that halts accepts, or it fails without a frame to resume at. -/
theorem step_halted {matched : Bool} (h : s.step m = .halted matched m') :
    ∃ i, s.program.at? m.pc = some i ∧
      (matched = true ∧ s.perform i m = .accept m ∧ m' = m.noteCursor ∨
        ∃ m₁, matched = false ∧ s.perform i m = .fail m₁ ∧ m₁.work.backtrack.back? = none ∧
          m' = m₁.noteCursor) := by
  cases code : s.program.at? m.pc with
  | none =>
    simp only [step, code] at h
    cases h
  | some i =>
    rw [step_of_code code] at h
    refine ⟨i, rfl, ?_⟩
    cases he : s.perform i m with
    | accept m₁ =>
      obtain rfl := perform_eq_accept he
      rw [he] at h
      cases h
      exact .inl ⟨rfl, rfl, rfl⟩
    | fail m₁ =>
      simp only [he, Effect.settle, Machine.backtrack] at h
      split at h
      · cases h
      · next top =>
        cases h
        exact .inr ⟨m₁, rfl, rfl, top, rfl⟩
    | next | goto | stop =>
      rw [he] at h
      cases h

/-- A step that accepts only takes note of the cursor. -/
theorem step_accepted (h : s.step m = .halted true m') : m' = m.noteCursor := by
  obtain ⟨i, -, ⟨-, -, hm⟩ | ⟨m₁, hfalse, -⟩⟩ := step_halted h
  · exact hm
  · cases hfalse

/-- A step that stops has left the program, or an instruction has a reason to stop. -/
theorem step_stopped (h : s.step m = .stopped error m') :
    m' = m ∧ (s.program.at? m.pc = none ∧ error = .pcOutOfBounds m.pc s.program.size ∨ error.astray = false) := by
  cases code : s.program.at? m.pc with
  | none =>
    simp only [step, code] at h
    cases h
    exact ⟨rfl, .inl ⟨rfl, rfl⟩⟩
  | some i =>
    rw [step_of_code code] at h
    cases he : s.perform i m with
    | stop error' m₁ =>
      rw [he] at h
      cases h
      obtain ⟨rfl, own⟩ := perform_eq_stop he
      exact ⟨rfl, .inr own⟩
    | fail m₁ =>
      simp only [he, Effect.settle, Machine.backtrack] at h
      split at h <;> cases h
    | next | goto | accept =>
      rw [he] at h
      cases h

/-! ## Runs that end -/

theorem states_succ (hstep : s.step m = .running m') (k : Nat) : s.states m (k + 1) = s.states m' k := by
  induction k with
  | zero => simp only [states, hstep]
  | succ k ih => rw [states, ih, states]

/-- A run that ends has come, step by step, to the machine whose step ends it. -/
theorem trace_of_execute {fuel : Nat} (h : s.execute fuel m = some halt) :
    ∃ n, s.Trace (s.states m) n ∧ s.step (s.states m n) = halt.transition := by
  induction fuel generalizing m with
  | zero => cases h
  | succ fuel ih =>
    rw [execute] at h
    split at h
    · next m' hstep =>
      obtain ⟨n, trace, last⟩ := ih h
      refine ⟨n + 1, fun k hk => ?_, by rw [states_succ hstep, last]⟩
      cases k with
      | zero => rw [states_succ hstep]; exact hstep
      | succ k => rw [states_succ hstep, states_succ hstep]; exact trace k (by omega)
    · next hstep =>
      cases h
      exact ⟨0, fun k hk => absurd hk (Nat.not_lt_zero k), hstep⟩
    · next hstep =>
      cases h
      exact ⟨0, fun k hk => absurd hk (Nat.not_lt_zero k), hstep⟩

theorem reaches_of_execute {fuel : Nat} (h : s.execute fuel m = some halt) :
    ∃ last, s.Reaches m last ∧ s.step last = halt.transition := by
  obtain ⟨n, trace, last⟩ := trace_of_execute h
  exact ⟨s.states m n, trace.reaches n (Nat.le_refl n), last⟩

/-- What a run reaches is one of the machines that it goes through. -/
theorem states_of_reaches (h : s.Reaches m m') : ∃ n, s.Trace (s.states m) n ∧ s.states m n = m' := by
  induction h with
  | refl => exact ⟨0, fun k hk => absurd hk (Nat.not_lt_zero k), rfl⟩
  | @tail _ next _ hstep ih =>
    obtain ⟨n, trace, rfl⟩ := ih
    have hnext : s.states m (n + 1) = next := by rw [states, hstep]
    refine ⟨n + 1, fun k hk => ?_, hnext⟩
    rcases Nat.lt_succ_iff_lt_or_eq.1 hk with hk | rfl
    · exact trace k hk
    · rw [hnext, hstep]

/-- It comes before the step that ends the run. -/
theorem states_le_of_reaches {n : Nat} (h : s.Reaches m m') (last : s.step (s.states m n) = halt.transition) :
    ∃ k ≤ n, s.states m k = m' := by
  obtain ⟨k, trace, hk⟩ := states_of_reaches h
  refine ⟨k, Nat.le_of_not_lt fun hlt => ?_, hk⟩
  have hstep := trace n hlt
  rw [last, Halt.transition] at hstep
  split at hstep <;> cases hstep

/-- A run whose trace comes to a step that ends it ends there, if it is given enough steps. -/
theorem execute_of_trace {n : Nat} (trace : s.Trace (s.states m) n)
    (last : s.step (s.states m n) = halt.transition) : ∀ fuel > n, s.execute fuel m = some halt := by
  induction n generalizing m with
  | zero =>
    intro fuel hfuel
    obtain ⟨k, rfl⟩ := Nat.exists_eq_succ_of_ne_zero (Nat.ne_zero_of_lt hfuel)
    obtain ⟨x, result⟩ := halt
    have hstep : s.step m = Halt.transition ⟨x, result⟩ := last
    rw [execute, hstep]
    cases result <;> rfl
  | succ n ih =>
    intro fuel hfuel
    obtain ⟨k, rfl⟩ := Nat.exists_eq_succ_of_ne_zero (Nat.ne_zero_of_lt hfuel)
    have hstep : s.step m = .running (s.states m 1) := trace 0 (Nat.succ_pos n)
    rw [execute, hstep]
    refine ih (fun k hk => ?_) ?_ k (by omega)
    · rw [← states_succ hstep, ← states_succ hstep]
      exact trace (k + 1) (by omega)
    · rw [← states_succ hstep, last]

/-- A run that comes to a step that ends it ends there. -/
theorem execute_of_reaches (h : s.Reaches m m') (last : s.step m' = halt.transition) :
    ∃ fuel, s.execute fuel m = some halt := by
  obtain ⟨n, trace, rfl⟩ := states_of_reaches h
  exact ⟨n + 1, execute_of_trace trace last (n + 1) (Nat.lt_succ_self n)⟩

/-- Watching a run does not change it. -/
theorem executeWatched_snd {σ : Type} (watch : σ → Moment → σ) (fuel : Nat) (seen : σ) (m : Machine) :
    (s.executeWatched watch fuel seen m).map Prod.snd = s.execute fuel m := by
  induction fuel generalizing seen m with
  | zero => rfl
  | succ fuel ih =>
    rw [executeWatched, execute, step]
    cases s.program.at? m.pc with
    | none => rfl
    | some i =>
      simp only
      cases (s.dispatch i m).settle with
      | running m' => exact ih _ m'
      | halted | stopped => rfl

end Setting

end PegMachine
