import PegMachine.Proofs.Run.Moves
/-!
  Where a run leads, unless it exhausts a capacity.

  `s.Leads P m` says that the run from `m` comes to a machine with `P`, or to a full stack or a full pool
  that stops it. Both cases are one notion, so that a proof about the machine need not split at every
  instruction that may overflow. What is proved:
    1. `Leads.bind`: two stretches of a run make one;
    2. `Leads.of_step`: a run that leads somewhere else does so after its first step;
    3. `Leads.execute`: a run that leads to its end ends within some number of steps, and more steps do not
       change how.
-/
namespace PegMachine

/-- Whether the error says that a stack or the pool is full. -/
def RunError.exhaustion : RunError → Bool
  | stackOverflow _ _ | poolExhausted _ => true
  | _ => false

/-- The machine after a `choice`. -/
def Machine.attempt (m : Machine) (alternative : Nat) : Machine :=
  (m.pushFrame (m.frame alternative)).moveOn (m.pc + 1)

namespace Setting

/-- The run from the machine comes to one with the property, unless it exhausts a capacity before. -/
inductive Leads (s : Setting) (P : Machine → Prop) : Machine → Prop where
  | here {m : Machine} (h : P m) : Leads s P m
  | exhausted {m : Machine} {error : RunError} (hstep : s.step m = .stopped error m)
    (full : error.exhaustion = true) : Leads s P m
  | step {m m' : Machine} (hstep : s.step m = .running m') (rest : Leads s P m') : Leads s P m

variable {s : Setting} {P Q : Machine → Prop} {m m' : Machine} {i : Instruction}

/-- How a run ends with enough steps after the first is how it ends with enough steps. -/
theorem execute_of_succ {n : Nat} {result : Option Halt} (h : ∀ fuel ≥ n, s.execute (fuel + 1) m = result) :
    ∀ fuel ≥ n + 1, s.execute fuel m = result := by
  intro fuel hfuel
  cases fuel with
  | zero => cases hfuel
  | succ fuel => exact h fuel (Nat.le_of_succ_le_succ hfuel)

namespace Leads

theorem bind (h : s.Leads P m) (next : ∀ m', P m' → s.Leads Q m') : s.Leads Q m := by
  induction h with
  | here hp => exact next _ hp
  | exhausted hstep full => exact .exhausted hstep full
  | step hstep _ ih => exact .step hstep ih

theorem mono (h : s.Leads P m) (hpq : ∀ m', P m' → Q m') : s.Leads Q m :=
  h.bind fun m' hp => .here (hpq m' hp)

/-- The first step on the way to somewhere else. -/
theorem of_step (h : s.Leads P m) (hstep : s.step m = .running m') (hp : ¬ P m) : s.Leads P m' := by
  cases h with
  | here h => exact absurd h hp
  | exhausted hstop =>
    rw [hstep] at hstop
    cases hstop
  | step hstep' rest =>
    rw [hstep] at hstep'
    cases hstep'
    exact rest

/-- A run that leads to its end ends, with as many steps as it takes or more. -/
theorem execute {R : Bool → Machine → Prop}
    (h : s.Leads (fun m' => ∃ matched last, s.step m' = .halted matched last ∧ R matched last) m) :
    ∃ halt n, (∀ fuel ≥ n, s.execute fuel m = some halt) ∧
      ((∃ error, halt.result = .error error ∧ error.exhaustion = true) ∨
        ∃ matched, halt.result = .ok matched ∧ R matched halt.machine) := by
  induction h with
  | @here m h =>
    obtain ⟨matched, last, hstep, hr⟩ := h
    refine ⟨⟨last, .ok matched⟩, 1, execute_of_succ fun fuel _ => ?_, .inr ⟨matched, rfl, hr⟩⟩
    rw [Setting.execute, hstep]
  | @exhausted m error hstep full =>
    refine ⟨⟨m, .error error⟩, 1, execute_of_succ fun fuel _ => ?_, .inl ⟨error, rfl, full⟩⟩
    rw [Setting.execute, hstep]
  | step hstep _ ih =>
    obtain ⟨halt, n, hrun, hend⟩ := ih
    refine ⟨halt, n + 1, execute_of_succ fun fuel hfuel => ?_, hend⟩
    rw [Setting.execute, hstep]
    exact hrun fuel hfuel

end Leads

/-- More steps do not change how a run ends. -/
theorem execute_of_le {fuel fuel' : Nat} {halt : Halt} (h : s.execute fuel m = some halt) (hle : fuel ≤ fuel') :
    s.execute fuel' m = some halt := by
  induction fuel generalizing fuel' m with
  | zero => cases h
  | succ fuel ih =>
    obtain ⟨k, rfl⟩ : ∃ k, fuel' = k + 1 := ⟨fuel' - 1, by omega⟩
    rw [execute] at h ⊢
    split at h
    · exact ih h (by omega)
    · exact h
    · exact h

/-! ## Single instructions -/

theorem step_of_code (code : s.program.at? m.pc = some i) : s.step m = (s.perform i m).settle := by
  simp only [step, code, dispatch_eq]

theorem step_call {target : Nat} (code : s.program.at? m.pc = some (.call target))
    (room : m.work.calls.size < s.config.maxStackLength) :
    s.step m = .running ((m.pushCall (m.pc + 1)).moveOn target) := by
  rw [step_of_code code, perform, if_pos room]
  rfl

theorem step_call_full {target : Nat} (code : s.program.at? m.pc = some (.call target))
    (full : ¬ m.work.calls.size < s.config.maxStackLength) :
    s.step m = .stopped (.stackOverflow .call s.config.maxStackLength) m := by
  rw [step_of_code code, perform, if_neg full]
  rfl

theorem leads_call {target : Nat} (code : s.program.at? m.pc = some (.call target))
    (rest : s.Leads P ((m.pushCall (m.pc + 1)).moveOn target)) : s.Leads P m := by
  by_cases room : m.work.calls.size < s.config.maxStackLength
  · exact .step (step_call code room) rest
  · exact .exhausted (step_call_full code room) rfl

theorem step_choice {alternative : Nat} (code : s.program.at? m.pc = some (.choice alternative))
    (room : m.work.backtrack.size < s.config.maxStackLength) : s.step m = .running (m.attempt alternative) := by
  rw [step_of_code code, perform, if_pos room]
  rfl

theorem step_choice_full {alternative : Nat} (code : s.program.at? m.pc = some (.choice alternative))
    (full : ¬ m.work.backtrack.size < s.config.maxStackLength) :
    s.step m = .stopped (.stackOverflow .backtrack s.config.maxStackLength) m := by
  rw [step_of_code code, perform, if_neg full]
  rfl

theorem leads_choice {alternative : Nat} (code : s.program.at? m.pc = some (.choice alternative))
    (rest : m.work.backtrack.size < s.config.maxStackLength → s.Leads P (m.attempt alternative)) :
    s.Leads P m := by
  by_cases room : m.work.backtrack.size < s.config.maxStackLength
  · exact .step (step_choice code room) (rest room)
  · exact .exhausted (step_choice_full code room) rfl

theorem leads_nodeOpen (code : s.program.at? m.pc = some .nodeOpen)
    (rest : s.Leads P (m.openNode.moveOn (m.pc + 1))) : s.Leads P m := by
  have hstep := step_of_code code
  rw [perform] at hstep
  split at hstep
  · exact .step hstep rest
  · exact .exhausted hstep rfl

theorem leads_nodeClose {place start : Nat} (code : s.program.at? m.pc = some .nodeClose)
    (innermost : m.work.log.innermost? = some (place, start))
    (rest : s.Leads P ((m.foldFrom place start).moveOn (m.pc + 1))) : s.Leads P m := by
  have hstep := step_of_code code
  -- A node is open, so only a full pool can be in the way.
  cases hfull : m.pool.isFull with
  | true =>
    have hfault : m.closeFault? = some (.poolExhausted m.pool.size) := by
      simp [Machine.closeFault?, innermost, hfull]
    simp only [perform, hfault] at hstep
    exact .exhausted hstep rfl
  | false =>
    have hfault : m.closeFault? = none := by
      simp [Machine.closeFault?, innermost, hfull]
    simp only [perform, hfault, Machine.closeNode, innermost] at hstep
    exact .step hstep rest

end Setting

end PegMachine
