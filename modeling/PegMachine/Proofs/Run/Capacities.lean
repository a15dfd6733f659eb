import PegMachine.Proofs.Run.Contexts
/-!
  Capacities.

  A full stack stops the run, and that is all that a capacity does: no instruction looks at one for anything else.
  So a run that never finds a stack full is the same run with more room. What is proved:
    1. `Stacks.Fits`, `fits_of_move`: no stack holds more than its capacity, since every move that puts something
       on one has looked whether there is room. Nor does a run leave more on one (`fits_of_run`);
    2. `perform_larger`, `step_larger`, `execute_larger`: with larger capacities an instruction, a step and a run
       do the same, unless they overflow with the smaller ones;
    3. `larger_capacities`: so raising the capacities of a context changes no result.
-/
namespace PegMachine

/-- Every capacity of the one is at most that of the other. -/
instance : LE Config where
  le config config' := config.maxStackLength ≤ config'.maxStackLength ∧ config.maxSymbols ≤ config'.maxSymbols

instance Config.decidableLe (config config' : Config) : Decidable (config ≤ config') :=
  inferInstanceAs (Decidable (_ ∧ _))

/-- Whether the error says that a stack is full. -/
def RunError.overflows : RunError → Bool
  | stackOverflow _ _ => true
  | _ => false

/-! ## How much is on the stacks -/

/-- No stack holds more than its capacity. Scope markers count as symbols. -/
structure Stacks.Fits (work : Stacks) (config : Config) : Prop where
  backtrack : work.backtrack.size ≤ config.maxStackLength
  calls : work.calls.size ≤ config.maxStackLength
  opens : work.log.depth ≤ config.maxStackLength
  symbols : work.symbols.size ≤ config.maxSymbols

theorem NodeLog.depth_truncate_le (log : NodeLog) (length : Nat) : (log.truncate length).depth ≤ log.depth := by
  rw [depth, depth, truncate, ← Array.length_toList, ← Array.length_toList, toList_popWhile]
  exact (List.rdropWhile_prefix ..).length_le

namespace Stacks.Fits

variable {work : Stacks} {config : Config}

theorem empty (config : Config) : Stacks.empty.Fits config :=
  ⟨Nat.zero_le _, Nat.zero_le _, Nat.zero_le _, Nat.zero_le _⟩

theorem popFrame (h : work.Fits config) : Stacks.Fits { work with backtrack := work.backtrack.pop } config := by
  refine { h with backtrack := ?_ }
  have := h.backtrack
  rw [Array.size_pop]
  omega

theorem pushFrame (h : work.Fits config) (room : work.backtrack.size < config.maxStackLength) (f : Frame) :
    Stacks.Fits { work with backtrack := work.backtrack.push f } config := by
  refine { h with backtrack := ?_ }
  rw [Array.size_push]
  omega

theorem restore (h : work.Fits config) (f : Frame) : (work.restore f).Fits config where
  backtrack := h.backtrack
  calls := by
    have := h.calls
    simp only [Stacks.restore, Array.size_shrink]
    omega
  opens := Nat.le_trans (work.log.depth_truncate_le f.logLength) h.opens
  symbols := by
    have := h.symbols
    simp only [Stacks.restore, Array.size_shrink]
    omega

theorem fold (h : work.Fits config) (place : Nat) (id : NodeId) :
    Stacks.Fits { work with log := (work.log.truncate place).push (.node id) } config :=
  { h with opens := Nat.le_trans (work.log.depth_truncate_le place) h.opens }

end Stacks.Fits

namespace Machine

variable {m : Machine} {config : Config}

theorem fits_closeNode (h : m.work.Fits config) : m.closeNode.work.Fits config := by
  rw [closeNode]
  split
  · exact h.fold ..
  · exact h

theorem fits_closeOpens (h : m.work.Fits config) (count : Nat) : (m.closeOpens count).1.work.Fits config := by
  induction count generalizing m with
  | zero => exact h
  | succ count ih =>
    rw [closeOpens]
    split
    · exact h
    · exact ih (fits_closeNode h)

/-- Making the result tree puts nothing on a stack. -/
theorem fits_finish (h : m.work.Fits config) (start : Nat) : (m.finish start).1.work.Fits config := by
  have closed := fits_closeOpens h m.work.log.depth
  rw [finish]
  split
  · next hclose =>
    rw [hclose] at closed
    exact closed
  · next x hclose =>
    rw [hclose] at closed
    rw [extract]
    split
    · exact closed
    · simp only
      split <;> exact closed

end Machine

namespace Setting

variable {s : Setting} {m m' : Machine} {i : Instruction}

/-- Every move keeps the stacks within their capacities. -/
theorem fits_of_move (h : s.Move m i m') (hm : m.work.Fits s.config) : m'.work.Fits s.config := by
  cases h with
  | consumed | jumped | switched | tagged | valued | marked => exact { hm with }
  | called target room =>
    refine { hm with calls := ?_ }
    show (m.work.calls.push (m.pc + 1)).size ≤ _
    rw [Array.size_push]
    omega
  | returned =>
    refine { hm with calls := ?_ }
    have := hm.calls
    show m.work.calls.pop.size ≤ _
    rw [Array.size_pop]
    omega
  | chose alternative room => exact hm.pushFrame room (m.frame alternative)
  | committed => exact hm.popFrame
  | refreshed target f top =>
    -- The frame that is popped makes the room for the one that is pushed.
    have room : m.work.backtrack.pop.size < s.config.maxStackLength := by
      obtain ⟨below, hbelow⟩ := Array.back?_eq_some_iff.1 top
      have := hm.backtrack
      rw [hbelow, Array.size_push] at this
      rw [hbelow, Array.pop_push]
      omega
    exact hm.popFrame.pushFrame room (m.frame f.alternative)
  | wentBack target f => exact hm.popFrame.restore f
  | failed i f => exact hm.popFrame.restore f
  | failedTwice f => exact hm.popFrame.popFrame.restore f
  | opened room =>
    refine { hm with opens := ?_ }
    show (m.work.log.opens.push m.work.log.entries.size).size ≤ _
    rw [Array.size_push]
    exact room
  | closed place => exact hm.fold ..
  | defined table mark top room =>
    refine ⟨?_, ?_, ?_, ?_⟩
    · exact m.useMark_backtrack ▸ hm.backtrack
    · exact m.useMark_calls ▸ hm.calls
    · exact m.useMark_log ▸ hm.opens
    · show (m.useMark.work.symbols.push _).size ≤ _
      rw [Array.size_push, m.useMark_symbols]
      omega
  | scopeBegun room =>
    refine { hm with symbols := ?_ }
    show (m.work.symbols.push .scope).size ≤ _
    rw [Array.size_push]
    omega
  | scopeEnded place =>
    refine { hm with symbols := ?_ }
    have := hm.symbols
    show (m.work.symbols.shrink place).size ≤ _
    rw [Array.size_shrink]
    omega

theorem fits_of_reaches (h : s.Reaches m m') (hm : m.work.Fits s.config) : m'.work.Fits s.config :=
  invariant_of_reaches (fun _ _ _ _ => fits_of_move) h hm

/-! ## More room -/

variable {config : Config}

/-- A test for room that succeeds with the smaller capacity succeeds with the larger. -/
theorem room_larger {size small large : Nat} (larger : small ≤ large) (done stop stop' : Effect) :
    (if size < large then done else stop') = (if size < small then done else stop) ∨
      (if size < small then done else stop) = stop := by
  by_cases room : size < small
  · have room' : size < large := Nat.lt_of_lt_of_le room larger
    rw [if_pos room, if_pos room']
    exact .inl rfl
  · rw [if_neg room]
    exact .inr rfl

/-- With larger capacities an instruction does the same, unless a stack is too full for it with the smaller. -/
theorem perform_larger (larger : s.config ≤ config) (i : Instruction) (m : Machine) :
    { s with config }.perform i m = s.perform i m ∨
      ∃ error, s.perform i m = .stop error m ∧ error.overflows = true := by
  cases i with
  | call | choice | nodeOpen =>
    exact (room_larger larger.1 _ _ _).imp_right fun full => ⟨_, full, rfl⟩
  | scopeBegin =>
    exact (room_larger larger.2 _ _ _).imp_right fun full => ⟨_, full, rfl⟩
  | define table =>
    simp only [perform]
    cases m.work.marks.back? with
    | none => exact .inl rfl
    | some mark => exact (room_larger larger.2 _ _ _).imp_right fun full => ⟨_, full, rfl⟩
  | _ => exact .inl rfl

theorem step_larger (larger : s.config ≤ config) (m : Machine) :
    { s with config }.step m = s.step m ∨ ∃ error, s.step m = .stopped error m ∧ error.overflows = true := by
  cases code : s.program.at? m.pc with
  | none =>
    left
    simp only [step, code]
  | some i =>
    have code' : { s with config }.program.at? m.pc = some i := code
    rw [step_of_code code, step_of_code code']
    rcases perform_larger larger i m with same | ⟨error, full, overflows⟩
    · exact .inl (congrArg Effect.settle same)
    · exact .inr ⟨error, congrArg Effect.settle full, overflows⟩

/-- With larger capacities a run ends the same way, unless it overflows with the smaller. -/
theorem execute_larger (larger : s.config ≤ config) {fuel : Nat} {halt : Halt}
    (h : s.execute fuel m = some halt) :
    { s with config }.execute fuel m = some halt ∨
      ∃ error, halt.result = .error error ∧ error.overflows = true := by
  induction fuel generalizing m with
  | zero => cases h
  | succ fuel ih =>
    rw [execute] at h ⊢
    rcases step_larger larger m with same | ⟨error, full, overflows⟩
    · rw [same]
      cases hstep : s.step m with
      | running m' =>
        rw [hstep] at h
        exact ih h
      | halted | stopped =>
        rw [hstep] at h
        exact .inl h
    · rw [full] at h
      cases h
      exact .inr ⟨error, rfl, overflows⟩

end Setting

/-! ## Contexts -/

namespace Context

variable {c c' : Context} {program : Program} {fuel : Nat} {outcome : Outcome} {config : Config}

/-- The end of a run means the same whatever the capacities are. -/
theorem conclude_with_config (c : Context) (config : Config) (halt : Halt) :
    { c with config }.conclude halt = ((c.conclude halt).1, { (c.conclude halt).2 with config }) := by
  obtain ⟨last, result⟩ := halt
  have start : { c with config }.startPos = c.startPos := rfl
  rw [conclude, conclude]
  cases result with
  | error error => rfl
  | ok matched =>
    cases matched with
    | false => rfl
    | true =>
      simp only [start]
      obtain ⟨m, made⟩ := last.finish c.startPos
      cases made <;> rfl

/-- A run leaves no more on the stacks than fits there. -/
theorem fits_of_run (loaded : c.startPoint ≠ 0) (h : c.run program fuel = some (outcome, c')) :
    c'.work.Fits c.config := by
  obtain ⟨⟨last, result⟩, hexec, hresult⟩ := (run_eq_some loaded).1 h
  rw [conclude] at hresult
  cases result with
  | error error =>
    cases hresult
    exact .empty c.config
  | ok matched =>
    cases matched with
    | false =>
      cases hresult
      exact .empty c.config
    | true =>
      -- The stacks stay as they are only if the tree cannot be made.
      obtain ⟨m, reached, hlast⟩ := Setting.reaches_of_execute hexec
      obtain rfl : last = m.noteCursor := Setting.step_accepted hlast
      have hm : m.noteCursor.work.Fits c.config := Setting.fits_of_reaches reached (.empty c.config)
      have hleft := Machine.fits_finish hm c.startPos
      simp only at hresult
      split at hresult
      · cases hresult
        exact .empty c.config
      · next hfinish =>
        cases hresult
        rw [hfinish] at hleft
        exact hleft

/-- **Raising a capacity changes no result.** If a run does not overflow a stack, the run of the same program over
    a context that differs only in larger capacities has the same outcome and leaves the same context, but for the
    capacities: the same result tree, cursor and pool. And in every state of either run the backtrack, call and
    open-node stacks and the symbol table hold no more than the capacities of its context allow, and so do those that
    the run leaves, however it ends. -/
theorem larger_capacities (larger : c.config ≤ config) (program : Program) :
    (∀ fuel outcome c', c.run program fuel = some (outcome, c') →
      (∀ stack capacity, outcome ≠ .stopped (.stackOverflow stack capacity)) →
      { c with config }.run program fuel = some (outcome, { c' with config })) ∧
    (∀ m, (c.setting program).Reaches c.machine m → m.work.Fits c.config) ∧
    (∀ m, ({ c with config }.setting program).Reaches { c with config }.machine m → m.work.Fits config) ∧
    ∀ fuel outcome c', c.startPoint ≠ 0 → c.run program fuel = some (outcome, c') → c'.work.Fits c.config := by
  refine ⟨fun fuel outcome c' hrun noOverflow => ?_, fun m reached => ?_, fun m reached => ?_,
    fun fuel outcome c' loaded run => fits_of_run loaded run⟩
  · rcases run_cases hrun with ⟨nowhere, hresult⟩ | ⟨loaded, halt, hexec, hresult⟩
    · cases hresult
      exact if_pos nowhere
    · refine (run_eq_some (c := { c with config }) loaded).2 ⟨halt, ?_, ?_⟩
      · rcases Setting.execute_larger larger hexec with same | ⟨error, stopped, overflows⟩
        · exact same
        · -- A run that overflows says so in its outcome.
          exfalso
          rw [conclude, stopped] at hresult
          cases hresult
          cases error with
          | stackOverflow stack capacity => exact noOverflow stack capacity rfl
          | _ => cases overflows
      · rw [conclude_with_config, hresult]
  · exact Setting.fits_of_reaches reached (.empty c.config)
  · exact Setting.fits_of_reaches (s := { c with config }.setting program) reached (.empty config)

/-- Calls a routine that puts something on each of the stacks and fills the symbol table. -/
def crowding : Program :=
  .ofList [.exit, .call 3, .exit, .choice 11, .nodeOpen, .scopeBegin, .mark, .any, .define "T", .nodeClose, .commit 11,
    .ret]

/-- A context with no more room than that takes. -/
def crowdedContext : Context := { new ⟨1, 2⟩ with input := #[97], startPoint := 1 }

theorem larger_capacities_crowded : crowdedContext.config ≤ ⟨1024, 256⟩ ∧
    (∃ c', crowdedContext.run crowding 11 = some (.matched ⟨0, 1, none, none, []⟩, c') ∧
      { crowdedContext with config := ⟨1024, 256⟩ }.run crowding 11 =
        some (.matched ⟨0, 1, none, none, []⟩, { c' with config := ⟨1024, 256⟩ })) ∧
    ∃ m, (crowdedContext.setting crowding).Reaches crowdedContext.machine m ∧ m.work.symbols.size = 2 ∧
      m.work.Fits ⟨1, 2⟩ := by
  have larger : crowdedContext.config ≤ ⟨1024, 256⟩ := by decide
  obtain ⟨same, fits, -⟩ := larger_capacities larger crowding
  have run : (crowdedContext.run crowding 11).map Prod.fst = some (.matched ⟨0, 1, none, none, []⟩) := by
    decide +kernel
  obtain ⟨⟨outcome, c'⟩, run, rfl⟩ := Option.map_eq_some_iff.1 run
  let m := (crowdedContext.setting crowding).states crowdedContext.machine 7
  have reached : (crowdedContext.setting crowding).Reaches crowdedContext.machine m := Setting.reaches_states _ _ 7
  refine ⟨larger, ⟨c', run, same 11 _ c' run fun _ _ => Outcome.noConfusion⟩, m, reached, ?_, fits m reached⟩
  decide +kernel

end Context

end PegMachine
