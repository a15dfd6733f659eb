import PegMachine.CommandLine
import PegMachine.Proofs.Run.Contexts
/-!
  What the command line does with a run.

  The command line reads its files, runs until the run is over, and says what came of it. Nothing is assumed here of
  how arguments are read, nor of how the journal, complaints and reports are written. What is proved:
    1. `perform?_unique`, `perform_of_steps`: what the command line does is what it does with any number of steps that
       suffices;
    2. `runReported_of_run`: a run that is watched and reported is the same run;
    3. `perform_of_run`: so what is printed is printed of the run as it is;
    4. `execute_shows`: the files play no part in that once they are read.
-/
namespace PegMachine

variable {σ : Type} {outcome : Outcome} {c c' : Context} {program : Program} {fuel fuel' : Nat}

/-! ## The number of steps -/

/-- More steps change neither how a run ends nor what is seen of it. -/
theorem Setting.executeWatched_of_le {s : Setting} {watch : σ → Moment → σ} {seen : σ} {m : Machine}
    {result : σ × Halt} (h : s.executeWatched watch fuel seen m = some result) (hle : fuel ≤ fuel') :
    s.executeWatched watch fuel' seen m = some result := by
  induction fuel generalizing fuel' seen m with
  | zero => cases h
  | succ fuel ih =>
    obtain ⟨k, rfl⟩ : ∃ k, fuel' = k + 1 := ⟨fuel' - 1, by omega⟩
    rw [executeWatched] at h ⊢
    cases code : s.program.at? m.pc with
    | none =>
      rw [code] at h
      exact h
    | some i =>
      simp only [code] at h ⊢
      cases settled : (s.dispatch i m).settle with
      | running m' =>
        rw [settled] at h
        exact ih h (by omega)
      | halted | stopped =>
        rw [settled] at h
        exact h

theorem Context.runReported_of_le {limit : Level} {watch : σ → Moment → σ} {seen : σ} {r : Reported σ}
    (h : c.runReported program limit watch seen fuel = some r) (hle : fuel ≤ fuel') :
    c.runReported program limit watch seen fuel' = some r := by
  rw [runReported] at h ⊢
  split
  · next nowhere => rwa [if_pos nowhere] at h
  · next loaded =>
    rw [if_neg loaded] at h
    obtain ⟨result, hwatched, hr⟩ := Option.map_eq_some_iff.1 h
    exact Option.map_eq_some_iff.2 ⟨result, Setting.executeWatched_of_le hwatched hle, hr⟩

namespace CommandLine.Invocation

variable {i : Invocation} {libraries : Libraries} {steps steps' : Nat} {bytecode input : Bytes}
  {performed : Performance}

theorem perform?_of_le (h : i.perform? libraries steps bytecode input = some performed) (hle : steps ≤ steps') :
    i.perform? libraries steps' bytecode input = some performed := by
  rw [perform?] at h ⊢
  cases loads : load i.loadOptions bytecode i.start? with
  | error error =>
    rw [loads] at h
    exact h
  | ok loaded =>
    simp only [loads, Option.map_eq_some_iff] at h ⊢
    obtain ⟨r, hreported, hr⟩ := h
    exact ⟨r, Context.runReported_of_le hreported hle, hr⟩

/-- Two numbers of steps that both suffice give the same. -/
theorem perform?_unique {performed' : Performance} (h : i.perform? libraries steps bytecode input = some performed)
    (h' : i.perform? libraries steps' bytecode input = some performed') : performed = performed' := by
  have hmax := perform?_of_le h (Nat.le_max_left steps steps')
  have hmax' := perform?_of_le h' (Nat.le_max_right steps steps')
  exact Option.some.inj (hmax.symm.trans hmax')

/-- Trying with more and more steps finds what a number of steps gives, wherever it begins. -/
theorem repeat_attempt (h : i.perform? libraries steps bytecode input = some performed) (first : Nat) :
    repeatM (i.attempt libraries bytecode input) first = performed := by
  -- By induction on the steps that are missing at first.
  induction missing : steps - first using Nat.strongRecOn generalizing first with
  | ind missing ih =>
    subst missing
    rw [repeatM_eq_of_monadTail, repeatM.body]
    cases tried : i.perform? libraries first bytecode input with
    | some performed' =>
      have ended : i.attempt libraries bytecode input first = .inr performed' := by rw [attempt, tried]
      rw [ended, perform?_unique h tried]
      rfl
    | none =>
      have again : i.attempt libraries bytecode input first = .inl (2 * first + 1) := by rw [attempt, tried]
      have short : first < steps := by
        by_contra enough
        rw [perform?_of_le h (Nat.le_of_not_lt enough)] at tried
        cases tried
      rw [again]
      exact ih _ (by omega) (2 * first + 1) rfl

/-- What the command line does is what it does with any number of steps that suffices. -/
theorem perform_of_steps (h : i.perform? libraries steps bytecode input = some performed) :
    i.perform libraries bytecode input = performed :=
  repeat_attempt h Context.patience

end CommandLine.Invocation

/-! ## The run -/

/-- A run that is watched and reported gives what the run gives. -/
theorem Context.runReported_of_run (run : c.run program fuel = some (outcome, c')) (limit : Level)
    (watch : σ → Moment → σ) (seen : σ) :
    ∃ r, c.runReported program limit watch seen fuel = some r ∧ r.outcome = outcome ∧ r.context = c' := by
  rw [runReported]
  rcases run_cases run with ⟨unloaded, hresult⟩ | ⟨loaded, halt, hexec, hresult⟩
  · cases hresult
    exact ⟨_, if_pos unloaded, rfl, rfl⟩
  · rw [← Setting.executeWatched_snd (noting limit watch) fuel (seen, #[]) c.machine] at hexec
    obtain ⟨⟨seen', halt'⟩, hwatched, rfl⟩ := Option.map_eq_some_iff.1 hexec
    rw [if_neg loaded, hwatched]
    exact ⟨_, rfl, congrArg Prod.fst hresult, congrArg Prod.snd hresult⟩

namespace CommandLine

variable {i : Invocation} {libraries : Libraries} {files : Files Id} {steps : Nat} {bytecode input : Bytes}
  {loaded : Loaded}

/-- What is printed is printed of the run of what was loaded, however many steps that takes. -/
theorem Invocation.perform_of_run (libraries : Libraries) (loads : load i.loadOptions bytecode i.start? = .ok loaded)
    (run : (i.context loaded input).run loaded.program steps = some (outcome, c')) :
    ∃ r, r.outcome = outcome ∧ r.context = c' ∧
      let journal := i.shown libraries (loadEvents i.loadOptions bytecode i.start? ++ r.events)
      (i.perform libraries bytecode input).printout = i.printRun libraries input journal r := by
  obtain ⟨r, hreported, houtcome, hcontext⟩ := Context.runReported_of_run run i.verbosity Profile.watch .empty
  have performed := perform?.eq_1 i libraries steps bytecode input
  simp only [loads, hreported, Option.map_some] at performed
  refine ⟨r, houtcome, hcontext, ?_⟩
  rw [perform_of_steps performed]
  split <;> rfl

/-- The output and the report are those of the run once the files are read, whether or not the pairs of the profile
    can be written. -/
theorem execute_shows (libraries : Libraries) (readProgram : files.read i.program = .ok bytecode)
    (readInput : files.read i.input = .ok input) :
    (i.execute libraries files).output = (i.perform libraries bytecode input).printout.output ∧
      (i.execute libraries files).report = (i.perform libraries bytecode input).printout.report := by
  rw [Invocation.execute]
  simp only [readProgram, readInput, bind]
  split
  · split <;> exact ⟨rfl, rfl⟩
  · exact ⟨rfl, rfl⟩

/-- Arguments that ask for a run have it carried out. -/
theorem runWith_of_arguments {arguments : List String}
    (parsed : Invocation.ofArguments? libraries.options arguments = .ok (some i)) :
    runWith libraries files arguments = i.execute libraries files := by
  rw [runWith, parsed]

end CommandLine

end PegMachine
