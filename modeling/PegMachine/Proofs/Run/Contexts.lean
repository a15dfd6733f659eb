import PegMachine.Bytecode.Load
import PegMachine.Profile
import PegMachine.Proofs.Pool.Stored
import PegMachine.Proofs.Run.Ends
/-!
  Runs of contexts, and the contexts that come about.

  What is proved:
    1. `run_cases`: what the run of a context gives is what its machine's run concludes; and a run ends in at
       most one way (`run_unique`). Only a halt with a match gives a tree, and only one without gives a failure
       (`halt_of_matched`, `halt_of_failed`). `concluded_of_run` and `accepted_of_run` are what a match takes;
    2. `context_of_run`: a run changes nothing of its context but cursor, stacks, root and pool;
    3. `runProfiled_snd`: a run that is counted into a profile is the same run.
  `Used` lists what can be done with a context between two loads, `Reachable` the contexts that can come about
  at all. An invariant of contexts is one case analysis over them.
-/
namespace PegMachine

/-! ## The tree at the end -/

namespace Machine

theorem closeNode_pos (m : Machine) : m.closeNode.pos = m.pos := by
  rw [closeNode]
  split <;> rfl

theorem closeOpens_pos (count : Nat) (m : Machine) : (m.closeOpens count).1.pos = m.pos := by
  induction count generalizing m with
  | zero => rfl
  | succ count ih =>
    rw [closeOpens]
    split
    · rfl
    · rw [ih, closeNode_pos]

/-- The result tree is made at the cursor and does not move it. -/
theorem finish_pos (m : Machine) (start : Nat) : (m.finish start).1.pos = m.pos := by
  rw [← closeOpens_pos m.work.log.depth m, finish]
  split
  · next hclose => rw [hclose]
  · next m₁ hclose =>
    rw [hclose, extract]
    split
    · rfl
    · simp only
      split <;> rfl

/-- The tree of a stored root is copied out of the pool. -/
theorem extract_of_root? {m : Machine} {start : Nat} {id : NodeId} {pool : Pool} {t : Tree}
    (h : m.root? start = some (id, pool)) (stored : pool.Stores id t) :
    m.extract start = ({ m with pool }, .ok t) := by
  simp only [extract, h, stored.finalize]

end Machine

namespace Context

variable {c c' : Context} {program : Program} {fuel : Nat} {outcome : Outcome}

/-- What is concluded from the end of a run takes over the cursor, and changes nothing but stacks, root and
    pool besides. -/
theorem conclude_context (c : Context) (halt : Halt) :
    ∃ work root pool, (c.conclude halt).2 = { c with pos := halt.machine.pos, work, root, pool } := by
  rw [conclude]
  split
  · exact ⟨_, _, _, rfl⟩
  · exact ⟨_, _, _, rfl⟩
  · have hpos := halt.machine.finish_pos c.startPos
    split
    · next m tree hfinish =>
      rw [hfinish] at hpos
      exact ⟨_, _, _, by rw [← hpos]; rfl⟩
    · next m error hfinish =>
      rw [hfinish] at hpos
      exact ⟨_, _, _, by rw [← hpos]; rfl⟩

theorem conclude_pos (c : Context) (halt : Halt) : (c.conclude halt).2.pos = halt.machine.pos := by
  obtain ⟨work, root, pool, hc⟩ := conclude_context c halt
  rw [hc]

/-- Only a run that accepts gives a tree. -/
theorem halt_of_matched {halt : Halt} {tree : Tree} (h : c.conclude halt = (.matched tree, c')) :
    halt.result = .ok true := by
  rw [conclude] at h
  split at h
  · cases h
  · cases h
  · next hresult => exact hresult

/-- A failure reports the cursor and the furthest cursor of a run that halted without a match. -/
theorem halt_of_failed {halt : Halt} {failure : ParseFailure} (h : c.conclude halt = (.failed failure, c')) :
    ∃ left, halt = ⟨left, .ok false⟩ ∧ failure = ⟨left.pos, left.furthest⟩ := by
  obtain ⟨left, result⟩ := halt
  rw [conclude] at h
  split at h
  · cases h
  · next hresult =>
    cases h
    exact ⟨left, congrArg (Halt.mk left) hresult, rfl⟩
  · split at h <;> cases h

/-! ## Runs of a context -/

variable {result : Outcome × Context}

theorem run_eq_some (loaded : c.startPoint ≠ 0) :
    c.run program fuel = some result ↔
      ∃ halt, (c.setting program).execute fuel c.machine = some halt ∧ c.conclude halt = result := by
  rw [run, if_neg loaded, Option.map_eq_some_iff]

/-- A run ends in at most one way, however many steps it is given. -/
theorem run_unique (loaded : c.startPoint ≠ 0) {fuel' : Nat} {result' : Outcome × Context}
    (h : c.run program fuel = some result) (h' : c.run program fuel' = some result') : result = result' := by
  obtain ⟨halt, hexec, rfl⟩ := (run_eq_some loaded).1 h
  obtain ⟨halt', hexec', rfl⟩ := (run_eq_some loaded).1 h'
  have hmax := Setting.execute_of_le hexec (Nat.le_max_left fuel fuel')
  have hmax' := Setting.execute_of_le hexec' (Nat.le_max_right fuel fuel')
  rw [Option.some.inj (hmax.symm.trans hmax')]

/-- A run has nowhere to start, or it is the run of a machine. -/
theorem run_cases (h : c.run program fuel = some result) :
    c.startPoint = 0 ∧ result = (.stopped .noStartPoint, c) ∨
      c.startPoint ≠ 0 ∧ ∃ halt, (c.setting program).execute fuel c.machine = some halt ∧
        c.conclude halt = result := by
  by_cases loaded : c.startPoint = 0
  · rw [run, if_pos loaded] at h
    exact .inl ⟨loaded, (Option.some.inj h).symm⟩
  · exact .inr ⟨loaded, (run_eq_some loaded).1 h⟩

/-- A run that matches has accepted, and what it gives is concluded from that. -/
theorem concluded_of_run {tree : Tree} (h : c.run program fuel = some (.matched tree, c')) :
    ∃ n last, (c.setting program).Trace ((c.setting program).states c.machine) n ∧
      (c.setting program).step ((c.setting program).states c.machine n) = .halted true last ∧
      c.conclude ⟨last, .ok true⟩ = (.matched tree, c') := by
  rcases run_cases h with ⟨-, hresult⟩ | ⟨-, ⟨last, result⟩, hexec, hresult⟩
  · cases hresult
  obtain rfl : result = .ok true := halt_of_matched hresult
  obtain ⟨n, trace, hlast⟩ := Setting.trace_of_execute hexec
  exact ⟨n, last, trace, hlast, hresult⟩

/-- The nodes that were open could be closed then, and the root could be copied out. -/
theorem accepted_of_run {tree : Tree} (h : c.run program fuel = some (.matched tree, c')) :
    ∃ n last closed x, (c.setting program).Trace ((c.setting program).states c.machine) n ∧
      (c.setting program).step ((c.setting program).states c.machine n) = .halted true last ∧
      last.closeOpens last.work.log.depth = (closed, none) ∧ closed.extract c.startPos = (x, .ok tree) ∧
      c'.pos = last.pos ∧ c'.pool = x.pool := by
  obtain ⟨n, last, trace, hlast, hresult⟩ := concluded_of_run h
  have hpos := conclude_pos c ⟨last, .ok true⟩
  rw [hresult] at hpos
  rw [conclude, Machine.finish] at hresult
  cases hclose : last.closeOpens last.work.log.depth with
  | mk closed fault =>
    cases fault with
    | some error =>
      simp only [hclose] at hresult
      cases hresult
    | none =>
      cases hextract : closed.extract c.startPos with
      | mk x made =>
        cases made with
        | error error =>
          simp only [hclose, hextract] at hresult
          cases hresult
        | ok made =>
          simp only [hclose, hextract] at hresult
          cases hresult
          exact ⟨n, last, closed, x, trace, hlast, hclose, hextract, hpos, rfl⟩

/-- A run changes nothing of its context but cursor, stacks, root and pool. -/
theorem context_of_run (h : c.run program fuel = some (outcome, c')) :
    ∃ pos work root pool, c' = { c with pos, work, root, pool } := by
  rcases run_cases h with ⟨-, hresult⟩ | ⟨-, halt, -, hresult⟩
  · cases hresult
    exact ⟨_, _, _, _, rfl⟩
  · obtain ⟨work, root, pool, hc⟩ := conclude_context c halt
    rw [hresult] at hc
    exact ⟨_, _, _, _, hc⟩

theorem runWatched_snd {σ : Type} (watch : σ → Moment → σ) (seen : σ) :
    (c.runWatched program watch seen fuel).map Prod.snd = c.run program fuel := by
  rw [runWatched, run]
  split
  · rfl
  · rw [← Setting.executeWatched_snd watch fuel seen, Option.map_map, Option.map_map]
    rfl

/-- A run that is counted into a profile is the same run. -/
theorem runProfiled_snd (profile : Profile) :
    (c.runProfiled program profile fuel).map Prod.snd = c.run program fuel := by
  rw [← runWatched_snd Profile.watch profile, runProfiled, Option.map_map]
  rfl

theorem run_of_runProfiled {profile profile' : Profile}
    (h : c.runProfiled program profile fuel = some (profile', result)) : c.run program fuel = some result := by
  rw [← runProfiled_snd profile, h]
  rfl

/-! ## What can be done with a context -/

/-- What can become of a context between two loads, by one thing that is done with it. A copy of a context is
    the context, so copying needs no rule. -/
inductive Used (c : Context) : Context → Prop where
  | setInput (input : Input) : Used c (c.setInput input)
  | setPos (pos : Nat) : Used c (c.setPos pos)
  | rewind : Used c c.rewind
  | takeRoot : Used c c.takeRoot
  | run {program : Program} {fuel : Nat} {outcome : Outcome} {c' : Context}
    (run : c.run program fuel = some (outcome, c')) : Used c c'
  | runProfiled {program : Program} {profile profile' : Profile} {fuel : Nat} {outcome : Outcome} {c' : Context}
    (run : c.runProfiled program profile fuel = some (profile', outcome, c')) : Used c c'

/-- What is done with a context between two loads does not change where its runs start, the count and the hint
    of its program, or its capacities. -/
theorem Used.eq (h : c.Used c') : ∃ input pos work root pool, c' = { c with input, pos, work, root, pool } := by
  have ran {program : Program} {fuel : Nat} {outcome : Outcome} (run : c.run program fuel = some (outcome, c')) :
      ∃ input pos work root pool, c' = { c with input, pos, work, root, pool } := by
    obtain ⟨pos, work, root, pool, rfl⟩ := context_of_run run
    exact ⟨_, _, _, _, _, rfl⟩
  cases h with
  | setInput | setPos | rewind | takeRoot => exact ⟨_, _, _, _, _, rfl⟩
  | run run => exact ran run
  | runProfiled run => exact ran (run_of_runProfiled run)

/-- The contexts that can come about. -/
inductive Reachable : Context → Prop where
  | new (config : Config) : Reachable (.new config)
  | loaded {options : LoadOptions} {bytes : Bytes} {rule? : Option String} {l : Loaded}
    (load : load options bytes rule? = .ok l) : Reachable (.ofLoaded options l)
  | loadedInto {c : Context} (h : Reachable c) (options : LoadOptions) (bytes : Bytes) (rule? : Option String) :
    Reachable (c.loadInto options bytes rule?).2
  | used {c c' : Context} (h : Reachable c) (use : c.Used c') : Reachable c'

end Context

end PegMachine
