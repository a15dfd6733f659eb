import Mathlib.Algebra.Group.Nat.Defs
import PegMachine.Proofs.Bytecode.RoundTrip
import PegMachine.Proofs.Trees.Result
/-!
  What a run leaves on its stacks.

  A run has several ends, and clears the stacks at all of them but one. If it has accepted, and the pool has no
  room for a node that its tree needs, the stacks stay as they were when the room ran out. What is proved:
    1. `cleared_of_run`: every other end leaves empty stacks, and only a match leaves a root;
    2. `Doubling.level_reaches`: a routine that calls the one below it twice, 32 levels deep, pools 2 ^ 32 nodes;
    3. `Doubling.leaves_node`: so bytecode of 106 instructions, loaded into a new context, comes to the end that
       leaves something. The next run clears it before it starts.
-/
namespace PegMachine

namespace Context

/-- **Runs clear their stacks.** However a run ends, with or without a profile, the context holds a root if and
    only if the run matched, and then the tree of the match. Its stacks are empty. The only other end is that of a
    run that has accepted and whose tree cannot be made since the pool is full: the stacks are left as they were
    when the room ran out. -/
theorem cleared_of_run {c c' : Context} {program : Program} {fuel : Nat} {outcome : Outcome}
    (loaded : c.startPoint ≠ 0)
    (run : c.run program fuel = some (outcome, c') ∨ ∃ profile profile',
      c.runProfiled program profile fuel = some (profile', outcome, c')) :
    (∀ tree, c'.root = some tree ↔ outcome = .matched tree) ∧
    (c'.work = .empty ∨
      ∃ m last left, (c.setting program).Reaches c.machine m ∧ (c.setting program).step m = .halted true last ∧
        last.finish c.startPos = (left, .error (.poolExhausted left.pool.size)) ∧ Pool.capacity ≤ left.pool.size ∧
        outcome = .stopped (.poolExhausted left.pool.size) ∧ c'.pool = left.pool ∧ c'.work = left.work) := by
  have hrun : c.run program fuel = some (outcome, c') := by
    rcases run with run | ⟨profile, profile', run⟩
    · exact run
    · exact run_of_runProfiled run
  obtain ⟨⟨last, result⟩, hexec, hresult⟩ := (run_eq_some loaded).1 hrun
  obtain ⟨n, trace, hlast⟩ := Setting.trace_of_execute hexec
  have noRoot {other : Outcome} (unmatched : ∀ tree, other ≠ .matched tree) (tree : Tree) :
      none = some tree ↔ other = .matched tree :=
    iff_of_false (Option.some_ne_none tree).symm (unmatched tree)
  rw [conclude] at hresult
  cases result with
  | error error =>
    cases hresult
    exact ⟨noRoot fun _ => Outcome.noConfusion, .inl rfl⟩
  | ok matched =>
    cases matched with
    | false =>
      cases hresult
      exact ⟨noRoot fun _ => Outcome.noConfusion, .inl rfl⟩
    | true =>
      have tracks := Setting.tracks_of_states (s := c.setting program) c.startPoint c.startPos c.pool n
      rcases Machine.finish_of_tracks (Setting.tracks_of_accepted hlast tracks) c.startPos with
        ⟨left, hleft, hfull, -⟩ | ⟨x, hx, -⟩
      · simp only [hleft] at hresult
        cases hresult
        have reached := trace.reaches n (Nat.le_refl n)
        exact ⟨noRoot fun _ => Outcome.noConfusion,
          .inr ⟨_, last, left, reached, hlast, hleft, hfull, rfl, rfl, rfl⟩⟩
      · simp only [hx] at hresult
        cases hresult
        exact ⟨fun tree => by rw [Option.some.injEq, Outcome.matched.injEq], .inl rfl⟩

/-- Puts something on each of the stacks and leaves the program. -/
def runningOut : Program := .ofList [.exit, .nodeOpen, .choice 1, .call 4, .mark, .scopeBegin]

/-- A context with the result of another run, which was stopped at a full pool before. -/
def untidyContext : Context :=
  { new {} with startPoint := 1, root := some ⟨0, 0, none, none, []⟩, work.calls := #[3] }

theorem cleared_of_run_untidy :
    ∃ c', untidyContext.run runningOut 6 = some (.stopped (.pcOutOfBounds 6 6), c') ∧ c'.work = .empty ∧
      c'.root = none := by
  obtain ⟨c', hrun⟩ : ∃ c', untidyContext.run runningOut 6 = some (.stopped (.pcOutOfBounds 6 6), c') := ⟨_, rfl⟩
  obtain ⟨root, clear | ⟨m, last, left, -, -, -, -, hstop, -⟩⟩ := cleared_of_run (by decide) (.inl hrun)
  · refine ⟨c', hrun, clear, Option.eq_none_iff_forall_ne_some.2 fun tree htree => ?_⟩
    cases (root tree).1 htree
  · cases hstop

end Context

/-! ## A run that fills the pool -/

/-- Opens a node over 32 levels of routines and accepts with the node open. Every level calls the one below it
    twice. At the bottom a node is pooled and taken back, with the cursor that had gone to the end of the input. -/
def doubling : Assembly :=
  (Assembly.new "g.peg").extend <|
    [.call 4, .nodeOpen, .exit] ++
    (List.range 32).flatMap (fun level => [.call (7 + 3 * level), .call (7 + 3 * level), .ret]) ++
    [.choice 105, .zeroMoreCharSet (.ofBytes [97]), .nodeOpen, .nodeClose, .fail, .ret]

namespace Doubling

def setting (input : Input) : Setting := ⟨⟨doubling.code⟩, input, {}⟩

/-- A machine at the beginning of the input with nothing but calls on its stacks. -/
def calling (pc furthest : Nat) (calls : Array Nat) (pool : Pool) : Machine :=
  ⟨pc, 0, furthest, { Stacks.empty with calls }, pool⟩

variable {input : Input} {pc furthest back level : Nat} {calls : Array Nat} {pool : Pool}

/-- Where the routine starts that has as many levels below it. -/
def entry (level : Nat) : Nat := 100 - 3 * level

theorem code_level : ∀ level < 32,
    doubling.code[entry (level + 1)]? = some (.call (entry level)) ∧
    doubling.code[entry (level + 1) + 1]? = some (.call (entry level)) ∧
    doubling.code[entry (level + 1) + 2]? = some .ret := by
  decide +kernel

theorem code_leaf :
    doubling.code[100]? = some (.choice 105) ∧ doubling.code[101]? = some (.zeroMoreCharSet (.ofBytes [97])) ∧
    doubling.code[102]? = some .nodeOpen ∧ doubling.code[103]? = some .nodeClose ∧
    doubling.code[104]? = some .fail ∧ doubling.code[105]? = some .ret := by
  decide +kernel

theorem reaches_call {target : Nat} (code : doubling.code[pc]? = some (.call target)) (room : calls.size < 1024) :
    (setting input).Reaches (calling pc furthest calls pool)
      (calling target (max furthest 0) (calls.push (pc + 1)) pool) :=
  .single (Setting.step_call code room)

theorem reaches_ret (code : doubling.code[pc]? = some .ret) :
    (setting input).Reaches (calling pc furthest (calls.push back) pool)
      (calling back (max furthest 0) calls pool) := by
  have hstep : (setting input).step (calling pc furthest (calls.push back) pool) = _ := Setting.step_of_code code
  refine .single (hstep.trans ?_)
  simp [Setting.perform, calling, Effect.settle, Machine.popCall, Machine.noteCursor]

/-- The routine at the bottom pools one node. -/
theorem leaf_reaches (room : pool.size < Pool.capacity) :
    ∃ furthest' pool', pool'.size = pool.size + 1 ∧
      (setting input).Reaches (calling (entry 0) furthest (calls.push back) pool)
        (calling back furthest' calls pool') := by
  let s := setting input
  let m₀ := calling 100 furthest (calls.push back) pool
  let m₁ := m₀.attempt 105
  let m₂ := (m₁.advance (s.runLength m₁ (.ofBytes [97]))).moveOn 102
  let m₃ := m₂.openNode.moveOn 103
  let m₄ := (m₃.foldFrom 0 m₂.pos).moveOn 104
  obtain ⟨code₀, code₁, code₂, code₃, code₄, code₅⟩ := code_leaf
  have step₀ : s.step m₀ = .running m₁ := Setting.step_choice code₀ (by decide : 0 < 1024)
  have step₁ : s.step m₁ = .running m₂ := Setting.step_of_code (show s.program.at? m₁.pc = _ from code₁)
  have step₂ : s.step m₂ = .running m₃ := Setting.step_of_code (show s.program.at? m₂.pc = _ from code₂)
  have step₃ : s.step m₃ = .running m₄ := by
    have notFull : m₃.pool.isFull = false := decide_eq_false (Nat.not_le_of_lt room)
    have fault : m₃.closeFault? = none := by
      show (if m₃.pool.isFull then _ else _) = _
      rw [notFull, if_neg Bool.false_ne_true]
    rw [Setting.step_of_code (show s.program.at? m₃.pc = _ from code₃), Setting.perform, fault]
    rfl
  have step₄ : s.step m₄ = .running (calling 105 (max m₄.furthest m₄.pos) (calls.push back) m₄.pool) := by
    let base : Stacks := { Stacks.empty with calls := calls.push back }
    have inside : base.log.Inside := NodeLog.Exact.empty.inside
    have begins : base.Begins m₄.popFrame.work :=
      { log := (((NodeLog.Begins.refl _).openNode _).truncate inside (Nat.le_refl 0)).push _
        calls := .refl _, symbols := .refl _, marks := .refl _ }
    have restored : m₄.popFrame.work.restore (base.frame 105 0) = base := Stacks.restore_frame begins inside 105 0
    rw [Setting.step_of_code (show s.program.at? m₄.pc = _ from code₄)]
    exact congrArg (Transition.running ⟨105, 0, max m₄.furthest m₄.pos, ·, m₄.pool⟩) restored
  exact ⟨_, m₄.pool, Pool.size_push .., .head step₀ <| .head step₁ <| .head step₂ <| .head step₃ <|
    .head step₄ <| reaches_ret code₅⟩

/-- A routine with that many levels below it pools a node for each way down through them. -/
theorem level_reaches (inside : level ≤ 32) (depth : calls.size + level < 1024)
    (room : pool.size + 2 ^ level ≤ Pool.capacity) :
    ∃ furthest' pool', pool'.size = pool.size + 2 ^ level ∧
      (setting input).Reaches (calling (entry level) furthest (calls.push back) pool)
        (calling back furthest' calls pool') := by
  induction level generalizing furthest back calls pool with
  | zero => exact leaf_reaches room
  | succ level ih =>
    obtain ⟨first, second, last⟩ := code_level level (by omega)
    rw [Nat.pow_succ] at room ⊢
    have hsize : (calls.push back).size = calls.size + 1 := Array.size_push ..
    have depth' : (calls.push back).size + level < 1024 := by omega
    have room₁ : pool.size + 2 ^ level ≤ Pool.capacity := by omega
    obtain ⟨furthest₁, pool₁, hsize₁, reaches₁⟩ := ih (by omega) depth' room₁
    have room₂ : pool₁.size + 2 ^ level ≤ Pool.capacity := by omega
    obtain ⟨furthest₂, pool₂, hsize₂, reaches₂⟩ := ih (by omega) depth' room₂
    exact ⟨_, pool₂, by omega, (reaches_call first (by omega)).trans <| reaches₁.trans <|
      (reaches_call second (by omega)).trans <| reaches₂.trans (reaches_ret last)⟩

/-- The run pools as many nodes as there are ids, opens one more, and accepts. -/
theorem reaches_exit (input : Input) :
    ∃ furthest' pool', pool'.size = Pool.capacity ∧
      (setting input).Reaches (.start 1 0 .empty) ((calling 2 furthest' #[] pool').openNode.moveOn 3) := by
  have code₁ : doubling.code[1]? = some (.call (entry 32)) := by decide +kernel
  have code₂ : doubling.code[2]? = some .nodeOpen := by decide +kernel
  have levels : ∃ furthest' pool', pool'.size = Pool.empty.size + 2 ^ 32 ∧
      (setting input).Reaches (calling (entry 32) 0 (#[].push 2) .empty) (calling 2 furthest' #[] pool') :=
    level_reaches (Nat.le_refl 32) (by decide) (by decide)
  obtain ⟨furthest', pool', hsize, reaches⟩ := levels
  have opened : (setting input).step (calling 2 furthest' #[] pool') =
      .running ((calling 2 furthest' #[] pool').openNode.moveOn 3) :=
    Setting.step_of_code (show (setting input).program.at? (calling 2 furthest' #[] pool').pc = _ from code₂)
  exact ⟨furthest', pool', hsize, (reaches_call code₁ (by decide)).trans (reaches.tail opened)⟩

/-- The node that is left open cannot be closed. -/
theorem finish_full {m : Machine} (log : m.work.log = NodeLog.empty.openNode 0) (full : m.pool.size = Pool.capacity)
    (start : Nat) : m.finish start = (m, .error (.poolExhausted Pool.capacity)) := by
  have depth : m.work.log.depth = 1 := by rw [log]; rfl
  have innermost : m.work.log.innermost? = some (0, 0) := by rw [log]; rfl
  have hfull : m.pool.isFull = true := decide_eq_true (Nat.le_of_eq full.symm)
  have fault : m.closeFault? = some (.poolExhausted Pool.capacity) := by
    simp only [Machine.closeFault?, innermost, hfull, full, if_true]
  simp only [Machine.finish, depth, Machine.closeOpens, fault]

/-- In a context that was just loaded, the run ends at the full pool and leaves the open node. -/
theorem run_leaves {c : Context} (startPoint : c.startPoint = 1) (pos : c.pos = 0) (pool : c.pool = .empty)
    (config : c.config = {}) :
    ∃ fuel c', c.run ⟨doubling.code⟩ fuel = some (.stopped (.poolExhausted Pool.capacity), c') ∧
      c'.work = { Stacks.empty with log := NodeLog.empty.openNode 0 } := by
  have loaded : c.startPoint ≠ 0 := by rw [startPoint]; exact Nat.one_ne_zero
  have hsetting : c.setting ⟨doubling.code⟩ = setting c.input := by rw [Context.setting, config]; rfl
  have hmachine : c.machine = .start 1 0 .empty := by
    rw [Context.machine, Context.startPos, startPoint, pos, pool, Nat.zero_min]
  obtain ⟨furthest, pool', hsize, reached⟩ := reaches_exit c.input
  let m := (calling 2 furthest #[] pool').openNode.moveOn 3
  let last := m.noteCursor
  have accepts : (setting c.input).step m = Halt.transition ⟨last, .ok true⟩ := by
    have code : doubling.code[3]? = some .exit := by decide +kernel
    exact Setting.step_of_code (show (setting c.input).program.at? m.pc = _ from code)
  obtain ⟨fuel, hexec⟩ := Setting.execute_of_reaches reached accepts
  have hfinish := finish_full (m := last) rfl hsize c.startPos
  let c' : Context := { c.after last with work := last.work }
  refine ⟨fuel, c', (Context.run_eq_some loaded).2 ⟨⟨last, .ok true⟩, ?_, ?_⟩, rfl⟩
  · rw [hsetting, hmachine]
    exact hexec
  · simp only [Context.conclude, hfinish, c']

/-- Not every run clears its stacks: this one, of bytecode in a new context, leaves an open node in the log. -/
theorem leaves_node :
    ∃ bytes l fuel c', doubling.encode = .ok bytes ∧ load {} bytes none = .ok l ∧
      (Context.ofLoaded {} l).startPoint = 1 ∧
      ((Context.ofLoaded {} l).setInput (.replicate 20000 97)).run l.program fuel =
        some (.stopped (.poolExhausted 4294967296), c') ∧
      c'.work.log.entries = #[.opened 0] := by
  have written := doubling.writes_assembly (by decide +kernel)
  obtain ⟨bytes, hbytes⟩ : ∃ bytes, doubling.encode = .ok bytes := by
    have succeeds : doubling.encode.isOk = true := by decide +kernel
    cases hencode : doubling.encode with
    | ok bytes => exact ⟨bytes, rfl⟩
    | error error =>
      rw [hencode] at succeeds
      cases succeeds
  obtain ⟨layout, laid, rfl⟩ := written.writes bytes hbytes
  have loads : doubling.Loads none 1 := ⟨.unnamed _, by decide +kernel, by decide +kernel⟩
  have hload : load {} layout.bytes none = .ok ⟨doubling.header, ⟨doubling.code⟩, 1, 0⟩ :=
    (laid.load_eq_ok rfl none _).2 ⟨1, loads, rfl⟩
  let c := (Context.ofLoaded {} ⟨doubling.header, ⟨doubling.code⟩, 1, 0⟩).setInput (.replicate 20000 97)
  obtain ⟨fuel, c', hrun, hwork⟩ := run_leaves (c := c) rfl rfl rfl rfl
  exact ⟨_, _, fuel, c', hbytes, hload, rfl, hrun, by rw [hwork]; rfl⟩

end Doubling

end PegMachine
