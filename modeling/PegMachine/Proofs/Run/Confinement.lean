import PegMachine.Proofs.Bytecode.Acceptance
import PegMachine.Proofs.Run.Contexts
/-!
  Control stays inside a loaded program.

  The loader looks at the targets of the instructions and at the start point, and at nothing else. What is
  proved is that this is enough for every way in which control moves:
    1. `Program.Closed`: what the loader's check of the targets says;
    2. `Confined`, `confined_of_move`: the program counter, the addresses on the call stack and the
       alternatives of the frames are inside a closed program, or right behind a call;
    3. `behind_last`: control leaves the program only behind its last instruction, by going on from there or
       by returning from a call that stands there;
    4. `control_confined`: so it is in all runs over a context that a loaded program has been put into.
-/
namespace PegMachine

/-! ## Closed programs -/

namespace Program

/-- No target of an instruction is outside the program. -/
def Closed (p : Program) : Prop := ∀ pc i, p.at? pc = some i → ∀ t ∈ i.targets, t < p.size

theorem lt_size {p : Program} {pc : Nat} {i : Instruction} (h : p.at? pc = some i) : pc < p.size :=
  (Array.getElem?_eq_some_iff.1 h).1

theorem closed_of_strayTarget? {code : Array Instruction} (h : strayTarget? code = none) : Closed ⟨code⟩ :=
  fun _ i hi => strayTarget?_eq_none_iff.1 h i (Array.mem_toList_iff.2 (Array.mem_of_getElem? hi))

end Program

/-- No run starts at the reserved index. -/
theorem StartsAt.ne_zero {rules : List Rule} {rule? : Option String} {start : UInt64}
    (h : StartsAt rules rule? start) : start ≠ 0 := by
  cases h with
  | named _ _ _ _ _ free => exact free
  | reserved | unknown | unnamed => decide

/-! ## Where control can be -/

/-- Control is in the program or right behind it, and so is every place where it can go on later: the calls
    return to right behind a call, and the frames resume inside the program. -/
structure Confined (p : Program) (m : Machine) : Prop where
  pc_le : m.pc ≤ p.size
  calls : ∀ back ∈ m.work.calls, ∃ k target, p.at? k = some (.call target) ∧ back = k + 1
  frames : ∀ f ∈ m.work.backtrack, f.alternative < p.size

namespace Confined

variable {p : Program} {m x : Machine} {pc : Nat} {f : Frame}

theorem of_start (h : pc < p.size) (pos : Nat) (pool : Pool) : Confined p (.start pc pos pool) :=
  ⟨Nat.le_of_lt h, nofun, nofun⟩

theorem back_le (h : Confined p m) {back : Nat} (hback : back ∈ m.work.calls) : back ≤ p.size := by
  obtain ⟨k, target, code, rfl⟩ := h.calls back hback
  exact Program.lt_size code

/-- Going on in the program with no addresses and no frames but old ones. -/
theorem moveOn (h : Confined p m) (hpc : pc ≤ p.size) (hcalls : ∀ back ∈ x.work.calls, back ∈ m.work.calls)
    (hframes : ∀ f ∈ x.work.backtrack, f ∈ m.work.backtrack) : Confined p (x.moveOn pc) where
  pc_le := hpc
  calls back hback := h.calls back (hcalls back hback)
  frames f hf := h.frames f (hframes f hf)

theorem pushFrame (h : Confined p m) (hpc : pc ≤ p.size) (hf : f.alternative < p.size) :
    Confined p ((m.pushFrame f).moveOn pc) where
  pc_le := hpc
  calls := h.calls
  frames g hg := by
    rcases Array.mem_push.1 hg with old | rfl
    · exact h.frames g old
    · exact hf

theorem popFrame (h : Confined p m) : Confined p m.popFrame :=
  ⟨h.pc_le, h.calls, fun f hf => h.frames f (mem_of_mem_pop hf)⟩

theorem resume (h : Confined p m) (top : m.work.backtrack.back? = some f) : Confined p (m.resume f) where
  pc_le := Nat.le_of_lt (h.frames f (Array.mem_of_back? top))
  calls back hback := h.calls back (mem_of_mem_shrink hback)
  frames g hg := h.frames g (mem_of_mem_pop hg)

end Confined

namespace Setting

variable {s : Setting} {m m' : Machine} {i : Instruction}

/-- In a closed program every move keeps control confined. -/
theorem confined_of_move (closed : s.program.Closed) (code : s.program.at? m.pc = some i) (h : s.Move m i m')
    (hm : Confined s.program m) : Confined s.program m' := by
  have next : m.pc + 1 ≤ s.program.size := Program.lt_size code
  have inside {target : Nat} (ht : target ∈ i.targets) : target ≤ s.program.size :=
    Nat.le_of_lt (closed _ _ code target ht)
  cases h with
  | consumed | opened | closed | tagged | valued | marked | scopeBegun | scopeEnded =>
    exact hm.moveOn next (fun _ h => h) fun _ h => h
  | defined =>
    exact hm.moveOn next (fun back hback => m.useMark_calls ▸ hback) fun f hf => m.useMark_backtrack ▸ hf
  | jumped => exact hm.moveOn (inside (List.mem_singleton_self _)) (fun _ h => h) fun _ h => h
  | switched table b target byte entry =>
    have ht : target.toNat ∈ (Instruction.mappedChoice table).targets :=
      List.mem_map.2 ⟨(b, target), JumpTable.mem_entries.2 entry, rfl⟩
    exact hm.moveOn (inside ht) (fun _ h => h) fun _ h => h
  | called target =>
    refine ⟨inside (List.mem_singleton_self _), fun back hback => ?_, hm.frames⟩
    rcases Array.mem_push.1 hback with old | rfl
    · exact hm.calls back old
    · exact ⟨m.pc, target, code, rfl⟩
  | returned back top =>
    exact hm.moveOn (hm.back_le (Array.mem_of_back? top)) (fun _ => mem_of_mem_pop) fun _ h => h
  | chose alternative => exact hm.pushFrame next (closed _ _ code _ (List.mem_singleton_self _))
  | committed =>
    exact hm.moveOn (inside (List.mem_singleton_self _)) (fun _ h => h) fun _ => mem_of_mem_pop
  | refreshed target f top =>
    exact hm.popFrame.pushFrame (inside (List.mem_singleton_self _)) (hm.frames f (Array.mem_of_back? top))
  | wentBack =>
    exact hm.moveOn (inside (List.mem_singleton_self _)) (fun _ => mem_of_mem_shrink) fun _ => mem_of_mem_pop
  | failed i f fails done top => exact hm.resume top
  | failedTwice f g top next => exact hm.popFrame.resume next

theorem confined_of_reaches (closed : s.program.Closed) (h : s.Reaches m m') (hm : Confined s.program m) :
    Confined s.program m' :=
  invariant_of_reaches (fun _ _ _ => confined_of_move closed) h hm

/-- Control gets behind the last instruction by going on from it, or by returning from a call that is the last
    instruction. -/
theorem behind_last (closed : s.program.Closed) (hm : Confined s.program m) (hstep : s.step m = .running m')
    (behind : m'.pc = s.program.size) :
    ∃ i, s.program.at? m.pc = some i ∧
      (m.pc + 1 = m'.pc ∧ (∃ m₁, s.perform i m = .next m₁) ∨
        i = .ret ∧ m.work.calls.back? = some m'.pc ∧
          ∃ target, s.program.at? (m'.pc - 1) = some (.call target)) := by
  obtain ⟨i, code, -⟩ := move_of_step hstep
  refine ⟨i, code, ?_⟩
  have hpc := (perform_keeps (s := s) i m).1
  rw [step_of_code code] at hstep
  cases he : s.perform i m with
  | next m₁ =>
    rw [he] at hstep hpc
    obtain rfl := settle_next hstep
    exact .inl ⟨congrArg (· + 1) hpc.symm, m₁, rfl⟩
  | goto target m₁ =>
    rw [he] at hstep
    obtain rfl := settle_goto hstep
    obtain rfl : target = s.program.size := behind
    rcases perform_eq_goto he with ht | ⟨rfl, top⟩
    · exact absurd (closed _ _ code _ ht) (Nat.lt_irrefl _)
    · obtain ⟨k, target, hcall, hback⟩ := hm.calls _ (Array.mem_of_back? top)
      refine .inr ⟨rfl, top, target, ?_⟩
      show s.program.at? (s.program.size - 1) = _
      rw [hback, Nat.add_sub_cancel, hcall]
  | fail m₁ =>
    rw [he] at hstep
    obtain ⟨f, top, rfl⟩ := settle_fail hstep
    have hf : f.alternative < s.program.size := by
      obtain rfl | ⟨-, rfl, -⟩ := perform_eq_fail he
      · exact hm.frames f (Array.mem_of_back? top)
      · exact hm.popFrame.frames f (Array.mem_of_back? top)
    exact absurd behind (Nat.ne_of_lt hf)
  | accept | stop =>
    rw [he] at hstep
    cases hstep

end Setting

/-! ## The errors of a run -/

namespace Machine

variable {m m' : Machine} {error : RunError}

theorem astray_of_closeOpens {count : Nat} (h : m.closeOpens count = (m', some error)) :
    error.astray = false := by
  induction count generalizing m with
  | zero => cases h
  | succ count ih =>
    rw [closeOpens] at h
    split at h
    · next hfault =>
      cases h
      exact Setting.astray_of_closeFault? hfault
    · exact ih h

/-- If the tree of a match cannot be made, that is not because control went astray. -/
theorem astray_of_finish {start : Nat} (h : m.finish start = (m', .error error)) : error.astray = false := by
  rw [finish] at h
  split at h
  · next hclose =>
    cases h
    exact astray_of_closeOpens hclose
  · rw [extract] at h
    split at h
    · cases h
      rfl
    · simp only at h
      split at h
      · cases h
      · cases h
        rfl

end Machine

namespace Context

variable {c c' : Context} {program : Program} {fuel : Nat} {outcome : Outcome} {error : RunError}

/-- A run that starts somewhere and reports that control went astray has left the program. -/
theorem left_of_run (loaded : c.startPoint ≠ 0) (h : c.run program fuel = some (.stopped error, c'))
    (astray : error.astray = true) :
    ∃ m, (c.setting program).Reaches c.machine m ∧ program.at? m.pc = none ∧
      error = .pcOutOfBounds m.pc program.size := by
  obtain ⟨⟨left, result⟩, hexec, hresult⟩ := (run_eq_some loaded).1 h
  obtain ⟨m, reached, last⟩ := Setting.reaches_of_execute hexec
  rw [conclude] at hresult
  split at hresult
  · next hstop =>
    cases hresult
    obtain rfl : result = .error error := hstop
    obtain ⟨-, ⟨code, rfl⟩ | own⟩ := Setting.step_stopped last
    · exact ⟨m, reached, code, rfl⟩
    · rw [own] at astray
      cases astray
  · cases hresult
  · split at hresult
    · cases hresult
    · next hfinish =>
      cases hresult
      rw [Machine.astray_of_finish hfinish] at astray
      cases astray

/-! ## Contexts of a loaded program -/

/-- The context was pointed at the program when it was loaded, and has not been pointed at another since. It
    may have been given other inputs and cursors, and been run, with this program or any other. -/
inductive Carries (program : Program) : Context → Prop where
  | loaded {options : LoadOptions} {bytes : Bytes} {rule? : Option String} {l : Loaded}
    (load : load options bytes rule? = .ok l) (holds : l.program = program) : Carries program (.ofLoaded options l)
  | loadedInto {c c' : Context} {options : LoadOptions} {bytes : Bytes} {rule? : Option String}
    (load : c.loadInto options bytes rule? = (.ok program, c')) : Carries program c'
  | used {c c' : Context} (h : Carries program c) (use : c.Used c') : Carries program c'

/-- What the loader made sure of. -/
structure Fits (program : Program) (c : Context) : Prop where
  start_ne_zero : c.startPoint ≠ 0
  start_lt : c.startPoint < program.size
  count_eq : c.instructionCount = program.size
  closed : program.Closed

theorem fits_of_load {options : LoadOptions} {bytes : Bytes} {rule? : Option String} {l : Loaded}
    (h : load options bytes rule? = .ok l) (c : Context) : Fits l.program (c.adoptLoaded l) := by
  obtain ⟨header, code, rest, -, htargets, hstart, rfl⟩ := load_eq_ok_of_run.1 h
  refine ⟨fun hzero => (startsAt_startPoint header rule?).ne_zero ?_, hstart, rfl,
    Program.closed_of_strayTarget? htargets⟩
  exact UInt64.toNat_inj.1 hzero

theorem Carries.fits (h : Carries program c) : Fits program c := by
  induction h with
  | loaded load holds => exact holds ▸ fits_of_load load _
  | loadedInto load =>
    rw [loadInto] at load
    split at load
    · next hload =>
      cases load
      exact fits_of_load hload _
    · cases load
  | used _ use ih =>
    obtain ⟨input, pos, work, root, pool, rfl⟩ := use.eq
    exact ⟨ih.start_ne_zero, ih.start_lt, ih.count_eq, ih.closed⟩

/-- **Control stays where the loader has looked.** In every state of every run of a loaded program, the
    program counter and the addresses on the call stack are at most the number of instructions, and the frames
    resume below it. No run lacks a start or comes to the routine of another opcode. If the program counter is
    out of bounds it is right behind the last instruction, and came there by going on from the last
    instruction, or by returning from a call that is the last instruction. -/
theorem control_confined (h : Carries program c) :
    (∀ m, (c.setting program).Reaches c.machine m →
      m.pc ≤ c.instructionCount ∧ (∀ back ∈ m.work.calls, back ≤ c.instructionCount) ∧
        ∀ f ∈ m.work.backtrack, f.alternative < c.instructionCount) ∧
    (∀ fuel outcome c', c.run program fuel = some (outcome, c') →
      outcome ≠ .stopped .noStartPoint ∧
      (∀ pc handler, outcome ≠ .stopped (.handlerMismatch pc handler)) ∧
      ∀ pc count, outcome = .stopped (.pcOutOfBounds pc count) →
        pc = c.instructionCount ∧ count = c.instructionCount ∧
        ∃ m m' i, (c.setting program).Reaches c.machine m ∧ program.at? m.pc = some i ∧
          (c.setting program).step m = .running m' ∧ m'.pc = pc ∧
          (m.pc + 1 = pc ∧ (∃ m₁, (c.setting program).perform i m = .next m₁) ∨
            i = .ret ∧ m.work.calls.back? = some pc ∧ ∃ target, program.at? (pc - 1) = some (.call target))) := by
  have fits := h.fits
  have start : Confined program c.machine := .of_start fits.start_lt _ _
  have confined {m : Machine} (reached : (c.setting program).Reaches c.machine m) : Confined program m :=
    Setting.confined_of_reaches fits.closed reached start
  rw [fits.count_eq]
  refine ⟨fun m reached => ?_, fun fuel outcome c' hrun => ⟨?_, fun pc handler => ?_, fun pc count => ?_⟩⟩
  · have hm := confined reached
    exact ⟨hm.pc_le, fun back => hm.back_le, hm.frames⟩
  · rintro rfl
    obtain ⟨m, -, -, herror⟩ := left_of_run fits.start_ne_zero hrun rfl
    cases herror
  · rintro rfl
    obtain ⟨m, -, -, herror⟩ := left_of_run fits.start_ne_zero hrun rfl
    cases herror
  · rintro rfl
    obtain ⟨m', reached, code, herror⟩ := left_of_run fits.start_ne_zero hrun rfl
    obtain ⟨rfl, rfl⟩ := RunError.pcOutOfBounds.inj herror
    have behind : m'.pc = program.size :=
      Nat.le_antisymm (confined reached).pc_le (Array.getElem?_eq_none_iff.1 code)
    refine ⟨behind, rfl, ?_⟩
    -- The run starts inside the program, so some step has brought it here.
    obtain rfl | ⟨m, hm, hstep⟩ := Relation.ReflTransGen.cases_tail reached
    · exact absurd behind (Nat.ne_of_lt fits.start_lt)
    · obtain ⟨i, hi, how⟩ := Setting.behind_last fits.closed (confined hm) hstep behind
      exact ⟨m, m', i, hm, hi, hstep, rfl, how⟩

/-- Ends with a call, and comes back from it. -/
def callingLast : Program := .ofList [.exit, .jump 3, .ret, .call 2]

/-- The program behind an empty header of version 0.1. -/
def callingLastBytes : Bytes :=
  [0, 1] ++ toBigEndian 4 0 ++ toBigEndian 4 0 ++ toBigEndian 4 0 ++ toBigEndian 8 4 ++
    [0] ++ [1, 0, 0, 0, 3] ++ [3] ++ [2, 0, 0, 0, 2]

def callingLastLoaded : Loaded := ⟨⟨⟨0, 1⟩, "", 0, #[], 4⟩, callingLast, 1, 0⟩

/-- A context of this program that has been run before. -/
def callingLastContext : Context := ((ofLoaded {} callingLastLoaded).setInput #[7]).after (.start 4 0 .empty)

theorem control_confined_callingLast : Carries callingLast callingLastContext ∧
    (∃ c', callingLastContext.run callingLast 4 = some (.stopped (.pcOutOfBounds 4 4), c')) ∧
    callingLastContext.instructionCount = 4 ∧
    ∃ m m' i, (callingLastContext.setting callingLast).Reaches callingLastContext.machine m ∧
      callingLast.at? m.pc = some i ∧
      (callingLastContext.setting callingLast).step m = .running m' ∧ m'.pc = 4 := by
  have loaded : load {} callingLastBytes none = .ok callingLastLoaded := by decide +kernel
  have before : ((ofLoaded {} callingLastLoaded).setInput #[7]).run callingLast 4 =
      some (.stopped (.pcOutOfBounds 4 4), callingLastContext) := rfl
  have carries : Carries callingLast callingLastContext :=
    .used (.used (.loaded loaded rfl) (.setInput _)) (.run before)
  have run : callingLastContext.run callingLast 4 = some (.stopped (.pcOutOfBounds 4 4), _) := rfl
  obtain ⟨-, -, out⟩ := (control_confined carries).2 4 _ _ run
  obtain ⟨count, -, m, m', i, reached, code, step, behind, -⟩ := out 4 4 rfl
  exact ⟨carries, ⟨_, run⟩, count.symm, m, m', i, reached, code, step, behind⟩

end Context

end PegMachine
