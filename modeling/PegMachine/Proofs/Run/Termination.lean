import Mathlib.Algebra.Group.Nat.Defs
import PegMachine.Proofs.Run.Contexts
/-!
  Programs that only go forward.

  If every target lies behind the instruction that names it, a run ends. The program counter alone does not show
  this: a `ret` and a backtrack take it back. But they take a place off the call stack or the backtrack stack
  where control was to go on, and nothing that was taken off a stack comes back to it. So every such place gets
  a weight, three times that of the next place in the program. What is proved:
    1. `Machine.ahead`, `ahead_lt_of_move`: every move makes the sum of the weights smaller. A move that goes
       forward may leave one more place behind, and two later places weigh less than an earlier one. This needs
       nothing of the frames but where they resume, so it does not matter which calls a frame finds when it is
       restored;
    2. `execute_of_falling`: a run along which a number falls ends within as many steps;
    3. `run_ends_of_forward`: so a run of a program that only goes forward ends within a number of steps that
       can be read off the program and the start point.
-/
namespace PegMachine

/-! ## Sums over a stack -/

/-- The sum of the weights of all entries. -/
def total {α : Type} (weight : α → Nat) (xs : Array α) : Nat :=
  xs.toList.foldl (fun sum x => sum + weight x) 0

section Total

variable {α : Type} {weight : α → Nat} {xs : Array α} {x : α}

theorem total_push (weight : α → Nat) (xs : Array α) (x : α) :
    total weight (xs.push x) = total weight xs + weight x := by
  rw [total, Array.toList_push, List.foldl_append]
  rfl

theorem total_pop (weight : α → Nat) (top : xs.back? = some x) :
    total weight xs.pop + weight x = total weight xs := by
  obtain ⟨below, rfl⟩ := Array.back?_eq_some_iff.1 top
  rw [Array.pop_push, total_push]

theorem le_foldl_add (weight : α → Nat) (xs : List α) (sum : Nat) :
    sum ≤ xs.foldl (fun sum x => sum + weight x) sum := by
  induction xs generalizing sum with
  | nil => exact Nat.le_refl sum
  | cons x xs ih => exact Nat.le_trans (Nat.le_add_right ..) (ih (sum + weight x))

theorem total_shrink_le (weight : α → Nat) (xs : Array α) (length : Nat) :
    total weight (xs.shrink length) ≤ total weight xs := by
  rw [total, total, Array.toList_shrink]
  conv => rhs; rw [← List.take_append_drop length xs.toList, List.foldl_append]
  exact le_foldl_add ..

end Total

/-! ## Weights -/

namespace Program

/-- Every target of an instruction lies behind the instruction. -/
def Forward (p : Program) : Prop := ∀ pc i, p.at? pc = some i → ∀ t ∈ i.targets, pc < t

theorem forward_iff {p : Program} :
    p.Forward ↔ ∀ pc, ∀ inside : pc < p.code.size, ∀ t ∈ p.code[pc].targets, pc < t := by
  constructor
  · intro forward pc inside
    exact forward pc _ (Array.getElem?_eq_getElem inside)
  · intro h pc i code
    obtain ⟨inside, rfl⟩ := Array.getElem?_eq_some_iff.1 code
    exact h pc inside

instance (p : Program) : Decidable p.Forward := decidable_of_iff _ forward_iff.symm

/-- The weight of a place in the program where control goes on. Outside the program it is 1. -/
def weight (p : Program) (pc : Nat) : Nat := 3 ^ (p.size - pc)

variable {p : Program} {pc pc' : Nat}

theorem weight_pos (p : Program) (pc : Nat) : 0 < p.weight pc := Nat.pow_pos (by decide)

/-- A place inside the program weighs three times as much as any later one. -/
theorem weight_le_of_lt (inside : pc < p.size) (later : pc < pc') : 3 * p.weight pc' ≤ p.weight pc := by
  have split : p.size - pc = (p.size - pc - 1) + 1 := by omega
  calc 3 * p.weight pc'
      ≤ 3 * 3 ^ (p.size - pc - 1) := Nat.mul_le_mul_left 3 (Nat.pow_le_pow_right (by decide) (by omega))
    _ = p.weight pc := by rw [weight, split, Nat.pow_succ, Nat.mul_comm, Nat.add_sub_cancel]

end Program

namespace Machine

/-- What a run has ahead of it: the weights of the program counter, of the addresses on the call stack, and of
    the places where frames resume. -/
def ahead (p : Program) (m : Machine) : Nat :=
  p.weight m.pc + total p.weight m.work.calls + total (fun f => p.weight f.alternative) m.work.backtrack

variable {p : Program} {m x : Machine} {pc : Nat} {f : Frame}

/-- Going forward, with nothing on the stacks that was not there before. -/
theorem ahead_moveOn_lt (inside : m.pc < p.size) (later : m.pc < pc)
    (calls : total p.weight x.work.calls ≤ total p.weight m.work.calls)
    (frames : total (fun f => p.weight f.alternative) x.work.backtrack ≤
      total (fun f => p.weight f.alternative) m.work.backtrack) : (x.moveOn pc).ahead p < m.ahead p := by
  have lighter := Program.weight_le_of_lt inside later
  have := p.weight_pos m.pc
  simp only [ahead, moveOn, noteCursor]
  omega

/-- Resuming at the top frame takes the frame's weight off the stack, and the program counter's is gone. -/
theorem ahead_resume_lt (p : Program) (top : m.work.backtrack.back? = some f) : (m.resume f).ahead p < m.ahead p := by
  have frames := total_pop (fun f => p.weight f.alternative) top
  have calls := total_shrink_le p.weight m.work.calls f.callDepth
  have := p.weight_pos m.pc
  show p.weight f.alternative + total p.weight (m.work.calls.shrink f.callDepth) +
    total (fun f => p.weight f.alternative) m.work.backtrack.pop < _
  rw [ahead]
  omega

theorem ahead_popFrame_le (p : Program) (top : m.work.backtrack.back? = some f) : m.popFrame.ahead p ≤ m.ahead p := by
  have frames := total_pop (fun f => p.weight f.alternative) top
  show p.weight m.pc + total p.weight m.work.calls + total (fun f => p.weight f.alternative) m.work.backtrack.pop ≤ _
  rw [ahead]
  omega

end Machine

/-! ## Runs -/

namespace Setting

variable {s : Setting} {m m' : Machine} {i : Instruction}

/-- In a program that only goes forward every move makes what is ahead smaller. -/
theorem ahead_lt_of_move (forward : s.program.Forward) (code : s.program.at? m.pc = some i) (h : s.Move m i m') :
    m'.ahead s.program < m.ahead s.program := by
  have inside : m.pc < s.program.size := (Array.getElem?_eq_some_iff.1 code).1
  have next : m.pc < m.pc + 1 := Nat.lt_succ_self _
  have later {target : Nat} (ht : target ∈ i.targets) : m.pc < target := forward _ _ code target ht
  cases h with
  | consumed | opened | closed | tagged | valued | marked | scopeBegun | scopeEnded =>
    exact Machine.ahead_moveOn_lt inside next (Nat.le_refl _) (Nat.le_refl _)
  | defined =>
    refine Machine.ahead_moveOn_lt inside next ?_ ?_
    · exact Nat.le_of_eq (congrArg _ m.useMark_calls)
    · exact Nat.le_of_eq (congrArg _ m.useMark_backtrack)
  | jumped => exact Machine.ahead_moveOn_lt inside (later (List.mem_singleton_self _)) (Nat.le_refl _) (Nat.le_refl _)
  | switched table b target byte entry =>
    have ht : target.toNat ∈ (Instruction.mappedChoice table).targets :=
      List.mem_map.2 ⟨(b, target), JumpTable.mem_entries.2 entry, rfl⟩
    exact Machine.ahead_moveOn_lt inside (later ht) (Nat.le_refl _) (Nat.le_refl _)
  | called target =>
    -- The target and the way back weigh less together than the call.
    have there := Program.weight_le_of_lt inside (later (List.mem_singleton_self target))
    have back := Program.weight_le_of_lt inside next
    have calls := total_push s.program.weight m.work.calls (m.pc + 1)
    have := s.program.weight_pos m.pc
    show s.program.weight target + total s.program.weight (m.work.calls.push (m.pc + 1)) +
      total (fun f => s.program.weight f.alternative) m.work.backtrack < _
    rw [Machine.ahead, calls]
    omega
  | returned back top =>
    have calls := total_pop s.program.weight top
    have := s.program.weight_pos m.pc
    show s.program.weight back + total s.program.weight m.work.calls.pop +
      total (fun f => s.program.weight f.alternative) m.work.backtrack < _
    rw [Machine.ahead]
    omega
  | chose alternative =>
    -- So do the next instruction and the alternative.
    have there := Program.weight_le_of_lt inside (later (List.mem_singleton_self alternative))
    have on := Program.weight_le_of_lt inside next
    have frames : total (fun f => s.program.weight f.alternative) (m.work.backtrack.push (m.frame alternative)) =
        total (fun f => s.program.weight f.alternative) m.work.backtrack + s.program.weight alternative :=
      total_push _ m.work.backtrack (m.frame alternative)
    have := s.program.weight_pos m.pc
    show s.program.weight (m.pc + 1) + total s.program.weight m.work.calls +
      total (fun f => s.program.weight f.alternative) (m.work.backtrack.push (m.frame alternative)) < _
    rw [Machine.ahead, frames]
    omega
  | committed target f top =>
    have frames := total_pop (fun f => s.program.weight f.alternative) top
    refine Machine.ahead_moveOn_lt inside (later (List.mem_singleton_self _)) (Nat.le_refl _) ?_
    show total _ m.work.backtrack.pop ≤ _
    omega
  | refreshed target f top =>
    -- The fresh frame resumes where the old one did.
    have frames := total_pop (fun f => s.program.weight f.alternative) top
    have fresh := total_push (fun f => s.program.weight f.alternative) m.work.backtrack.pop (m.frame f.alternative)
    refine Machine.ahead_moveOn_lt inside (later (List.mem_singleton_self _)) (Nat.le_refl _) ?_
    exact Nat.le_of_eq (fresh.trans frames)
  | wentBack target f top =>
    have frames := total_pop (fun f => s.program.weight f.alternative) top
    refine Machine.ahead_moveOn_lt inside (later (List.mem_singleton_self _)) (total_shrink_le ..) ?_
    show total _ m.work.backtrack.pop ≤ _
    omega
  | failed i f fails done top => exact Machine.ahead_resume_lt s.program top
  | failedTwice f g top next =>
    exact Nat.lt_of_lt_of_le (Machine.ahead_resume_lt s.program next) (Machine.ahead_popFrame_le s.program top)

/-- A run along which a number falls with every step ends within as many steps. -/
theorem execute_of_falling {measure : Machine → Nat}
    (falls : ∀ m m', s.step m = .running m' → measure m' < measure m) {fuel : Nat} (enough : measure m < fuel) :
    ∃ halt, s.execute fuel m = some halt := by
  induction fuel generalizing m with
  | zero => exact absurd enough (Nat.not_lt_zero _)
  | succ fuel ih =>
    rw [execute]
    cases hstep : s.step m with
    | running m' =>
      have := falls m m' hstep
      exact ih (by omega)
    | halted | stopped => exact ⟨_, rfl⟩

theorem execute_of_forward (forward : s.program.Forward) {fuel : Nat} (enough : m.ahead s.program < fuel) :
    ∃ halt, s.execute fuel m = some halt := by
  refine execute_of_falling (fun m m' hstep => ?_) enough
  obtain ⟨i, code, move⟩ := move_of_step hstep
  exact ahead_lt_of_move forward code move

end Setting

/-! ## Contexts -/

namespace Context

variable {c : Context} {program : Program}

theorem ahead_machine (c : Context) (p : Program) : c.machine.ahead p = p.weight c.startPoint := rfl

/-- **Only backward control flow can make a run endless.** If every target in the program lies behind the
    instruction that names it, the run of every context ends, with a match, a failure or an error, and it takes
    no more than three to the power of the number of instructions from the start point on. -/
theorem run_ends_of_forward (forward : program.Forward) (c : Context) :
    ∃ outcome c', ∀ fuel > 3 ^ (program.size - c.startPoint), c.run program fuel = some (outcome, c') := by
  by_cases loaded : c.startPoint = 0
  · exact ⟨.stopped .noStartPoint, c, fun fuel _ => if_pos loaded⟩
  · have enough : c.machine.ahead program < 3 ^ (program.size - c.startPoint) + 1 := by
      rw [ahead_machine]
      exact Nat.lt_succ_self _
    obtain ⟨halt, hexec⟩ := Setting.execute_of_forward (s := c.setting program) forward enough
    refine ⟨(c.conclude halt).1, (c.conclude halt).2, fun fuel hfuel => ?_⟩
    exact (run_eq_some loaded).2 ⟨halt, Setting.execute_of_le hexec hfuel, rfl⟩

/-- Calls a routine that saves a frame and returns, and then another one that fails. So the frame is restored over
    the address of the second call, where that of the first one was. -/
def returningTwice : Program := .ofList [.exit, .call 4, .call 6, .exit, .choice 7, .ret, .fail, .ret]

def returningTwiceContext : Context := { new {} with startPoint := 1 }

theorem run_ends_of_forward_returningTwice : returningTwice.Forward ∧
    ∃ c', ∀ fuel > 2187, returningTwiceContext.run returningTwice fuel =
      some (.matched ⟨0, 0, none, none, []⟩, c') := by
  have forward : returningTwice.Forward := by decide
  obtain ⟨outcome, c', ends⟩ := run_ends_of_forward forward returningTwiceContext
  have run : (returningTwiceContext.run returningTwice 7).map Prod.fst =
      some (.matched ⟨0, 0, none, none, []⟩) := by
    decide +kernel
  obtain ⟨⟨outcome', c''⟩, run, rfl⟩ := Option.map_eq_some_iff.1 run
  obtain ⟨rfl, -⟩ := Prod.mk.inj (run_unique (by decide) (ends 2188 (by decide)) run)
  exact ⟨forward, c', ends⟩

end Context

end PegMachine
