import PegMachine.Proofs.Run.Leads
import PegMachine.Proofs.Stacks.Begins
/-!
  One instruction under a frame.

  A choice pushes a frame and tries what stands behind it. If that is a single matcher, the matcher either fails
  and resumes at the alternative, or it comes through and the instruction behind it decides what becomes of the
  frame and of the bytes that were consumed. What is proved:
    1. `resume_attempt`: a matcher that fails leaves no trace of the frame;
    2. `step_commit_tried`, `step_partialCommit_tried`, `step_backCommit_tried`, `step_failTwice_tried`: what the
       instruction behind the matcher makes of the frame.
-/
namespace PegMachine

namespace Machine

variable {m : Machine}

@[simp] theorem moveOn_moveOn (m : Machine) (pc pc' : Nat) : (m.moveOn pc).moveOn pc' = m.moveOn pc' := by
  simp only [moveOn, noteCursor, Nat.max_assoc, Nat.max_self]

theorem advance_moveOn_advance (m : Machine) (a b pc pc' : Nat) :
    (((m.advance a).moveOn pc).advance b).moveOn pc' = (m.advance (a + b)).moveOn pc' := by
  have further : max (max m.furthest (m.pos + a)) (m.pos + (a + b)) = max m.furthest (m.pos + (a + b)) := by omega
  simp only [moveOn, noteCursor, advance, Nat.add_assoc, further]

/-- The machine behind the instruction that a choice tries, with the frame of the choice still there. -/
def tried (m : Machine) (alternative count : Nat) : Machine := ((m.attempt alternative).advance count).moveOn (m.pc + 2)

theorem popFrame_tried (alternative count : Nat) :
    (m.tried alternative count).popFrame = (m.advance count).moveOn (m.pc + 2) := by
  have popped : (m.work.backtrack.push (m.frame alternative)).pop = m.work.backtrack := Array.pop_push ..
  have further : max (max m.furthest m.pos) (m.pos + count) = max m.furthest (m.pos + count) := by omega
  simp only [tried, attempt, moveOn, noteCursor, advance, popFrame, pushFrame, popped, further]

theorem top_tried (alternative count : Nat) :
    (m.tried alternative count).work.backtrack.back? = some (m.frame alternative) := Array.back?_push

/-- What failed under a frame without touching the stacks resumes as if the frame had never been there. -/
theorem resume_attempt (inside : m.work.log.Inside) (alternative : Nat) :
    (m.attempt alternative).resume (m.frame alternative) = m.moveOn alternative := by
  have popped : (m.work.backtrack.push (m.frame alternative)).pop = m.work.backtrack := Array.pop_push ..
  have restored := Stacks.restore_frame (.refl m.work) inside alternative m.pos
  simp only [attempt, resume, moveOn, noteCursor, popFrame, pushFrame, restore, popped, Nat.max_assoc, Nat.max_self]
  exact congrArg (fun work => (⟨alternative, m.pos, _, work, m.pool⟩ : Machine)) restored

end Machine

namespace Setting

variable {s : Setting} {m m₁ : Machine} {i : Instruction} {f : Frame} {count alternative : Nat}

/-! ## Single steps -/

theorem step_next (code : s.program.at? m.pc = some i) (done : s.perform i m = .next m₁) :
    s.step m = .running (m₁.moveOn (m₁.pc + 1)) := by
  rw [step_of_code code, done]
  rfl

theorem step_goto {target : Nat} (code : s.program.at? m.pc = some i) (done : s.perform i m = .goto target m₁) :
    s.step m = .running (m₁.moveOn target) := by
  rw [step_of_code code, done]
  rfl

theorem step_fail (code : s.program.at? m.pc = some i) (done : s.perform i m = .fail m₁)
    (top : m₁.work.backtrack.back? = some f) : s.step m = .running (m₁.resume f) := by
  have top' : m₁.noteCursor.work.backtrack.back? = some f := top
  rw [step_of_code code, done, Effect.settle, Machine.backtrack, top']
  rfl

theorem step_taken (code : s.program.at? m.pc = some i) (look : s.perform i m = m.take true count) :
    s.step m = .running ((m.advance count).moveOn (m.pc + 1)) := step_next code look

theorem step_refused (code : s.program.at? m.pc = some i) (look : s.perform i m = m.take false count)
    (top : m.work.backtrack.back? = some f) : s.step m = .running (m.resume f) := step_fail code look top

/-! ## One attempt under a frame -/

/-- The attempt fails and resumes at the alternative of the choice. -/
theorem reaches_refused (inside : m.work.log.Inside) (code : s.program.at? (m.pc + 1) = some i)
    (look : s.perform i (m.attempt alternative) = (m.attempt alternative).take false count) :
    s.Reaches (m.attempt alternative) (m.moveOn alternative) := by
  have top : (m.attempt alternative).work.backtrack.back? = some (m.frame alternative) := Array.back?_push
  have failed := step_refused (m := m.attempt alternative) code look top
  rw [Machine.resume_attempt inside] at failed
  exact .single failed

/-- The attempt comes through. -/
theorem step_tried (code : s.program.at? (m.pc + 1) = some i)
    (look : s.perform i (m.attempt alternative) = (m.attempt alternative).take true count) :
    s.step (m.attempt alternative) = .running (m.tried alternative count) := step_taken code look

/-- A commit drops the frame. -/
theorem step_commit_tried {target : Nat} (code : s.program.at? (m.pc + 2) = some (.commit target)) :
    s.step (m.tried alternative count) = .running ((m.advance count).moveOn target) := by
  rw [step_of_code (m := m.tried alternative count) code, perform, Machine.top_tried]
  show Transition.running ((m.tried alternative count).popFrame.moveOn target) = _
  rw [Machine.popFrame_tried, Machine.moveOn_moveOn]

/-- A partial commit goes back to before the attempt, but for the bytes that were consumed. -/
theorem step_partialCommit_tried (code : s.program.at? (m.pc + 2) = some (.partialCommit (m.pc + 1))) :
    s.step (m.tried alternative count) = .running (((m.advance count).moveOn m.pc).attempt alternative) := by
  rw [step_of_code (m := m.tried alternative count) code, perform, Machine.top_tried]
  show Transition.running
    (((m.tried alternative count).popFrame.pushFrame (((m.advance count).moveOn m.pc).frame alternative)).moveOn
      (m.pc + 1)) = _
  rw [Machine.popFrame_tried]
  rfl

/-- A back commit takes the consumed bytes back. -/
theorem step_backCommit_tried {target : Nat} (inside : m.work.log.Inside)
    (code : s.program.at? (m.pc + 2) = some (.backCommit target)) :
    s.step (m.tried alternative count) =
      .running { m.moveOn target with furthest := max m.furthest (m.pos + count) } := by
  have restored := Stacks.restore_frame (.refl m.work) inside alternative m.pos
  have further : max (max m.furthest (m.pos + count)) m.pos = max m.furthest (m.pos + count) := by omega
  rw [step_of_code (m := m.tried alternative count) code, perform, Machine.top_tried]
  show Transition.running (((m.tried alternative count).popFrame.restore (m.frame alternative)).moveOn target) = _
  rw [Machine.popFrame_tried]
  show Transition.running ⟨target, m.pos, max (max m.furthest (m.pos + count)) m.pos,
    m.work.restore (m.work.frame alternative m.pos), m.pool⟩ = _
  rw [restored, further]
  rfl

/-- Failing twice drops the frame and resumes at the one below it. -/
theorem step_failTwice_tried (code : s.program.at? (m.pc + 2) = some .failTwice)
    (top : m.work.backtrack.back? = some f) : s.step (m.tried alternative count) =
      .running { m.resume f with furthest := max m.furthest (m.pos + count) } := by
  have failed : s.perform .failTwice (m.tried alternative count) = .fail ((m.advance count).moveOn (m.pc + 2)) := by
    rw [perform, Machine.top_tried, ← Machine.popFrame_tried]
  rw [step_fail (m := m.tried alternative count) code failed top]
  simp only [Machine.resume, Machine.moveOn, Machine.noteCursor, Machine.advance, Nat.max_assoc, Nat.max_self]
  rfl

end Setting

end PegMachine
