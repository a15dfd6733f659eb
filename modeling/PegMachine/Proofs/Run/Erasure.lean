import PegMachine.Proofs.Run.Ends
import PegMachine.Proofs.Trees.TreeLog
/-!
  Machines without ids.

  `erase` forgets what depends on the nodes that earlier runs have left in the pool: the ids in the log, and the
  pool. Machines that differ in nothing else have the same erasure. What is proved:
    1. erasing commutes with everything an instruction does to a machine;
    2. `perform_erase`: so an instruction does the same to a machine and to its erasure, unless it makes a node
       and the pool is full;
    3. `step_erase`: and so does a step.
-/
namespace PegMachine

/-! ## Erasing -/

/-- The entry with no id in it. -/
def LogEntry.erase : LogEntry → LogEntry
  | node _ => node 0
  | entry => entry

def NodeLog.erase (log : NodeLog) : NodeLog := ⟨log.entries.map LogEntry.erase, log.opens⟩

/-- The machine with no ids in its log, and nothing in its pool. -/
def Machine.erase (m : Machine) : Machine := { m with work.log := m.work.log.erase, pool := .empty }

/-- The effect with another machine in it. -/
def Effect.map (f : Machine → Machine) : Effect → Effect
  | next m => next (f m)
  | goto target m => goto target (f m)
  | fail m => fail (f m)
  | accept m => accept (f m)
  | stop error m => stop error (f m)

theorem Effect.fails_map (f : Machine → Machine) (e : Effect) : (e.map f).fails = e.fails := by cases e <;> rfl

/-- The transition with another machine in it. -/
def Transition.map (f : Machine → Machine) : Transition → Transition
  | running m => running (f m)
  | halted matched m => halted matched (f m)
  | stopped error m => stopped error (f m)

namespace NodeLog

variable {log : NodeLog}

theorem erase_push (log : NodeLog) (entry : LogEntry) : (log.push entry).erase = log.erase.push entry.erase :=
  map_push log entry

theorem erase_openNode (log : NodeLog) (start : Nat) : (log.openNode start).erase = log.erase.openNode start :=
  map_openNode rfl

theorem erase_truncate (log : NodeLog) (length : Nat) : (log.truncate length).erase = log.erase.truncate length :=
  map_truncate log length

theorem erase_erase (log : NodeLog) : log.erase.erase = log.erase := by
  have twice : LogEntry.erase ∘ LogEntry.erase = LogEntry.erase := by
    funext entry
    cases entry <;> rfl
  simp only [erase, Array.map_map, twice]

theorem innermost?_erase (log : NodeLog) : log.erase.innermost? = log.innermost? := by
  have starts (entry : LogEntry) : entry.erase.start? = entry.start?.map id := by cases entry <;> rfl
  have inner := innermost?_map starts log
  rwa [Prod.map_id, Option.map_id] at inner

end NodeLog

namespace Machine

theorem erase_erase (m : Machine) : m.erase.erase = m.erase := by
  simp only [erase, NodeLog.erase_erase]

@[simp] theorem erase_pc (m : Machine) : m.erase.pc = m.pc := rfl
@[simp] theorem erase_pos (m : Machine) : m.erase.pos = m.pos := rfl
@[simp] theorem erase_furthest (m : Machine) : m.erase.furthest = m.furthest := rfl

theorem frame_erase (m : Machine) (alternative : Nat) : m.erase.frame alternative = m.frame alternative := by
  simp only [frame, Stacks.frame, erase, NodeLog.erase, Array.size_map]

theorem erase_restore (m : Machine) (f : Frame) : (m.restore f).erase = m.erase.restore f := by
  simp only [restore, erase, Stacks.restore, NodeLog.erase_truncate]

theorem erase_useMark (m : Machine) : m.useMark.erase = m.erase.useMark := by
  by_cases free : m.work.pinnedMarks < m.work.marks.size
  · have used : m.work.useMark = { m.work with marks := m.work.marks.pop } := if_pos free
    have used' : m.erase.work.useMark = { m.erase.work with marks := m.work.marks.pop } := if_pos free
    rw [useMark, useMark, used, used']
    rfl
  · have used : m.work.useMark = m.work := if_neg free
    have used' : m.erase.work.useMark = m.erase.work := if_neg free
    rw [useMark, useMark, used, used']

/-- Folding from the same place gives the same, whatever pool the node is made in. -/
theorem erase_foldFrom (m : Machine) (place start : Nat) :
    (m.foldFrom place start).erase = (m.erase.foldFrom place start).erase := by
  simp only [foldFrom, erase, NodeLog.erase_push, NodeLog.erase_truncate, NodeLog.erase_erase]
  rfl

/-! ## Instructions -/

theorem map_take (m : Machine) (test : Bool) (count : Nat) :
    (m.take test count).map .erase = m.erase.take test count := by
  cases test <;> rfl

theorem map_refuse (m : Machine) (test : Bool) : (m.refuse test).map .erase = m.erase.refuse test := by
  cases test <;> rfl

theorem map_skip (m : Machine) (test : Bool) (count : Nat) :
    (m.skip test count).map .erase = m.erase.skip test count := by
  cases test <;> rfl

theorem map_takeText (m : Machine) (text? : Option Bytes) :
    (m.takeText text?).map .erase = m.erase.takeText text? := by
  cases text? <;> rfl

/-- Whether the instruction makes a node of what is in the innermost opened one. -/
def Folds (m : Machine) (i : Instruction) : Prop := i = .nodeClose ∧ m.work.log.innermost? ≠ none

end Machine

namespace Setting

variable {s : Setting} {m m' : Machine} {i : Instruction}

/-- Without room in the pool no node is made. -/
theorem perform_full (folds : m.Folds i) (full : m.pool.isFull = true) :
    s.perform i m = .stop (.poolExhausted m.pool.size) m := by
  obtain ⟨rfl, hi⟩ := folds
  cases hinner : m.work.log.innermost? with
  | none => exact absurd hinner hi
  | some inner => simp only [perform, Machine.closeFault?, hinner, full, if_true]

/-- All other instructions do not look at ids. -/
theorem map_perform (h : i ≠ .nodeClose) : (s.perform i m).map .erase = s.perform i m.erase := by
  cases i with
  | exit | jump | fail | mark | zeroMoreCharSet => rfl
  | any | charRange | charSet | string => exact m.map_take ..
  | notCharSet | notString => exact m.map_refuse ..
  | optionalCharSet | optionalString => exact m.map_skip ..
  | is | isa => exact m.map_takeText ..
  | tag label => exact congrArg Effect.next (by simp only [Machine.pushEntry, Machine.erase, NodeLog.erase_push]; rfl)
  | value label => exact congrArg Effect.next (by simp only [Machine.pushEntry, Machine.erase, NodeLog.erase_push]; rfl)
  | ret | commit | failTwice =>
    simp only [perform, Machine.erase]
    split <;> rfl
  | call =>
    rw [perform, apply_ite (Effect.map Machine.erase)]
    rfl
  | mappedChoice table =>
    have hnext : s.next? m.erase = s.next? m := rfl
    cases hget : (s.next? m).bind table.get? with
    | some target => simp only [perform, hnext, hget, Effect.map]
    | none => simp only [perform, hnext, hget, Effect.map]
  | choice alternative =>
    rw [perform, perform, Machine.frame_erase, apply_ite (Effect.map Machine.erase)]
    rfl
  | partialCommit target =>
    simp only [perform, Machine.refreshFrame, Machine.frame_erase]
    simp only [Machine.erase]
    split <;> rfl
  | backCommit target =>
    have hframes : m.erase.work.backtrack = m.work.backtrack := rfl
    rw [perform, perform, hframes]
    split
    · exact congrArg (Effect.goto target) (Machine.erase_restore ..)
    · rfl
  | nodeOpen =>
    have hopen : m.openNode.erase = m.erase.openNode := by
      simp only [Machine.openNode, Machine.erase, NodeLog.erase_openNode]
    rw [perform, perform, apply_ite (Effect.map Machine.erase), ← hopen]
    rfl
  | define table =>
    have hmarks : m.erase.work.marks = m.work.marks := rfl
    rw [perform, perform, hmarks]
    split
    · rfl
    · rw [apply_ite (Effect.map Machine.erase), ← Machine.erase_useMark]
      rfl
  | scopeBegin =>
    rw [perform, apply_ite (Effect.map Machine.erase)]
    rfl
  | scopeEnd =>
    simp only [perform, Machine.erase]
    split <;> rfl
  | nodeClose => exact absurd rfl h

/-- An instruction does the same to a machine and to its erasure, if there is room for the node that it makes. -/
theorem perform_erase (room : m.Folds i → m.pool.isFull = false) :
    (s.perform i m).map .erase = (s.perform i m.erase).map .erase := by
  by_cases h : i = .nodeClose
  · subst h
    have hinner : m.erase.work.log.innermost? = m.work.log.innermost? := m.work.log.innermost?_erase
    simp only [perform, Machine.closeFault?, Machine.closeNode, hinner]
    cases hi : m.work.log.innermost? with
    | none => simp only [Effect.map, Machine.erase_erase, Machine.erase_pc]
    | some inner =>
      have full : m.pool.isFull = false := room ⟨rfl, hi ▸ Option.some_ne_none inner⟩
      have full' : m.erase.pool.isFull = false := rfl
      simp only [full, full', Bool.false_eq_true, if_false, Effect.map]
      exact congrArg Effect.next (m.erase_foldFrom ..)
  · rw [← map_perform h]
    cases s.perform i m <;> simp only [Effect.map, Machine.erase_erase]

/-! ## Steps -/

/-- What is done about an instruction's effect does not look at ids. -/
theorem map_settle (e : Effect) : e.settle.map .erase = (e.map .erase).settle := by
  cases e with
  | next | goto | accept | stop => rfl
  | fail m =>
    simp only [Effect.settle, Effect.map, Machine.backtrack]
    have hframes : m.erase.noteCursor.work.backtrack = m.noteCursor.work.backtrack := rfl
    rw [hframes]
    split
    · next f _ =>
      have hrestore : (m.noteCursor.popFrame.restore f).erase = m.erase.noteCursor.popFrame.restore f :=
        Machine.erase_restore ..
      exact congrArg (fun x : Machine => Transition.running { x with pc := f.alternative }) hrestore
    · rfl

/-- A step does the same to a machine and to its erasure, if there is room for the node that it makes. -/
theorem step_erase (room : ∀ i, s.program.at? m.pc = some i → m.Folds i → m.pool.isFull = false) :
    (s.step m).map .erase = (s.step m.erase).map .erase := by
  cases code : s.program.at? m.pc with
  | none => simp only [step, code, Machine.erase_pc, Transition.map, Machine.erase_erase]
  | some i =>
    rw [step_of_code code, step_of_code (m := m.erase) code, map_settle, map_settle, perform_erase (room i code)]

end Setting

end PegMachine
