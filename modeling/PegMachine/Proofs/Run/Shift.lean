import PegMachine.Proofs.Pool.Shift
import PegMachine.Proofs.Run.Erasure
import PegMachine.Proofs.Run.Lookahead
/-!
  Machines moved along the input.

  `shift p` adds `p` to every position that a machine holds: the cursor and the furthest cursor, the positions in
  frames, marks and opened nodes, and those of the nodes in the pool. `Setting.behind` puts bytes before the input.
  What is proved:
    1. the input behind `p` other bytes is at `pos + p` what it was at `pos`;
    2. moving commutes with everything an instruction does to a machine, and `perform_shift`: so behind `p` bytes
       an instruction does to the machine that is moved by `p` what it does to the machine without them;
    3. `step_shift`, `execute_shift`: and so do a step and a run.
-/
namespace PegMachine

/-! ## The input behind other bytes -/

namespace Input

variable {front input : Input}

theorem drop_behind (pos : Nat) :
    (front ++ input : Input).toList.drop (pos + front.size) = input.toList.drop pos := by
  rw [Array.toList_append, ← Array.length_toList, Nat.add_comm, List.drop_length_add_append]

theorem getElem?_behind (pos : Nat) : (front ++ input : Input)[pos + front.size]? = input[pos]? := by
  rw [getElem?_eq_head?, drop_behind, ← getElem?_eq_head?]

theorem hasAt_behind (pos : Nat) (literal : Bytes) :
    hasAt (front ++ input) (pos + front.size) literal = hasAt input pos literal := by
  rw [hasAt_eq, drop_behind, ← hasAt_eq]

theorem skipWhile_behind (p : UInt8 → Bool) (pos : Nat) :
    skipWhile p (front ++ input) (pos + front.size) = skipWhile p input pos + front.size := by
  rw [skipWhile_eq, drop_behind, skipWhile_eq, Nat.add_right_comm]

theorem slice?_behind (start stop : Nat) :
    slice? (front ++ input) (start + front.size) (stop + front.size) = slice? input start stop := by
  have inside : start + front.size ≤ stop + front.size ∧ stop + front.size ≤ (front ++ input : Input).size ↔
      start ≤ stop ∧ stop ≤ input.size := by
    rw [Array.size_append]
    omega
  have stretch : (front ++ input : Input).extract (start + front.size) (stop + front.size) =
      input.extract start stop := by
    apply Array.toList_inj.1
    rw [Array.toList_extract, Array.toList_extract, List.extract_eq_take_drop, List.extract_eq_take_drop,
      drop_behind, Nat.add_sub_add_right]
  simp only [slice?, inside, stretch]

end Input

/-! ## Moving -/

def LogEntry.shift (p : Nat) : LogEntry → LogEntry
  | opened start => opened (start + p)
  | entry => entry

def Frame.shift (p : Nat) (f : Frame) : Frame := { f with pos := f.pos + p }

def Stacks.shift (p : Nat) (work : Stacks) : Stacks :=
  { work with
    backtrack := work.backtrack.map (.shift p)
    log := work.log.map (.shift p)
    marks := work.marks.map (· + p) }

/-- The machine with every position that it holds moved by `p`. -/
def Machine.shift (p : Nat) (m : Machine) : Machine :=
  { m with pos := m.pos + p, furthest := m.furthest + p, work := m.work.shift p, pool := m.pool.shift p }

/-- The setting with other bytes before its input. -/
def Setting.behind (front : Input) (s : Setting) : Setting := { s with input := front ++ s.input }

variable {p : Nat}

namespace LogEntry

theorem start?_shift (entry : LogEntry) : (entry.shift p).start? = entry.start?.map (· + p) := by cases entry <;> rfl

theorem lastTag_shift (entries : List LogEntry) : lastTag (entries.map (shift p)) = lastTag entries := by
  have same : tag? ∘ shift p = tag? := funext fun entry => by cases entry <;> rfl
  rw [lastTag, List.filterMap_map, same, lastTag]

theorem lastValue_shift (entries : List LogEntry) : lastValue (entries.map (shift p)) = lastValue entries := by
  have same : value? ∘ shift p = value? := funext fun entry => by cases entry <;> rfl
  rw [lastValue, List.filterMap_map, same, lastValue]

theorem nodes_shift (entries : List LogEntry) : nodes (entries.map (shift p)) = nodes entries := by
  have same : node? ∘ shift p = node? := funext fun entry => by cases entry <;> rfl
  rw [nodes, List.filterMap_map, same, nodes]

end LogEntry

namespace Machine

@[simp] theorem shift_pc (m : Machine) : (m.shift p).pc = m.pc := rfl
@[simp] theorem shift_pos (m : Machine) : (m.shift p).pos = m.pos + p := rfl
@[simp] theorem shift_depth (m : Machine) : (m.shift p).work.log.depth = m.work.log.depth := rfl
@[simp] theorem shift_symbols (m : Machine) : (m.shift p).work.symbols = m.work.symbols := rfl
@[simp] theorem shift_pool (m : Machine) : (m.shift p).pool = m.pool.shift p := rfl

@[simp] theorem backtrack_size_shift (m : Machine) : (m.shift p).work.backtrack.size = m.work.backtrack.size :=
  Array.size_map

theorem topFrame_shift (m : Machine) : (m.shift p).work.backtrack.back? = m.work.backtrack.back?.map (.shift p) :=
  Array.back?_map

theorem lastMark_shift (m : Machine) : (m.shift p).work.marks.back? = m.work.marks.back?.map (· + p) :=
  Array.back?_map

theorem innermost?_shift (m : Machine) :
    (m.shift p).work.log.innermost? = m.work.log.innermost?.map (Prod.map id (· + p)) :=
  NodeLog.innermost?_map LogEntry.start?_shift _

theorem shift_empty : Stacks.empty.shift p = .empty := by
  simp only [Stacks.shift, Stacks.empty, NodeLog.map, NodeLog.empty, List.map_toArray, List.map_nil]

theorem shift_start (pc pos : Nat) (pool : Pool) :
    (Machine.start pc pos pool).shift p = .start pc (pos + p) (pool.shift p) := by
  simp only [start, shift, shift_empty]

/-! ## Single operations -/

theorem advance_shift (m : Machine) (count : Nat) : (m.shift p).advance count = (m.advance count).shift p := by
  simp only [advance, shift, Nat.add_right_comm]

theorem frame_shift (m : Machine) (alternative : Nat) :
    (m.shift p).frame alternative = (m.frame alternative).shift p := by
  simp only [frame, Stacks.frame, shift, Stacks.shift, NodeLog.map, Frame.shift, Array.size_map]

theorem pushFrame_shift (m : Machine) (f : Frame) : (m.shift p).pushFrame (f.shift p) = (m.pushFrame f).shift p := by
  simp only [pushFrame, shift, Stacks.shift, Array.map_push]

theorem popFrame_shift (m : Machine) : (m.shift p).popFrame = m.popFrame.shift p := by
  simp only [popFrame, shift, Stacks.shift, Array.map_pop]

theorem refreshFrame_shift (m : Machine) (old : Frame) :
    (m.shift p).refreshFrame (old.shift p) = (m.refreshFrame old).shift p := by
  have fresh : (m.shift p).frame (old.shift p).alternative = (m.frame old.alternative).shift p := frame_shift ..
  rw [refreshFrame, fresh, popFrame_shift, pushFrame_shift, refreshFrame]

theorem restore_shift (m : Machine) (f : Frame) : (m.shift p).restore (f.shift p) = (m.restore f).shift p := by
  simp only [restore, shift, Stacks.restore, Stacks.shift, Frame.shift, NodeLog.map_truncate, map_shrink]

theorem pushEntry_shift (m : Machine) (entry : LogEntry) :
    (m.shift p).pushEntry (entry.shift p) = (m.pushEntry entry).shift p := by
  simp only [pushEntry, shift, Stacks.shift, NodeLog.map_push]

theorem openNode_shift (m : Machine) : (m.shift p).openNode = m.openNode.shift p := by
  have opened : LogEntry.shift p (.opened m.pos) = .opened (m.pos + p) := rfl
  simp only [openNode, shift, Stacks.shift, NodeLog.map_openNode opened]

theorem pushMark_shift (m : Machine) : (m.shift p).pushMark = m.pushMark.shift p := by
  simp only [pushMark, shift, Stacks.shift, Array.map_push]

theorem pinnedMarks_shift (m : Machine) : (m.shift p).work.pinnedMarks = m.work.pinnedMarks := by
  rw [Stacks.pinnedMarks, topFrame_shift, Stacks.pinnedMarks]
  cases m.work.backtrack.back? <;> rfl

theorem useMark_shift (m : Machine) : (m.shift p).useMark = m.useMark.shift p := by
  have size : (m.shift p).work.marks.size = m.work.marks.size := Array.size_map
  rw [useMark, useMark, Stacks.useMark, Stacks.useMark, pinnedMarks_shift, size]
  split
  · simp only [shift, Stacks.shift, Array.map_pop]
  · rfl

theorem foldFrom_shift (m : Machine) (place start : Nat) :
    (m.shift p).foldFrom place (start + p) = (m.foldFrom place start).shift p := by
  simp only [foldFrom, shift, Stacks.shift, NodeLog.entriesFrom_map, LogEntry.lastTag_shift, LogEntry.lastValue_shift,
    LogEntry.nodes_shift, Pool.push_shift, Pool.size_shift, NodeLog.map_push, NodeLog.map_truncate]
  rfl

theorem closeFault?_shift (m : Machine) : (m.shift p).closeFault? = m.closeFault? := by
  rw [closeFault?, closeFault?, innermost?_shift, shift_pool, Pool.isFull_shift, Pool.size_shift]
  cases m.work.log.innermost? <;> rfl

theorem closeNode_shift (m : Machine) : (m.shift p).closeNode = m.closeNode.shift p := by
  rw [closeNode, closeNode, innermost?_shift]
  cases m.work.log.innermost? with
  | none => rfl
  | some inner => exact foldFrom_shift ..

theorem noteCursor_shift (m : Machine) : (m.shift p).noteCursor = m.noteCursor.shift p := by
  simp only [noteCursor, shift, Nat.add_max_add_right]

theorem backtrack_shift (m : Machine) : (m.shift p).backtrack = m.backtrack.map (.shift p) := by
  rw [backtrack, backtrack, topFrame_shift]
  cases m.work.backtrack.back? with
  | none => rfl
  | some f =>
    have restored : (m.shift p).popFrame.restore (f.shift p) = (m.popFrame.restore f).shift p := by
      rw [popFrame_shift, restore_shift]
    exact congrArg (fun x : Machine => Transition.running { x with pc := f.alternative }) restored

theorem take_shift (m : Machine) (test : Bool) (count : Nat) :
    (m.shift p).take test count = (m.take test count).map (.shift p) := by
  rw [take, advance_shift]
  cases test <;> rfl

theorem refuse_shift (m : Machine) (test : Bool) : (m.shift p).refuse test = (m.refuse test).map (.shift p) := by
  cases test <;> rfl

theorem skip_shift (m : Machine) (test : Bool) (count : Nat) :
    (m.shift p).skip test count = (m.skip test count).map (.shift p) := by
  rw [skip, advance_shift]
  cases test <;> rfl

theorem takeText_shift (m : Machine) (text? : Option Bytes) :
    (m.shift p).takeText text? = (m.takeText text?).map (.shift p) := by
  cases text? with
  | none => rfl
  | some text => exact congrArg Effect.next (advance_shift ..)

end Machine

/-! ## Instructions -/

namespace Setting

variable {front : Input} (s : Setting) (m : Machine)

theorem next?_shift : (s.behind front).next? (m.shift front.size) = s.next? m := Input.getElem?_behind ..

theorem sees_shift (p : UInt8 → Bool) : (s.behind front).sees (m.shift front.size) p = s.sees m p := by
  rw [sees, next?_shift, sees]

theorem seesLiteral_shift : (s.behind front).seesLiteral (m.shift front.size) = s.seesLiteral m :=
  funext (Input.hasAt_behind m.pos)

theorem runLength_shift (set : CharSet) : (s.behind front).runLength (m.shift front.size) set = s.runLength m set := by
  have ends : (s.behind front).input.skipWhile set.contains (m.pos + front.size) =
      s.input.skipWhile set.contains m.pos + front.size := Input.skipWhile_behind ..
  rw [runLength, Machine.shift_pos, ends, Nat.add_sub_add_right, runLength]

theorem markedText_shift (mark : Nat) :
    (s.behind front).markedText (m.shift front.size) (mark + front.size) = s.markedText m mark :=
  congrArg (Option.getD · []) (Input.slice?_behind mark m.pos)

theorem latestText?_shift (table : String) :
    (s.behind front).latestText? (m.shift front.size) table = s.latestText? m table := by
  rw [latestText?, seesLiteral_shift, Machine.shift_symbols, latestText?]

theorem anyText?_shift (table : String) :
    (s.behind front).anyText? (m.shift front.size) table = s.anyText? m table := by
  rw [anyText?, seesLiteral_shift, Machine.shift_symbols, anyText?]

/-- Behind other bytes an instruction does the same to the machine that is moved by as many. -/
theorem perform_shift (i : Instruction) :
    (s.behind front).perform i (m.shift front.size) = (s.perform i m).map (.shift front.size) := by
  cases i with
  | exit | jump | fail => rfl
  | any | charRange | charSet => simp only [perform, sees_shift, Machine.take_shift]
  | string => simp only [perform, seesLiteral_shift, Machine.take_shift]
  | notCharSet => simp only [perform, sees_shift, Machine.refuse_shift]
  | notString => simp only [perform, seesLiteral_shift, Machine.refuse_shift]
  | optionalCharSet => simp only [perform, sees_shift, Machine.skip_shift]
  | optionalString => simp only [perform, seesLiteral_shift, Machine.skip_shift]
  | zeroMoreCharSet => simp only [perform, runLength_shift, Machine.advance_shift]; rfl
  | is => simp only [perform, latestText?_shift, Machine.takeText_shift]
  | isa => simp only [perform, anyText?_shift, Machine.takeText_shift]
  | mappedChoice table =>
    simp only [perform, next?_shift]
    cases (s.next? m).bind table.get? <;> rfl
  | call target =>
    rw [perform, perform, apply_ite (Effect.map _)]
    rfl
  | ret =>
    have hcalls : (m.shift front.size).work.calls = m.work.calls := rfl
    rw [perform, perform, hcalls]
    cases m.work.calls.back? <;> rfl
  | choice alternative =>
    simp only [perform, Machine.backtrack_size_shift, Machine.frame_shift, Machine.pushFrame_shift,
      apply_ite (Effect.map _)]
    rfl
  | commit | failTwice =>
    simp only [perform, Machine.topFrame_shift, Machine.popFrame_shift]
    cases m.work.backtrack.back? <;> rfl
  | partialCommit target =>
    simp only [perform, Machine.topFrame_shift]
    cases m.work.backtrack.back? with
    | none => rfl
    | some f => exact congrArg (Effect.goto target) (m.refreshFrame_shift f)
  | backCommit target =>
    simp only [perform, Machine.topFrame_shift, Machine.popFrame_shift]
    cases m.work.backtrack.back? with
    | none => rfl
    | some f => exact congrArg (Effect.goto target) (m.popFrame.restore_shift f)
  | nodeOpen =>
    simp only [perform, Machine.shift_depth, Machine.openNode_shift, apply_ite (Effect.map _)]
    rfl
  | nodeClose =>
    simp only [perform, Machine.closeFault?_shift, Machine.closeNode_shift]
    cases m.closeFault? <;> rfl
  | tag label => exact congrArg Effect.next (m.pushEntry_shift (.tag label))
  | value label => exact congrArg Effect.next (m.pushEntry_shift (.value label))
  | mark => exact congrArg Effect.next m.pushMark_shift
  | define table =>
    simp only [perform, Machine.lastMark_shift, Machine.useMark_shift]
    cases m.work.marks.back? with
    | none => rfl
    | some mark =>
      simp only [Option.map_some, markedText_shift, Machine.shift_symbols, apply_ite (Effect.map _)]
      rfl
  | scopeBegin =>
    simp only [perform, Machine.shift_symbols, apply_ite (Effect.map _)]
    rfl
  | scopeEnd =>
    simp only [perform, Machine.shift_symbols]
    cases SymbolEntry.lastScope? m.work.symbols <;> rfl

/-! ## Steps and runs -/

theorem settle_shift {p : Nat} (e : Effect) : (e.map (.shift p)).settle = e.settle.map (.shift p) := by
  cases e with
  | next m => simp only [Effect.map, Effect.settle, Machine.noteCursor_shift]; rfl
  | goto target m => simp only [Effect.map, Effect.settle, Machine.noteCursor_shift]; rfl
  | fail m => simp only [Effect.map, Effect.settle, Machine.noteCursor_shift, Machine.backtrack_shift]
  | accept m => simp only [Effect.map, Effect.settle, Machine.noteCursor_shift]; rfl
  | stop error m => rfl

theorem step_shift : (s.behind front).step (m.shift front.size) = (s.step m).map (.shift front.size) := by
  have same : (s.behind front).program = s.program := rfl
  rw [step, step, same, Machine.shift_pc]
  cases s.program.at? m.pc with
  | none => rfl
  | some i => simp only [dispatch_eq, perform_shift, settle_shift]

/-- Behind other bytes the run of the machine that is moved by as many takes as many steps to the same end. -/
theorem execute_shift (fuel : Nat) : (s.behind front).execute fuel (m.shift front.size) =
    (s.execute fuel m).map fun halt => ⟨halt.machine.shift front.size, halt.result⟩ := by
  induction fuel generalizing m with
  | zero => rfl
  | succ fuel ih =>
    rw [execute, step_shift, execute]
    cases s.step m with
    | running m' => exact ih m'
    | halted | stopped => rfl

end Setting

end PegMachine
