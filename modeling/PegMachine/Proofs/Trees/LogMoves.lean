import PegMachine.Proofs.Trees.TreeLog
/-!
  What a move does to the log.

  Most moves do nothing to the node log and to the frames that cut it back. `LogMove` lists the few things that
  can happen to them, each with what the builder does beside it, and forgets which instruction did it. So an
  invariant of the log, of the pool, or of the trees that are built has one case for each of these things
  (`logMove_of_move`), not one for each instruction.
-/
namespace PegMachine

/-- The machine `x` has the cursor, the log, the frames and the pool of `m`. -/
structure Machine.SameLog (m x : Machine) : Prop where
  pos : x.pos = m.pos
  log : x.work.log = m.work.log
  backtrack : x.work.backtrack = m.work.backtrack
  pool : x.pool = m.pool

namespace Setting

/-- What a move makes of log, frames, pool and cursor, and what it makes of the builder. -/
inductive LogMove (s : Setting) (m : Machine) (b : TreeBuilder) : Machine → TreeBuilder → Prop where
  /-- Nothing happened to the log, and the cursor did not go back. -/
  | kept {x : Machine} (log : x.work.log = m.work.log) (backtrack : x.work.backtrack = m.work.backtrack)
    (pool : x.pool = m.pool) (forward : m.pos ≤ x.pos) : LogMove s m b x b
  | tagged {x : Machine} (label : String) (same : (m.pushEntry (.tag label)).SameLog x) :
    LogMove s m b x (b.add (.tag label))
  | valued {x : Machine} (label : String) (same : (m.pushEntry (.value label)).SameLog x) :
    LogMove s m b x (b.add (.value label))
  | opened {x : Machine} (same : m.openNode.SameLog x) : LogMove s m b x (b.add (.opened m.pos))
  | closed {x : Machine} (place start : Nat) (code : s.program.at? m.pc = some .nodeClose)
    (innermost : m.work.log.innermost? = some (place, start)) (same : (m.foldFrom place start).SameLog x) :
    LogMove s m b x { b with log := b.log.close m.pos }
  | saved {x : Machine} (alternative : Nat) (same : (m.pushFrame (m.frame alternative)).SameLog x) :
    LogMove s m b x b.save
  | dropped {x : Machine} (same : m.popFrame.SameLog x) : LogMove s m b x b.drop
  | refreshed {x : Machine} (f : Frame) (same : (m.refreshFrame f).SameLog x) : LogMove s m b x b.drop.save
  | restored {x : Machine} (f : Frame) (top : m.work.backtrack.back? = some f)
    (same : (m.popFrame.restore f).SameLog x) : LogMove s m b x b.restore
  /-- The top frame was dropped and the one below it restored. -/
  | restoredNext {x : Machine} (f : Frame) (next : m.popFrame.work.backtrack.back? = some f)
    (same : (m.popFrame.popFrame.restore f).SameLog x) : LogMove s m b x b.drop.restore

variable {s : Setting} {m m' : Machine} {i : Instruction}

/-- Every move does one of these things to the log, and the builder does the same. -/
theorem logMove_of_move (code : s.program.at? m.pc = some i) (h : s.Move m i m') (b : TreeBuilder) :
    s.LogMove m b m' (s.build m b) := by
  have goesOn (never : i.fails = false) (notTwice : i ≠ .failTwice) : s.build m b = b.after m.pos i :=
    build_of_goesOn code (fails_of_not_fails never notTwice) b
  cases h with
  | consumed i count looks done =>
    rw [build_of_goesOn code (by rw [done]; rfl), after_of_fails (Instruction.fails_of_consumes looks)]
    exact .kept rfl rfl rfl (Nat.le_add_right ..)
  | switched table b target byte entry =>
    rw [build_of_goesOn code (by simp only [perform, byte, Option.bind_some, entry]; rfl)]
    exact .kept rfl rfl rfl (Nat.le_refl _)
  | failed i f fails done top =>
    rw [build_of_fails code (by rw [done]; rfl), after_of_fails fails]
    exact .restored f top ⟨rfl, rfl, rfl, rfl⟩
  | failedTwice f g top next =>
    rw [build_of_fails code (by rw [perform, top]; rfl)]
    exact .restoredNext f next ⟨rfl, rfl, rfl, rfl⟩
  | jumped | called | returned | marked | scopeBegun | scopeEnded =>
    rw [goesOn rfl Instruction.noConfusion]
    exact .kept rfl rfl rfl (Nat.le_refl _)
  | defined =>
    rw [goesOn rfl Instruction.noConfusion]
    exact .kept m.useMark_log m.useMark_backtrack rfl (Nat.le_refl _)
  | chose alternative =>
    rw [goesOn rfl Instruction.noConfusion]
    exact .saved alternative ⟨rfl, rfl, rfl, rfl⟩
  | committed =>
    rw [goesOn rfl Instruction.noConfusion]
    exact .dropped ⟨rfl, rfl, rfl, rfl⟩
  | refreshed target f =>
    rw [goesOn rfl Instruction.noConfusion]
    exact .refreshed f ⟨rfl, rfl, rfl, rfl⟩
  | wentBack target f top =>
    rw [goesOn rfl Instruction.noConfusion]
    exact .restored f top ⟨rfl, rfl, rfl, rfl⟩
  | opened =>
    rw [goesOn rfl Instruction.noConfusion]
    exact .opened ⟨rfl, rfl, rfl, rfl⟩
  | closed place start innermost =>
    rw [goesOn rfl Instruction.noConfusion]
    exact .closed place start code innermost ⟨rfl, rfl, rfl, rfl⟩
  | tagged label =>
    rw [goesOn rfl Instruction.noConfusion]
    exact .tagged label ⟨rfl, rfl, rfl, rfl⟩
  | valued label =>
    rw [goesOn rfl Instruction.noConfusion]
    exact .valued label ⟨rfl, rfl, rfl, rfl⟩

end Setting

end PegMachine
