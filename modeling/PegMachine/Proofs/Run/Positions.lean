import PegMachine.Proofs.Run.History
import PegMachine.Proofs.Run.Shift
/-!
  Runs do not depend on where in the input they begin.

  A run that begins at a position sees what a run over the rest of the input sees. What is proved:
    1. `finish_shift`: the result tree of a machine that is moved is the tree of the machine, moved;
    2. `run_behind`: a context that is put behind other bytes, with every position that it holds moved by as many,
       has the run of the context, moved;
    3. `position_independent`: so a run from the middle of the input is a run over the rest of it, moved. This also
       needs that the outcome does not depend on what else the two contexts hold.
-/
namespace PegMachine

variable {p : Nat}

/-! ## The tree at the end -/

namespace Machine

theorem closeOpens_shift (m : Machine) (count : Nat) :
    (m.shift p).closeOpens count = Prod.map (shift p) id (m.closeOpens count) := by
  induction count generalizing m with
  | zero => rfl
  | succ count ih =>
    rw [closeOpens, closeOpens, closeFault?_shift, closeNode_shift]
    cases m.closeFault? with
    | some error => rfl
    | none => exact ih _

theorem root?_shift (m : Machine) (start : Nat) :
    (m.shift p).root? (start + p) = (m.root? start).map (Prod.map id (Pool.shift p)) := by
  have entries : (m.shift p).work.log.entries.toList = m.work.log.entries.toList.map (.shift p) := Array.toList_map
  simp only [root?, entries, LogEntry.nodes_shift, LogEntry.lastTag_shift, LogEntry.lastValue_shift]
  split
  · rfl
  · exact Pool.acquire?_shift ..

theorem extract_shift (m : Machine) (start : Nat) :
    (m.shift p).extract (start + p) = Prod.map (shift p) (Except.map (Tree.shift p)) (m.extract start) := by
  rw [extract, extract, root?_shift]
  cases m.root? start with
  | none => simp only [Option.map_none, shift_pool, Pool.size_shift]; rfl
  | some made =>
    obtain ⟨node, pool⟩ := made
    simp only [Option.map_some, Prod.map, id_eq, Pool.finalize?_shift]
    cases pool.finalize? node <;> rfl

theorem finish_shift (m : Machine) (start : Nat) :
    (m.shift p).finish (start + p) = Prod.map (shift p) (Except.map (Tree.shift p)) (m.finish start) := by
  rw [finish, finish, shift_depth, closeOpens_shift]
  obtain ⟨x, fault?⟩ := m.closeOpens m.work.log.depth
  cases fault? with
  | some error => rfl
  | none => exact x.extract_shift start

end Machine

/-! ## Contexts -/

/-- The outcome with every position in it moved by `p`. -/
def Outcome.shift (p : Nat) : Outcome → Outcome
  | matched tree => matched (tree.shift p)
  | failed failure => failed ⟨failure.pos + p, failure.furthest + p⟩
  | stopped error => stopped error

namespace Context

variable {c d : Context} {program : Program} {fuel : Nat} {front : Input}

/-- The context with other bytes before its input, and every position that it holds moved by as many. -/
def behind (front : Input) (c : Context) : Context :=
  { c with
    input := front ++ c.input
    pos := c.pos + front.size
    work := c.work.shift front.size
    root := c.root.map (Tree.shift front.size)
    pool := c.pool.shift front.size }

theorem startPos_behind (c : Context) : (c.behind front).startPos = c.startPos + front.size := by
  have size : (c.behind front).input.size = c.input.size + front.size := by
    rw [behind, Array.size_append, Nat.add_comm]
  rw [startPos, size, startPos]
  exact Nat.add_min_add_right ..

theorem machine_behind (c : Context) : (c.behind front).machine = c.machine.shift front.size := by
  rw [machine, startPos_behind, machine, Machine.shift_start]
  rfl

theorem after_behind (c : Context) (m : Machine) :
    (c.behind front).after (m.shift front.size) = (c.after m).behind front := by
  simp only [after, behind, Machine.shift_empty]
  rfl

theorem conclude_behind (c : Context) (halt : Halt) :
    (c.behind front).conclude ⟨halt.machine.shift front.size, halt.result⟩ =
      Prod.map (.shift front.size) (behind front) (c.conclude halt) := by
  obtain ⟨m, result⟩ := halt
  cases result with
  | error error => exact congrArg (Prod.mk _) (after_behind ..)
  | ok matched =>
    cases matched with
    | false => exact congrArg (Prod.mk _) (after_behind ..)
    | true =>
      simp only [conclude, startPos_behind, Machine.finish_shift]
      obtain ⟨x, made⟩ := m.finish c.startPos
      cases made with
      | ok tree =>
        exact congrArg (fun e : Context => (Outcome.matched (tree.shift front.size),
          { e with root := some (tree.shift front.size) })) (c.after_behind x)
      | error error =>
        exact congrArg (fun e : Context => (Outcome.stopped error, { e with work := x.work.shift front.size }))
          (c.after_behind x)

/-- Behind other bytes a context has the same run, moved by as many. -/
theorem run_behind (c : Context) (program : Program) (fuel : Nat) (front : Input) :
    (c.behind front).run program fuel =
      (c.run program fuel).map (Prod.map (.shift front.size) (behind front)) := by
  have startPoint : (c.behind front).startPoint = c.startPoint := rfl
  have same : (c.behind front).setting program = (c.setting program).behind front := rfl
  rw [run, run, startPoint]
  split
  · rfl
  · rw [same, machine_behind, Setting.execute_shift, Option.map_map, Option.map_map]
    exact congrArg (Option.map · _) (funext c.conclude_behind)

/-- **Parsing is position independent.** Let two contexts run from the same start point with the same capacities,
    and let their pools hold as many nodes. Then a run of the one from `p` on takes as many steps as a run of the
    other over the rest of the input. Both match, with the same trees except that all starts and ends of the first
    are larger by `p`; or both fail, with positions that are larger by `p`; or the same error stops both. The
    cursors that they leave differ by `p`. -/
theorem position_independent (c d : Context) (program : Program) (fuel : Nat) (input : Input)
    (inside : p ≤ input.size) (startPoint : c.startPoint = d.startPoint) (config : c.config = d.config)
    (sizes : c.pool.size = d.pool.size) :
    (((c.setInput input).setPos p).run program fuel).map (fun result => (result.1, result.2.pos)) =
      ((d.setInput (input.extract p input.size)).run program fuel).map
        fun result => (result.1.shift p, result.2.pos + p) := by
  have size : (input.extract 0 p).size = p := by rw [Array.size_extract]; omega
  have whole : input.extract 0 p ++ input.extract p input.size = input := by
    rw [Array.extract_append_extract, Nat.zero_min, Nat.max_eq_right inside, Array.extract_size]
  have cursor : ((c.setInput input).setPos p).pos = p := Nat.min_eq_left inside
  by_cases loaded : c.startPoint = 0
  · have first : ((c.setInput input).setPos p).startPoint = 0 := loaded
    have second : (d.setInput (input.extract p input.size)).startPoint = 0 := startPoint ▸ loaded
    rw [run, if_pos first, run, if_pos second, Option.map_some, Option.map_some, cursor]
    exact congrArg (fun pos => some (Outcome.stopped RunError.noStartPoint, pos)) (Nat.zero_add p).symm
  · -- The other context, behind what stands before `p`, runs from the same place of the same input.
    have alike : ((c.setInput input).setPos p).Alike
        ((d.setInput (input.extract p input.size)).behind (input.extract 0 p)) := by
      refine ⟨whole.symm, ?_, startPoint, config⟩
      rw [startPos_behind, size, startPos, cursor]
      exact (Nat.min_eq_left inside).trans (by rw [startPos, setInput, Nat.zero_min, Nat.zero_add])
    have same := run_same program fuel alike loaded (sizes.trans Pool.size_shift.symm)
    rw [run_behind, size, Option.map_map] at same
    refine same.trans (congrArg (Option.map · _) (funext fun result => ?_))
    exact congrArg (fun q => (result.1.shift p, result.2.pos + q)) size

/-- Binds a byte in a node, runs ahead in an alternative that fails, and looks the byte up where it came back to. -/
def echoing : Program :=
  .ofList [.exit, .nodeOpen, .mark, .any, .define "T", .choice 9, .any, .any, .fail, .is "T", .nodeClose, .exit]

/-- A context that holds another node than the one of `reopeningContext`. -/
def otherContext : Context := { new {} with startPoint := 1, pool := .push .empty 4 4 none (some "other") [] }

theorem position_independent_echoing :
    let input : Input := #[0, 0, 97, 97, 98]
    let runFrom (p : Nat) := (((reopeningContext.setInput input).setPos p).run echoing 12).map fun result =>
      (result.1, result.2.pos)
    runFrom 2 = some (.matched ⟨2, 4, none, none, []⟩, 4) ∧ runFrom 3 = some (.failed ⟨4, 5⟩, 4) := by
  intro input runFrom
  have moved (p : Nat) (inside : p ≤ input.size) :=
    position_independent reopeningContext otherContext echoing 12 input inside rfl rfl rfl
  exact ⟨(moved 2 (by decide)).trans (by decide +kernel), (moved 3 (by decide)).trans (by decide +kernel)⟩

end Context

end PegMachine
