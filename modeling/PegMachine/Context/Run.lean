import PegMachine.Context
import PegMachine.Machine.Root
/-!
  Runs of a program over a context.

  A run starts at the context's start point and cursor. It matches and gives a tree, or it fails, or an
  error stops it (`Outcome`). A program can loop for ever, so a run is given a number of steps and yields
  nothing if they do not suffice.

  A run can be watched: `runWatched` shows each instruction before it is carried out, and each backtrack.
  The watcher sees the run and cannot change it.

  Correspondence (program ↔ here):
    `Machine.new`      ↔ `machine`, `startPos`
    `run`, `run_inner` ↔ `run`, `conclude`, `after`
    `run_profiled`     ↔ `runWatched`
-/
namespace PegMachine

inductive Outcome where
  | matched (tree : Tree)
  | failed (failure : ParseFailure)
  | stopped (error : RunError)
  deriving DecidableEq, Repr

/-! ## Watching -/

/-- What a watcher is shown. -/
inductive Moment where
  /-- The instruction at `pc` is about to be carried out with the cursor at `pos`. -/
  | dispatched (instruction : Instruction) (pc pos : Nat)
  /-- A backtrack takes the cursor from one position to another and resumes at the alternative. -/
  | backtracked (leaving entering alternative : Nat)
  deriving DecidableEq, Repr

/-- The backtrack that an instruction causes, if it does. -/
def Effect.backtrack? : Effect → Option Moment
  | fail m => m.work.backtrack.back?.map fun f => .backtracked m.pos f.pos f.alternative
  | _ => none

namespace Setting

variable {σ : Type}

/-- Steps until the run is over, at most `fuel` times, and shows every moment to the watcher. -/
def executeWatched (s : Setting) (watch : σ → Moment → σ) :
    (fuel : Nat) → σ → Machine → Option (σ × Halt)
  | 0, _, _ => none
  | fuel + 1, seen, m =>
    match s.program.at? m.pc with
    | none => some (seen, ⟨m, .error (.pcOutOfBounds m.pc s.program.size)⟩)
    | some i =>
      let seen := watch seen (.dispatched i m.pc m.pos)
      let effect := s.dispatch i m
      let seen := match effect.backtrack? with
        | some moment => watch seen moment
        | none => seen
      match effect.settle with
      | .running m => s.executeWatched watch fuel seen m
      | .halted matched m => some (seen, ⟨m, .ok matched⟩)
      | .stopped error m => some (seen, ⟨m, .error error⟩)

end Setting

/-! ## Running -/

namespace Context

def setting (c : Context) (program : Program) : Setting := ⟨program, c.input, c.config⟩

/-- Where a run starts: the cursor, or the end of the input if the cursor is past it. -/
def startPos (c : Context) : Nat := min c.pos c.input.size

def machine (c : Context) : Machine := .start c.startPoint c.startPos c.pool

/-- The context after a run that ended with the machine: cursor and pool are kept, the stacks are
    cleared. -/
def after (c : Context) (m : Machine) : Context :=
  { c with pos := m.pos, work := .empty, root := none, pool := m.pool }

/-- What the end of a run means for the context. If the tree cannot be made the stacks stay as they are. -/
def conclude (c : Context) (h : Halt) : Outcome × Context :=
  match h.result with
  | .error error => (.stopped error, c.after h.machine)
  | .ok false => (.failed ⟨h.machine.pos, h.machine.furthest⟩, c.after h.machine)
  | .ok true =>
    match h.machine.finish c.startPos with
    | (m, .ok tree) => (.matched tree, { c.after m with root := some tree })
    | (m, .error error) => (.stopped error, { c.after m with work := m.work })

/-- Runs the program over the context for at most `fuel` steps. -/
def run (c : Context) (program : Program) (fuel : Nat) : Option (Outcome × Context) :=
  if c.startPoint = 0 then some (.stopped .noStartPoint, c)
  else ((c.setting program).execute fuel c.machine).map c.conclude

/-- Runs the program over the context and gives what the watcher made of it besides. -/
def runWatched {σ : Type} (c : Context) (program : Program) (watch : σ → Moment → σ) (seen : σ)
    (fuel : Nat) : Option (σ × Outcome × Context) :=
  if c.startPoint = 0 then some (seen, .stopped .noStartPoint, c)
  else
    ((c.setting program).executeWatched watch fuel seen c.machine).map fun (seen, h) =>
      (seen, c.conclude h)

/-- A number of steps to try a run with first. -/
def patience : Nat := 1000000000000000000

end Context

end PegMachine
