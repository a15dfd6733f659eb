import PegMachine.Context.Run
/-!
  Profiles: how often each opcode ran, and how often right after each other one.

  Counts add up over several runs. A pair is two opcodes that ran one right after the other in the same
  run: at the end of a run the last opcode is forgotten.

  Correspondence (program ↔ here):
    `OpcodeProfile`, `new`, `reset`     ↔ `Profile`, `empty`
    `record`, `end_run`                 ↔ `record`, `endRun`
    `count`, `pair`, `total`, `hottest` ↔ `count`, `pair`, `total`, `hottest`
    `run_profiled`                      ↔ `Context.runProfiled`
-/
namespace PegMachine

/-- An opcode's place in the order of bytes. -/
def Opcode.index (op : Opcode) : Fin 30 := ⟨op.ctorIdx, by cases op <;> decide⟩

structure Profile where
  /-- How often each opcode ran. -/
  counts : Vector Nat 30
  /-- How often the second opcode ran right after the first; one row for each first opcode. -/
  pairs : Vector Nat 900
  /-- The opcode that ran last in the current run. -/
  last : Option Opcode
  deriving DecidableEq, Repr

namespace Profile

def empty : Profile := ⟨Vector.replicate 30 0, Vector.replicate 900 0, none⟩

/-- The place of a pair among the pairs. -/
def pairIndex (first second : Opcode) : Fin 900 :=
  ⟨first.index.val * 30 + second.index.val, by omega⟩

/-- How often the opcode ran. -/
def count (p : Profile) (op : Opcode) : Nat := p.counts[op.index]

/-- How often the second opcode ran right after the first. -/
def pair (p : Profile) (first second : Opcode) : Nat := p.pairs[pairIndex first second]

/-- Counts one more run of the opcode. -/
def countOne (p : Profile) (op : Opcode) : Profile :=
  { p with counts := p.counts.set op.index (p.count op + 1) }

/-- Counts one more pair. -/
def countPair (p : Profile) (first second : Opcode) : Profile :=
  { p with pairs := p.pairs.set (pairIndex first second) (p.pair first second + 1) }

/-- Counts an opcode that is about to run. -/
def record (p : Profile) (op : Opcode) : Profile :=
  match p.last with
  | some first => { (p.countOne op).countPair first op with last := some op }
  | none => { p.countOne op with last := some op }

/-- Forgets the last opcode, so that the next run's first is not paired with it. -/
def endRun (p : Profile) : Profile := { p with last := none }

def total (p : Profile) : Nat := p.counts.foldl (· + ·) 0

/-- Counts what a watched run shows. -/
def watch (p : Profile) : Moment → Profile
  | .dispatched i _ _ => p.record i.opcode
  | .backtracked _ _ _ => p

/-- The opcodes that ran, the most frequent first and in the order of their bytes where equally so. -/
def hottest (p : Profile) : List (Opcode × Nat) :=
  ((Opcode.all.map fun op => (op, p.count op)).filter (0 < ·.2)).mergeSort fun a b => b.2 ≤ a.2

end Profile

/-- Runs the program over the context and counts its instructions. -/
def Context.runProfiled (c : Context) (program : Program) (profile : Profile) (fuel : Nat) :
    Option (Profile × Outcome × Context) :=
  (c.runWatched program Profile.watch profile fuel).map fun (profile, result) => (profile.endRun, result)

end PegMachine
