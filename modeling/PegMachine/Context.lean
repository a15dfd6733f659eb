import PegMachine.Machine
/-!
  Contexts: what stays between runs.

  A context holds the input and the cursor, where runs start, the capacities, the pool that all its runs
  share, and the tree of the last match. The stacks are of use only during a run, which begins by clearing
  them.

  Correspondence (program ↔ here):
    `ParsingContext`, `new`             ↔ `Context`, `new`
    `set_input`, `set_pos`, `take_root` ↔ `setInput`, `setPos`, `takeRoot`
    `reset_for_rerun`                   ↔ `rewind`
-/
namespace PegMachine

structure Context where
  input : Input
  pos : Nat
  /-- The index at which runs start; 0 as long as nothing is loaded. -/
  startPoint : Nat
  instructionCount : Nat
  /-- How many nodes the loaded program expects its runs to build. -/
  poolSizeHint : Nat
  config : Config
  work : Stacks
  root : Option Tree
  pool : Pool
  deriving DecidableEq, Repr

namespace Context

/-- A context without input and with nothing loaded. -/
def new (config : Config) : Context where
  input := #[]
  pos := 0
  startPoint := 0
  instructionCount := 0
  poolSizeHint := 0
  config := config
  work := .empty
  root := none
  pool := .empty

/-- Replaces the input, goes back to its beginning and drops the last result. -/
def setInput (c : Context) (input : Input) : Context := { c with input, pos := 0, root := none }

/-- Moves the cursor, but not past the end of the input. -/
def setPos (c : Context) (pos : Nat) : Context := { c with pos := min pos c.input.size }

/-- Takes the last result away. -/
def takeRoot (c : Context) : Context := { c with root := none }

/-- Goes back to the beginning of the same input with nothing built. -/
def rewind (c : Context) : Context := { c with pos := 0, work := .empty, root := none, pool := .empty }

/-- Points the context at a program that was just loaded. Input, cursor and capacities stay. -/
def adopt (c : Context) (startPoint instructionCount poolSizeHint : Nat) : Context :=
  { c with startPoint, instructionCount, poolSizeHint, root := none, pool := .empty }

end Context

end PegMachine
