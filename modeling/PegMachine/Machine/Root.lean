import PegMachine.Machine
/-!
  The result tree of a match.

  After a match the nodes that are still open are closed at the cursor. A single node at the top of the
  log without labels beside it is the root. Anything else is put under a root of its own that covers
  what the run consumed and takes the labels.

  Correspondence (program ↔ here):
    `finish_tree`            ↔ `finish`
    the loop it begins with  ↔ `closeOpens`
    the root that it chooses ↔ `root?`
    `finalize` at its end    ↔ `extract`
-/
namespace PegMachine

namespace Machine

/-- Closes open nodes, innermost first, as many as `count` says. Stops at the first that cannot be closed. -/
def closeOpens : (count : Nat) → Machine → Machine × Option RunError
  | 0, m => (m, none)
  | count + 1, m =>
    match m.closeFault? with
    | some error => (m, some error)
    | none => closeOpens count m.closeNode

/-- The id of the root of the entries in the log, with the pool that it is in, unless the pool is full. -/
def root? (m : Machine) (start : Nat) : Option (NodeId × Pool) :=
  let entries := m.work.log.entries.toList
  match LogEntry.nodes entries, LogEntry.lastTag entries, LogEntry.lastValue entries with
  | [only], none, none => some (only, m.pool)
  | top, tag, value => m.pool.acquire? start m.pos tag value top

/-- Copies the root's tree out of the pool. -/
def extract (m : Machine) (start : Nat) : Machine × Except RunError Tree :=
  match m.root? start with
  | none => (m, .error (.poolExhausted m.pool.size))
  | some (id, pool) =>
    let m := { m with pool }
    match pool.finalize? id with
    | some tree => (m, .ok tree)
    | none => (m, .error (.unbalancedNode m.pc))

/-- Makes the result tree of a match that began at `start`. -/
def finish (m : Machine) (start : Nat) : Machine × Except RunError Tree :=
  match m.closeOpens m.work.log.depth with
  | (m, some error) => (m, .error error)
  | (m, none) => m.extract start

end Machine

end PegMachine
