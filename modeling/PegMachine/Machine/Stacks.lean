import PegMachine.Pool
/-!
  The stacks of a run.

  Every stack is an array whose top is its last element, so a length saved earlier says which entries
  were there. A backtrack frame saves only the lengths; restoring it cuts each stack back to its length.

  The node log lists what the current attempt has built: opened nodes, labels, and nodes finished in the
  pool. The places of the opened nodes are kept beside it, innermost last. The symbol table is one list
  of bindings with a marker where each scope begins.

  Correspondence (program ↔ here):
    `AstEntry`, `AstLog`                ↔ `LogEntry`, `NodeLog`
    `open`, `push`, `truncate`, `depth` ↔ `openNode`, `push`, `truncate`, `depth`
    `innermost_open`                    ↔ `innermost?`
    `SymbolEntry`, `bindings`           ↔ `SymbolEntry`, `SymbolEntry.bindings`
    `Frame`, `frame`, `restore`         ↔ `Frame`, `Stacks.frame`, `Stacks.restore`
    `take_mark`                         ↔ `Stacks.useMark`, `Stacks.pinnedMarks`
    `clear_stacks`                      ↔ `Stacks.empty`
-/
namespace PegMachine

/-! ## The node log -/

inductive LogEntry where
  | opened (start : Nat)
  | tag (label : String)
  | value (label : String)
  | node (id : NodeId)
  deriving DecidableEq, Repr

structure NodeLog where
  entries : Array LogEntry
  /-- The places of the opened entries, innermost last. -/
  opens : Array Nat
  deriving DecidableEq, Repr

namespace NodeLog

def empty : NodeLog := ⟨#[], #[]⟩

/-- The log with one more opened node. -/
def openNode (log : NodeLog) (start : Nat) : NodeLog :=
  let place := log.entries.size
  ⟨log.entries.push (.opened start), log.opens.push place⟩

/-- The log with a label or a finished node added to the innermost opened node. -/
def push (log : NodeLog) (entry : LogEntry) : NodeLog := ⟨log.entries.push entry, log.opens⟩

/-- How many nodes are open. -/
def depth (log : NodeLog) : Nat := log.opens.size

/-- The place and the start of the innermost opened node. -/
def innermost? (log : NodeLog) : Option (Nat × Nat) :=
  match log.opens.back? with
  | none => none
  | some place =>
    match log.entries[place]? with
    | some (.opened start) => some (place, start)
    | _ => none

/-- The log cut back to its first `length` entries. -/
def truncate (log : NodeLog) (length : Nat) : NodeLog :=
  ⟨log.entries.shrink length, log.opens.popWhile (length ≤ ·)⟩

/-- The entries from a place on. -/
def entriesFrom (log : NodeLog) (place : Nat) : List LogEntry :=
  (log.entries.extract place log.entries.size).toList

end NodeLog

/-! What a stretch of the log says about the node that it makes up: the last label of each kind counts. -/

namespace LogEntry

def tag? : LogEntry → Option String
  | tag label => some label
  | _ => none

def value? : LogEntry → Option String
  | value label => some label
  | _ => none

def node? : LogEntry → Option NodeId
  | node id => some id
  | _ => none

/-- The last tag among the entries. -/
def lastTag (entries : List LogEntry) : Option String := (entries.filterMap tag?).getLast?

/-- The last value among the entries. -/
def lastValue (entries : List LogEntry) : Option String := (entries.filterMap value?).getLast?

/-- The finished nodes among the entries, in order. -/
def nodes (entries : List LogEntry) : List NodeId := entries.filterMap node?

end LogEntry

/-! ## The symbol table -/

inductive SymbolEntry where
  | binding (table : String) (text : Bytes)
  | scope
  deriving DecidableEq, Repr

namespace SymbolEntry

def isScope : SymbolEntry → Bool
  | scope => true
  | binding _ _ => false

/-- The text that the entry binds in a table, if it does. -/
def textIn? (table : String) : SymbolEntry → Option Bytes
  | binding name text => if name = table then some text else none
  | scope => none

/-- The texts bound in a table, latest first. -/
def bindings (symbols : Array SymbolEntry) (table : String) : List Bytes :=
  symbols.toList.reverse.filterMap (textIn? table)

/-- The place of the latest scope marker. -/
def lastScope? (symbols : Array SymbolEntry) : Option Nat :=
  (symbols.toList.reverse.findIdx? isScope).map fun i => symbols.size - 1 - i

end SymbolEntry

/-! ## All stacks together -/

/-- What a backtrack puts back: where to resume, the cursor, and the lengths of the stacks. -/
structure Frame where
  alternative : Nat
  pos : Nat
  logLength : Nat
  callDepth : Nat
  symbolDepth : Nat
  markDepth : Nat
  deriving DecidableEq, Repr

structure Stacks where
  backtrack : Array Frame
  log : NodeLog
  calls : Array Nat
  symbols : Array SymbolEntry
  /-- Where the texts of pending definitions start. -/
  marks : Array Nat
  deriving DecidableEq, Repr

namespace Stacks

def empty : Stacks := ⟨#[], .empty, #[], #[], #[]⟩

instance : Inhabited Stacks := ⟨empty⟩

/-- The frame that would bring the stacks and the cursor back to where they are now. -/
def frame (s : Stacks) (alternative pos : Nat) : Frame :=
  ⟨alternative, pos, s.log.entries.size, s.calls.size, s.symbols.size, s.marks.size⟩

/-- The stacks cut back to the lengths of a frame. The backtrack stack stays. -/
def restore (s : Stacks) (f : Frame) : Stacks where
  backtrack := s.backtrack
  log := s.log.truncate f.logLength
  calls := s.calls.shrink f.callDepth
  symbols := s.symbols.shrink f.symbolDepth
  marks := s.marks.shrink f.markDepth

/-- How many marks the top frame would bring back. -/
def pinnedMarks (s : Stacks) : Nat :=
  match s.backtrack.back? with
  | some f => f.markDepth
  | none => 0

/-- The marks after the last one was used. It stays if the top frame still counts it. -/
def useMark (s : Stacks) : Stacks :=
  if s.pinnedMarks < s.marks.size then { s with marks := s.marks.pop } else s

end Stacks

end PegMachine
