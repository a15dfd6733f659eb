import Mathlib.Logic.Function.Iterate
import PegMachine.Proofs.Run.Moves
/-!
  Building trees without a pool.

  A `TreeLog` is a node log whose finished nodes are trees, not ids. Closing a node makes its tree from what
  is directly inside it. A `TreeBuilder` keeps such a log through a run, and the lengths that a backtrack cuts
  it back to. It is told the instructions, the cursor and the failures of the run, and nothing about the
  machine's own log or pool.
-/
namespace PegMachine

/-! ## The log -/

inductive TreeEntry where
  | opened (start : Nat)
  | tag (label : String)
  | value (label : String)
  | tree (tree : Tree)
  deriving DecidableEq, Repr

namespace TreeEntry

def isOpened : TreeEntry → Bool
  | opened _ => true
  | _ => false

def tag? : TreeEntry → Option String
  | tag label => some label
  | _ => none

def value? : TreeEntry → Option String
  | value label => some label
  | _ => none

def tree? : TreeEntry → Option Tree
  | tree t => some t
  | _ => none

end TreeEntry

abbrev TreeLog := List TreeEntry

namespace TreeLog

/-- How many nodes are open. -/
def depth (log : TreeLog) : Nat := log.countP TreeEntry.isOpened

def lastTag (log : TreeLog) : Option String := (log.filterMap TreeEntry.tag?).getLast?

def lastValue (log : TreeLog) : Option String := (log.filterMap TreeEntry.value?).getLast?

/-- The finished trees, in order. -/
def trees (log : TreeLog) : List Tree := log.filterMap TreeEntry.tree?

/-- The tree from `start` to `stop` that has the last labels and the finished trees of the log. -/
def toTree (log : TreeLog) (start stop : Nat) : Tree := ⟨start, stop, log.lastTag, log.lastValue, log.trees⟩

/-- Puts everything from the innermost opened node on into the tree of this node, which ends at `stop`. -/
def close (stop : Nat) : TreeLog → TreeLog
  | [] => []
  | .opened start :: rest =>
    if rest.any TreeEntry.isOpened then .opened start :: close stop rest
    else [.tree (toTree rest start stop)]
  | entry :: rest => entry :: close stop rest

/-- Closes all open nodes, innermost first. -/
def closeAll (stop : Nat) (log : TreeLog) : TreeLog := (close stop)^[log.depth] log

/-- The only finished tree of the log, if there are no labels beside it. -/
def lone? (log : TreeLog) : Option Tree :=
  match log.trees, log.lastTag, log.lastValue with
  | [only], none, none => some only
  | _, _, _ => none

/-- The result of a run from `start` to `stop`, after all nodes were closed: the only tree, or one over all of
    them that takes the labels. -/
def root (log : TreeLog) (start stop : Nat) : Tree := log.lone?.getD (log.toTree start stop)

/-- How many nodes the result needs besides those in the log, if none is open. -/
def missing (log : TreeLog) : Nat := if log.lone?.isSome then 0 else 1

/-- How many nodes are made for the result: one for each that is open, and the root unless a single tree
    is left. -/
def needed (log : TreeLog) (stop : Nat) : Nat := log.depth + (log.closeAll stop).missing

variable {log below above : TreeLog} {start stop : Nat}

theorem lone?_eq_some {t : Tree} :
    log.lone? = some t ↔ log.trees = [t] ∧ log.lastTag = none ∧ log.lastValue = none := by
  rw [lone?]
  split
  · next only htrees htag hvalue => simp [htrees, htag, hvalue]
  · next hne => exact ⟨nofun, fun ⟨htrees, htag, hvalue⟩ => (hne t htrees htag hvalue).elim⟩

theorem close_append (h : ∀ entry ∈ above, entry.isOpened = false) :
    close stop (below ++ .opened start :: above) = below ++ [.tree (toTree above start stop)] := by
  induction below with
  | nil =>
    have hnone : List.any above TreeEntry.isOpened = false := by simpa using h
    rw [List.nil_append, close, hnone, if_neg Bool.false_ne_true, List.nil_append]
  | cons entry below ih =>
    cases entry with
    | opened =>
      have hany : (below ++ .opened start :: above).any TreeEntry.isOpened = true := by simp [TreeEntry.isOpened]
      rw [List.cons_append, close, if_pos hany, ih, List.cons_append]
    | tag | value | tree =>
      rw [List.cons_append, close, ih, List.cons_append]
      exact nofun

theorem depth_close (stop : Nat) (log : TreeLog) : depth (close stop log) = log.depth - 1 := by
  induction log with
  | nil => rfl
  | cons entry rest ih =>
    have hopened (start : Nat) (rest : TreeLog) : depth (.opened start :: rest) = depth rest + 1 :=
      List.countP_cons_of_pos rfl
    cases entry with
    | opened =>
      rw [close, hopened]
      split
      · next hany =>
        have hpos : 0 < depth rest := List.countP_pos_iff.2 (List.any_eq_true.1 hany)
        rw [hopened, ih]
        omega
      · next hnone =>
        have hzero : depth rest = 0 := by simpa [depth, List.countP_eq_zero] using hnone
        rw [hzero]
        rfl
    | tag | value | tree => exact ih

/-- Closing the innermost node is the first step of closing them all. -/
theorem closeAll_close (h : log.depth ≠ 0) : closeAll stop (close stop log) = log.closeAll stop := by
  obtain ⟨depth, hdepth⟩ := Nat.exists_eq_succ_of_ne_zero h
  rw [closeAll, closeAll, depth_close, hdepth, Nat.succ_sub_one, Function.iterate_succ_apply]

theorem depth_iterate_close (stop count : Nat) (log : TreeLog) :
    depth ((close stop)^[count] log) = log.depth - count := by
  induction count generalizing log with
  | zero => rfl
  | succ count ih =>
    rw [Function.iterate_succ_apply, ih, depth_close]
    omega

/-- Nothing is open any more after all nodes were closed. -/
theorem depth_closeAll (stop : Nat) (log : TreeLog) : depth (log.closeAll stop) = 0 := by
  rw [closeAll, depth_iterate_close, Nat.sub_self]

end TreeLog

/-! ## The builder -/

/-- What a run has built so far, and the lengths to which backtracks cut it back, the next one first. -/
structure TreeBuilder where
  log : TreeLog
  saved : List Nat
  deriving DecidableEq, Repr

namespace TreeBuilder

def empty : TreeBuilder := ⟨[], []⟩

def add (b : TreeBuilder) (entry : TreeEntry) : TreeBuilder := { b with log := b.log ++ [entry] }

def save (b : TreeBuilder) : TreeBuilder := { b with saved := b.log.length :: b.saved }

/-- Forgets the length saved last. -/
def drop (b : TreeBuilder) : TreeBuilder := { b with saved := b.saved.tail }

/-- Cuts the log back to the length saved last, and forgets this length. -/
def restore (b : TreeBuilder) : TreeBuilder :=
  match b.saved with
  | length :: saved => ⟨b.log.take length, saved⟩
  | [] => b

/-- After an instruction that leaves the cursor where it was, or moves it without a trace in the log. -/
def after (b : TreeBuilder) (pos : Nat) : Instruction → TreeBuilder
  | .choice _ => b.save
  | .commit _ | .failTwice => b.drop
  | .partialCommit _ => b.drop.save
  | .backCommit _ => b.restore
  | .nodeOpen => b.add (.opened pos)
  | .nodeClose => { b with log := b.log.close pos }
  | .tag label => b.add (.tag label)
  | .value label => b.add (.value label)
  | _ => b

end TreeBuilder

namespace Setting

/-- The builder after the next instruction, and after the backtrack if the instruction fails. -/
def build (s : Setting) (m : Machine) (b : TreeBuilder) : TreeBuilder :=
  match s.program.at? m.pc with
  | none => b
  | some i => if (s.dispatch i m).fails then (b.after m.pos i).restore else b.after m.pos i

/-- The builder beside the machines of a run. -/
def building (s : Setting) (m : Machine) : Nat → TreeBuilder
  | 0 => .empty
  | n + 1 =>
    match s.step (s.states m n) with
    | .running _ => s.build (s.states m n) (s.building m n)
    | _ => s.building m n

variable {s : Setting} {m m' : Machine} {i : Instruction}

theorem build_of_fails (code : s.program.at? m.pc = some i) (fails : (s.perform i m).fails = true)
    (b : TreeBuilder) : s.build m b = (b.after m.pos i).restore := by
  simp only [build, code, dispatch_eq, fails, if_true]

theorem build_of_goesOn (code : s.program.at? m.pc = some i) (goesOn : (s.perform i m).fails = false)
    (b : TreeBuilder) : s.build m b = b.after m.pos i := by
  simp only [build, code, dispatch_eq, goesOn, Bool.false_eq_true, if_false]

/-- An instruction that only looks at the input leaves the builder alone. -/
theorem after_of_fails (h : i.fails = true) (b : TreeBuilder) (pos : Nat) : b.after pos i = b := by
  cases i with
  | choice | commit | partialCommit | backCommit | failTwice | nodeOpen | nodeClose | tag | value => cases h
  | _ => rfl

end Setting

end PegMachine
