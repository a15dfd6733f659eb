import PegMachine.Pool
/-!
  Trees and pools moved along the input.

  `shift p` adds `p` to the start and the end of every node. What is proved:
    1. a pool that is moved has the same sizes and ids, and `push_shift`: adding a moved node to it is the same
       as adding the node and moving the pool;
    2. `finalize?_shift`: copying a tree out of a pool that is moved gives the tree, moved.
-/
namespace PegMachine

variable {p : Nat}

namespace Tree

mutual

/-- The tree with every node moved by `p` along the input. -/
def shift (p : Nat) : Tree → Tree
  | ⟨start, stop, tag, value, children⟩ => ⟨start + p, stop + p, tag, value, shiftList p children⟩

def shiftList (p : Nat) : List Tree → List Tree
  | [] => []
  | t :: ts => t.shift p :: shiftList p ts

end

theorem shiftList_eq_map (p : Nat) (ts : List Tree) : shiftList p ts = ts.map (shift p) := by
  induction ts with
  | nil => simp only [shiftList, List.map_nil]
  | cons t ts ih => simp only [shiftList, List.map_cons, ih]

theorem shift_eq (p start stop : Nat) (tag value : Option String) (children : List Tree) :
    shift p ⟨start, stop, tag, value, children⟩ =
      ⟨start + p, stop + p, tag, value, children.map (shift p)⟩ := by
  rw [shift, shiftList_eq_map]

end Tree

/-- The node moved by `p` along the input. -/
def PoolNode.shift (p : Nat) (node : PoolNode) : PoolNode :=
  { node with start := node.start + p, stop := node.stop + p }

namespace Pool

/-- The pool with every node moved by `p` along the input. -/
def shift (p : Nat) (pool : Pool) : Pool := { pool with nodes := pool.nodes.map (PoolNode.shift p) }

variable {pool : Pool}

@[simp] theorem size_shift : (pool.shift p).size = pool.size := Array.size_map

@[simp] theorem isFull_shift : (pool.shift p).isFull = pool.isFull := by simp only [isFull, size_shift]

theorem push_shift (start stop : Nat) (tag value : Option String) (children : List NodeId) :
    (pool.shift p).push (start + p) (stop + p) tag value children =
      (pool.push start stop tag value children).shift p := by
  simp only [push, shift, Array.map_push]
  rfl

theorem acquire?_shift (start stop : Nat) (tag value : Option String) (children : List NodeId) :
    (pool.shift p).acquire? (start + p) (stop + p) tag value children =
      (pool.acquire? start stop tag value children).map (Prod.map id (shift p)) := by
  rw [acquire?, acquire?, isFull_shift]
  split
  · rfl
  · rw [push_shift, size_shift, Option.map_some]
    rfl

theorem get?_shift (id : NodeId) : (pool.shift p).get? id = (pool.get? id).map (PoolNode.shift p) :=
  Array.getElem?_map

theorem childrenOf_shift (id : NodeId) : (pool.shift p).childrenOf id = pool.childrenOf id := by
  rw [childrenOf, childrenOf, get?_shift]
  cases pool.get? id <;> rfl

/-- Doing something to all results of a function that may have none is doing it to the results there are. -/
theorem mapM_map_option {α β γ : Type} (f : α → Option β) (g : β → γ) (xs : List α) :
    xs.mapM (fun x => (f x).map g) = (xs.mapM f).map (List.map g) := by
  induction xs with
  | nil => rfl
  | cons x xs ih =>
    rw [List.mapM_cons, List.mapM_cons, ih]
    cases f x with
    | none => rfl
    | some y => cases xs.mapM f <;> rfl

theorem copy?_shift (depth : Nat) (id : NodeId) :
    (pool.shift p).copy? depth id = (pool.copy? depth id).map (Tree.shift p) := by
  induction depth generalizing id with
  | zero => rfl
  | succ depth ih =>
    rw [copy?, copy?, get?_shift, childrenOf_shift, funext ih, mapM_map_option]
    cases pool.get? id with
    | none => rfl
    | some node =>
      cases (pool.childrenOf id).mapM (pool.copy? depth) with
      | none => rfl
      | some children => exact congrArg some (Tree.shift_eq ..).symm

theorem finalize?_shift (id : NodeId) : (pool.shift p).finalize? id = (pool.finalize? id).map (Tree.shift p) := by
  rw [finalize?, finalize?, size_shift, copy?_shift]

end Pool

end PegMachine
