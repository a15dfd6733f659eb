import PegMachine.Tree
/-!
  The pool of nodes built during runs.

  Nodes are only ever added; an id is a node's place in the pool. The children of all nodes lie in one
  shared list of ids, and each node remembers which stretch of it is its own. A pool holds at most as
  many nodes as there are 32-bit ids. `finalize?` copies a tree out of the pool.

  Correspondence (program ↔ here):
    `MemoryPool`, `PoolNode`, `NodeId` ↔ `Pool`, `PoolNode`, `NodeId`
    `next_id`                          ↔ `isFull`, `size`
    `acquire`                          ↔ `acquire?`, `push`
    `get`, `children`, `len`           ↔ `get?`, `childrenOf`, `size`
    `reset`                            ↔ `empty`
    `finalize`                         ↔ `finalize?`, `copy?`
-/
namespace PegMachine

/-- The place of a node in its pool. -/
abbrev NodeId := Nat

structure PoolNode where
  start : Nat
  stop : Nat
  tag : Option String
  value : Option String
  /-- Where the node's children begin in the shared list, and how many they are. -/
  firstChild : Nat
  childCount : Nat
  deriving DecidableEq, Repr

structure Pool where
  nodes : Array PoolNode
  children : Array NodeId
  deriving DecidableEq, Repr

namespace Pool

def empty : Pool := ⟨#[], #[]⟩

instance : Inhabited Pool := ⟨empty⟩

/-- How many nodes ids can count. -/
def capacity : Nat := UInt32.size

def size (p : Pool) : Nat := p.nodes.size

def isFull (p : Pool) : Bool := capacity ≤ p.size

/-- The pool with one more node, whose id is the old size. -/
def push (p : Pool) (start stop : Nat) (tag value : Option String) (children : List NodeId) : Pool :=
  let first := p.children.size
  ⟨p.nodes.push ⟨start, stop, tag, value, first, children.length⟩, p.children.appendList children⟩

/-- Adds a node and gives its id, unless the pool is full. -/
def acquire? (p : Pool) (start stop : Nat) (tag value : Option String) (children : List NodeId) :
    Option (NodeId × Pool) :=
  if p.isFull then none else some (p.size, p.push start stop tag value children)

def get? (p : Pool) (id : NodeId) : Option PoolNode := p.nodes[id]?

/-- The children of a node; none for an id that is not in the pool. -/
def childrenOf (p : Pool) (id : NodeId) : List NodeId :=
  match p.get? id with
  | some node => (p.children.extract node.firstChild (node.firstChild + node.childCount)).toList
  | none => []

/-- Copies the tree under an id, going down at most `depth` levels. -/
def copy? (p : Pool) : (depth : Nat) → NodeId → Option Tree
  | 0, _ => none
  | depth + 1, id =>
    match p.get? id with
    | none => none
    | some node =>
      match (p.childrenOf id).mapM (p.copy? depth) with
      | none => none
      | some children => some ⟨node.start, node.stop, node.tag, node.value, children⟩

/-- Copies the tree under an id. A tree without a cycle has no way down longer than the pool, so going
    down as many levels as there are nodes finds all of it. -/
def finalize? (p : Pool) (id : NodeId) : Option Tree := p.copy? p.size id

end Pool

end PegMachine
