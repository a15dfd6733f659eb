import PegMachine.Bytes
/-!
  Result trees.

  A node covers the input from `start` up to `stop`, may carry a tag and a value, and owns its children
  in order. `preorder` lists a tree's nodes by recursion, each with its depth; `descendants` lists them
  by walking over a stack of trees still to visit. The searches are defined on the walk.

  Correspondence (program ↔ here):
    `AstNode`                       ↔ `Tree`
    `is_leaf`, `text`, `node_count` ↔ `isLeaf`, `text?`, `nodeCount`
    `descendants`, `Descendants`    ↔ `descendants`, `walk`
    `find_tag`                      ↔ `findTag?`
-/
namespace PegMachine

structure Tree where
  start : Nat
  stop : Nat
  tag : Option String
  value : Option String
  children : List Tree
  deriving Repr, Inhabited

namespace Tree

/-! ## Equality -/

mutual

def decEq : (t u : Tree) → Decidable (t = u)
  | ⟨start, stop, tag, value, children⟩, ⟨start', stop', tag', value', children'⟩ =>
    if h : start = start' ∧ stop = stop' ∧ tag = tag' ∧ value = value' then
      match decEqList children children' with
      | isTrue hc => isTrue (by obtain ⟨rfl, rfl, rfl, rfl⟩ := h; rw [hc])
      | isFalse hc => isFalse fun e => hc (by injection e)
    else isFalse fun e => h (by injection e with h1 h2 h3 h4; exact ⟨h1, h2, h3, h4⟩)

def decEqList : (ts us : List Tree) → Decidable (ts = us)
  | [], [] => isTrue rfl
  | [], _ :: _ => isFalse nofun
  | _ :: _, [] => isFalse nofun
  | t :: ts, u :: us =>
    match decEq t u, decEqList ts us with
    | isTrue ht, isTrue hts => isTrue (by rw [ht, hts])
    | isFalse ht, _ => isFalse fun e => ht (by injection e)
    | _, isFalse hts => isFalse fun e => hts (by injection e)

end

instance : DecidableEq Tree := decEq

/-! ## Views -/

def isLeaf (t : Tree) : Bool := t.children.isEmpty

/-- The part of the input that the node covers, if the input has all of it. -/
def text? (t : Tree) (input : Input) : Option Bytes := input.slice? t.start t.stop

mutual

/-- How many nodes the tree has. -/
def size : Tree → Nat
  | ⟨_, _, _, _, children⟩ => 1 + sizeList children

def sizeList : List Tree → Nat
  | [] => 0
  | t :: ts => t.size + sizeList ts

end

mutual

/-- How many nodes the longest way down from the root has. -/
def height : Tree → Nat
  | ⟨_, _, _, _, children⟩ => 1 + heightList children

def heightList : List Tree → Nat
  | [] => 0
  | t :: ts => max t.height (heightList ts)

end

mutual

/-- The nodes with their depths, parents before children and siblings in order. -/
def preorder (depth : Nat) : Tree → List (Nat × Tree)
  | ⟨start, stop, tag, value, children⟩ =>
    (depth, ⟨start, stop, tag, value, children⟩) :: preorderList (depth + 1) children

def preorderList (depth : Nat) : List Tree → List (Nat × Tree)
  | [] => []
  | t :: ts => preorder depth t ++ preorderList depth ts

end

/-! ## The walk -/

theorem size_eq (t : Tree) : t.size = 1 + sizeList t.children := by
  obtain ⟨start, stop, tag, value, children⟩ := t
  simp only [size]

theorem sizeList_append (ts us : List Tree) : sizeList (ts ++ us) = sizeList ts + sizeList us := by
  induction ts with
  | nil => simp [sizeList]
  | cons t ts ih => simp only [List.cons_append, sizeList, ih]; omega

/-- The nodes of the trees still to visit. A node's children go in front of what was waiting. -/
def walk : (todo : List Tree) → List Tree
  | [] => []
  | t :: todo => t :: walk (t.children ++ todo)
termination_by todo => sizeList todo
decreasing_by
  rw [sizeList_append, sizeList, size_eq]
  omega

/-- The tree's nodes, itself first. -/
def descendants (t : Tree) : List Tree := walk [t]

def nodeCount (t : Tree) : Nat := t.descendants.length

/-- The first of the descendants that has the tag. -/
def findTag? (t : Tree) (tag : String) : Option Tree := t.descendants.find? (·.tag == some tag)

end Tree

end PegMachine
