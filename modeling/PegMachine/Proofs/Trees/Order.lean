import PegMachine.Proofs.Trees.Forest
/-!
  The order in which the nodes of a tree are visited.

  A walk keeps a stack of trees still to visit. It takes the last one and puts that one's children on the stack,
  the last child first (`Walk.next?`). A node's place in a tree is its path: the numbers of the children to go down
  to (`at?`).
  What is proved:
    1. `Walk.next?_of_pending`: one step visits the root of the next pending tree, and its children come before
       what was pending; `Walk.yields_iff`: so a walk ends, and gives the pending trees' nodes;
    2. `descendants_eq`: these are the root and then, child after child, their descendants;
    3. `mem_places`, `pairwise_places`: the recursion lists each place once, parents first and left before right;
    4. `preorder_eq_map`, `descendants_eq_map`: the preorder and the walk visit the places in this order, and a
       node's depth is the length of its path. So both visit the same nodes (`descendants_eq_preorder`).
-/
namespace PegMachine

/-- A walk over a tree that is under way: the trees still to visit, the next one last. -/
structure Walk where
  todo : Array Tree

namespace Walk

def start (t : Tree) : Walk := ⟨#[t]⟩

/-- The next node, and what is left to visit after it. -/
def next? (w : Walk) : Option (Tree × Walk) :=
  w.todo.back?.map fun node => (node, ⟨w.todo.pop ++ node.children.reverse⟩)

/-- The walk gives the nodes one after the other, and then it ends. -/
inductive Yields : Walk → List Tree → Prop where
  | done {w : Walk} (ends : w.next? = none) : Yields w []
  | node {w w' : Walk} {node : Tree} {nodes : List Tree} (gives : w.next? = some (node, w'))
    (rest : Yields w' nodes) : Yields w (node :: nodes)

/-- The trees still to visit, the next one first. -/
def pending (w : Walk) : List Tree := w.todo.toList.reverse

variable {w : Walk} {node : Tree} {nodes nodes' rest : List Tree}

theorem next?_of_nothing (h : w.pending = []) : w.next? = none := by
  obtain ⟨todo⟩ := w
  obtain rfl : todo = #[] := by simpa [pending] using h
  rfl

/-- A step visits the root of the next pending tree; its children come before what was pending. -/
theorem next?_of_pending (h : w.pending = node :: rest) :
    ∃ w', w.next? = some (node, w') ∧ w'.pending = node.children ++ rest := by
  obtain ⟨todo⟩ := w
  have stack : todo = (rest.reverse.toArray).push node := by
    apply Array.toList_inj.1
    rw [pending, List.reverse_eq_iff] at h
    simpa using h
  refine ⟨⟨rest.reverse.toArray ++ node.children.reverse⟩, ?_, ?_⟩
  · simp [next?, stack]
  · simp [pending]

theorem Yields.unique (h : w.Yields nodes) (h' : w.Yields nodes') : nodes = nodes' := by
  induction h generalizing nodes' with
  | done ends =>
    cases h' with
    | done => rfl
    | node gives => rw [ends] at gives; cases gives
  | node gives _ ih =>
    cases h' with
    | done ends => rw [ends] at gives; cases gives
    | node gives' rest' =>
      rw [gives] at gives'
      obtain ⟨rfl, rfl⟩ := Prod.mk.inj (Option.some.inj gives')
      rw [ih rest']

theorem yields_walk {todo : List Tree} (h : w.pending = todo) : w.Yields (Tree.walk todo) := by
  induction todo using Tree.walk.induct generalizing w with
  | case1 =>
    rw [Tree.walk]
    exact .done (next?_of_nothing h)
  | case2 t todo ih =>
    obtain ⟨w', gives, hpending⟩ := next?_of_pending h
    rw [Tree.walk]
    exact .node gives (ih hpending)

/-- A walk over a tree gives its descendants and nothing else, and ends. -/
theorem yields_iff {t : Tree} : (start t).Yields nodes ↔ nodes = t.descendants := by
  have gives : (start t).Yields t.descendants := yields_walk rfl
  constructor
  · intro h
    exact h.unique gives
  · rintro rfl
    exact gives

end Walk

namespace Tree

variable {t node : Tree} {ts : List Tree} {path : List Nat}

/-! ## Child after child -/

theorem walk_append (ts us : List Tree) : walk (ts ++ us) = walk ts ++ walk us := by
  induction ts using walk.induct with
  | case1 => rw [List.nil_append, walk, List.nil_append]
  | case2 t todo ih => rw [List.cons_append, walk, ← List.append_assoc, ih, walk, List.cons_append]

theorem walk_eq_flatMap (ts : List Tree) : walk ts = ts.flatMap descendants := by
  induction ts with
  | nil => rw [walk, List.flatMap_nil]
  | cons t ts ih => rw [List.flatMap_cons, ← ih, descendants, ← walk_append, List.singleton_append]

/-- A tree's nodes are its root and then, from left to right, those under its children. -/
theorem descendants_eq (t : Tree) : t.descendants = t :: t.children.flatMap descendants := by
  rw [descendants, walk, List.append_nil, walk_eq_flatMap]

/-! ## Places -/

/-- The node at the end of a path, if the path leads to one: from each node it goes on to the child with the given
    number. -/
def at? : (path : List Nat) → Tree → Option Tree
  | [], t => some t
  | i :: path, t => t.children[i]?.bind (at? path)

mutual

/-- The nodes with their paths, parents before children and siblings in order. -/
def places : Tree → List (List Nat × Tree)
  | ⟨start, stop, tag, value, children⟩ =>
    ([], ⟨start, stop, tag, value, children⟩) :: placesFrom 0 children

/-- The nodes of siblings, the first of which is the child with the number. -/
def placesFrom (i : Nat) : List Tree → List (List Nat × Tree)
  | [] => []
  | t :: ts => (t.places.map fun (path, node) => (i :: path, node)) ++ placesFrom (i + 1) ts

end

theorem places_eq (t : Tree) : t.places = ([], t) :: placesFrom 0 t.children := by
  obtain ⟨start, stop, tag, value, children⟩ := t
  rw [places]

theorem mem_placesFrom {i : Nat} :
    (path, node) ∈ placesFrom i ts ↔
      ∃ j rest t, path = (i + j) :: rest ∧ ts[j]? = some t ∧ (rest, node) ∈ t.places := by
  induction ts generalizing i with
  | nil => simp [placesFrom]
  | cons t ts ih =>
    simp only [placesFrom, List.mem_append, List.mem_map, Prod.exists, Prod.mk.injEq, ih]
    constructor
    · rintro (⟨rest, _, hmem, rfl, rfl⟩ | ⟨j, rest, t', rfl, hget, hmem⟩)
      · exact ⟨0, rest, t, rfl, rfl, hmem⟩
      · exact ⟨j + 1, rest, t', by rw [Nat.add_right_comm, Nat.add_assoc], hget, hmem⟩
    · rintro ⟨j, rest, t', rfl, hget, hmem⟩
      cases j with
      | zero =>
        obtain rfl : t = t' := by simpa using hget
        exact .inl ⟨rest, node, hmem, rfl, rfl⟩
      | succ j => exact .inr ⟨j, rest, t', by rw [Nat.add_right_comm, Nat.add_assoc], hget, hmem⟩

/-- The places are the paths that lead to a node. -/
theorem mem_places : (path, node) ∈ t.places ↔ t.at? path = some node := by
  induction path generalizing t with
  | nil =>
    rw [places_eq, List.mem_cons, mem_placesFrom, at?, Option.some.injEq]
    constructor
    · rintro (here | ⟨_, _, _, hpath, -⟩)
      · exact (Prod.mk.inj here).2.symm
      · cases hpath
    · rintro rfl
      exact .inl rfl
  | cons i path ih =>
    rw [places_eq, List.mem_cons, mem_placesFrom, at?, Option.bind_eq_some_iff]
    constructor
    · rintro (here | ⟨j, rest, child, hpath, hchild, hmem⟩)
      · cases here
      · rw [Nat.zero_add] at hpath
        obtain ⟨rfl, rfl⟩ := List.cons.inj hpath
        exact ⟨child, hchild, ih.1 hmem⟩
    · rintro ⟨child, hchild, hat⟩
      exact .inr ⟨i, path, child, by rw [Nat.zero_add], hchild, ih.2 hat⟩

mutual

/-- Paths are listed in the order of dictionaries: a node before those below it, and what is on the left before
    what is on the right. -/
theorem pairwise_places : (t : Tree) → (t.places.map Prod.fst).Pairwise (· < ·)
  | ⟨start, stop, tag, value, children⟩ => by
    rw [places, List.map_cons, List.pairwise_cons]
    refine ⟨fun path hpath => ?_, pairwise_placesFrom 0 children⟩
    obtain ⟨⟨_, node⟩, hmem, rfl⟩ := List.mem_map.1 hpath
    obtain ⟨j, rest, _, rfl, -⟩ := mem_placesFrom.1 hmem
    exact List.nil_lt_cons _ _

theorem pairwise_placesFrom (i : Nat) : (ts : List Tree) → ((placesFrom i ts).map Prod.fst).Pairwise (· < ·)
  | [] => by
    rw [placesFrom]
    exact .nil
  | t :: ts => by
    rw [placesFrom, List.map_append, List.map_map, List.pairwise_append]
    refine ⟨?_, pairwise_placesFrom (i + 1) ts, ?_⟩
    · have below := pairwise_places t
      rw [List.pairwise_map] at below ⊢
      exact below.imp fun hlt => List.cons_lt_cons_self.2 hlt
    · intro left hleft right hright
      obtain ⟨_, -, rfl⟩ := List.mem_map.1 hleft
      obtain ⟨⟨_, node⟩, hmem, rfl⟩ := List.mem_map.1 hright
      obtain ⟨j, rest, _, rfl, -⟩ := mem_placesFrom.1 hmem
      apply List.Lex.rel
      omega

end

/-! ## The orders are one -/

mutual

/-- The preorder visits the places in order, and the depth of a node is the length of its path. -/
theorem preorder_eq_map (depth : Nat) : (t : Tree) →
    t.preorder depth = t.places.map fun place => (depth + place.1.length, place.2)
  | ⟨start, stop, tag, value, children⟩ => by
    rw [preorder, places, List.map_cons, preorderList_eq_map depth 0 children]
    rfl

theorem preorderList_eq_map (depth i : Nat) : (ts : List Tree) →
    preorderList (depth + 1) ts = (placesFrom i ts).map fun place => (depth + place.1.length, place.2)
  | [] => by rw [preorderList, placesFrom, List.map_nil]
  | t :: ts => by
    rw [preorderList, placesFrom, List.map_append, List.map_map, preorder_eq_map (depth + 1) t,
      preorderList_eq_map depth (i + 1) ts]
    simp [Function.comp_def, Nat.add_assoc, Nat.add_comm 1]

end

mutual

/-- The walk visits the places in order. -/
theorem descendants_eq_map : (t : Tree) → t.descendants = t.places.map Prod.snd
  | ⟨start, stop, tag, value, children⟩ => by
    rw [descendants_eq, places, List.map_cons, flatMap_descendants_eq_map 0 children]

theorem flatMap_descendants_eq_map (i : Nat) : (ts : List Tree) →
    ts.flatMap descendants = (placesFrom i ts).map Prod.snd
  | [] => by rw [placesFrom, List.flatMap_nil, List.map_nil]
  | t :: ts => by
    rw [List.flatMap_cons, placesFrom, List.map_append, List.map_map, descendants_eq_map t,
      flatMap_descendants_eq_map (i + 1) ts]
    rfl

end

/-- The walk over the stack and the recursion visit the same nodes in the same order. -/
theorem descendants_eq_preorder (t : Tree) : t.descendants = (t.preorder 0).map Prod.snd := by
  rw [preorder_eq_map, List.map_map, descendants_eq_map]
  rfl

end Tree

end PegMachine
