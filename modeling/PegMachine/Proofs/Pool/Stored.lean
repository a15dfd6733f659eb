import Mathlib.Data.List.Forall2
import PegMachine.Pool
import PegMachine.Proofs.Stacks.Begins
/-!
  Trees stored in the pool.

  A pool only grows. `p.Stores id t` says that in `p` the tree under `id` is `t`, and that it stays `t` in
  every pool that `p` grows into, whatever is added later.
  What is proved:
    1. `Stores.finalize`: copying a stored tree out gives it;
    2. `Stores.extend`: it stays stored when the pool grows;
    3. `stores_push`: a node added over stored trees stores the tree that has them as children.
-/
namespace PegMachine.Pool

variable {p q r : Pool} {id : NodeId} {t : Tree} {depth depth' : Nat}

/-! ## Growing -/

/-- The pool `q` still has all nodes and children of `p`, at their old places. -/
structure Extends (p q : Pool) : Prop where
  nodes : Begins p.nodes q.nodes
  children : Begins p.children q.children

theorem Extends.refl (p : Pool) : p.Extends p := ⟨.refl _, .refl _⟩

theorem Extends.trans (h : p.Extends q) (h' : q.Extends r) : p.Extends r :=
  ⟨h.nodes.trans h'.nodes, h.children.trans h'.children⟩

theorem extends_push (p : Pool) (start stop : Nat) (tag value : Option String) (ids : List NodeId) :
    p.Extends (p.push start stop tag value ids) where
  nodes := (Begins.refl _).push _
  children := by
    show p.children.toList <+: (p.children ++ ids).toList
    rw [Array.toList_appendList]
    exact List.prefix_append ..

theorem size_push (p : Pool) (start stop : Nat) (tag value : Option String) (ids : List NodeId) :
    (p.push start stop tag value ids).size = p.size + 1 := Array.size_push ..

theorem size_children_push (p : Pool) (start stop : Nat) (tag value : Option String) (ids : List NodeId) :
    (p.push start stop tag value ids).children.size = p.children.size + ids.length := by
  show (p.children ++ ids).size = _
  rw [← Array.length_toList, Array.toList_appendList, List.length_append, Array.length_toList]

theorem Extends.size_le (h : p.Extends q) : p.size ≤ q.size := h.nodes.size_le

theorem Extends.get?_eq (h : p.Extends q) (pooled : id < p.size) : q.get? id = p.get? id := by
  have hlt : id < p.nodes.toList.length := pooled
  rw [get?, ← Array.getElem?_toList, List.prefix_iff_getElem?.1 h.nodes id hlt, Array.getElem_toList]
  exact (Array.getElem?_eq_getElem pooled).symm

/-! ## Copying -/

theorem mapM_eq_some_iff {α β : Type} {f : α → Option β} {xs : List α} {ys : List β} :
    xs.mapM f = some ys ↔ List.Forall₂ (fun x y => f x = some y) xs ys := by
  induction xs generalizing ys with
  | nil => simp [eq_comm]
  | cons x xs ih =>
    rw [List.mapM_cons, List.forall₂_cons_left_iff]
    constructor
    · intro h
      obtain ⟨y, hy, h⟩ := Option.bind_eq_some_iff.1 h
      obtain ⟨ys', hys', h⟩ := Option.bind_eq_some_iff.1 h
      exact ⟨y, ys', hy, ih.1 hys', (Option.some.inj h).symm⟩
    · intro h
      obtain ⟨y, ys', hy, hys', rfl⟩ := h
      rw [hy, ih.2 hys']
      rfl

/-- A node whose children can be copied can be copied one level deeper. -/
theorem copy?_succ {node : PoolNode} {ts : List Tree} (hnode : p.get? id = some node)
    (hts : List.Forall₂ (fun c t => p.copy? depth c = some t) (p.childrenOf id) ts) :
    p.copy? (depth + 1) id = some ⟨node.start, node.stop, node.tag, node.value, ts⟩ := by
  rw [copy?, hnode]
  simp only [mapM_eq_some_iff.2 hts]

/-- A node is copied with copies of its children that have one level less. -/
theorem eq_of_copy?_succ (h : p.copy? (depth + 1) id = some t) :
    ∃ node, p.get? id = some node ∧ List.Forall₂ (fun c t => p.copy? depth c = some t) (p.childrenOf id) t.children ∧
      t = ⟨node.start, node.stop, node.tag, node.value, t.children⟩ := by
  rw [copy?] at h
  cases hnode : p.get? id with
  | none => simp [hnode] at h
  | some node =>
    cases hts : (p.childrenOf id).mapM (p.copy? depth) with
    | none => simp [hnode, hts] at h
    | some ts =>
      simp only [hnode, hts, Option.some.injEq] at h
      subst h
      exact ⟨node, rfl, mapM_eq_some_iff.1 hts, rfl⟩

theorem copy?_mono_succ : p.copy? depth id = some t → p.copy? (depth + 1) id = some t := by
  induction depth generalizing id t with
  | zero => exact nofun
  | succ depth ih =>
    intro h
    obtain ⟨node, hnode, hts, ht⟩ := eq_of_copy?_succ h
    rw [ht]
    exact copy?_succ hnode (hts.imp fun _ _ => ih)

theorem copy?_mono (hle : depth ≤ depth') (h : p.copy? depth id = some t) : p.copy? depth' id = some t := by
  induction hle with
  | refl => exact h
  | step _ ih => exact copy?_mono_succ ih

/-! ## Storing -/

/-- In the pool and in every pool it grows into, the tree under `id` is `t`. -/
def Stores (p : Pool) (id : NodeId) (t : Tree) : Prop :=
  ∀ q, p.Extends q → q.copy? p.size id = some t

theorem Stores.finalize (h : p.Stores id t) : p.finalize? id = some t := h p (.refl p)

theorem Stores.extend (h : p.Stores id t) (hq : p.Extends q) : q.Stores id t :=
  fun r hr => copy?_mono hq.size_le (h r (hq.trans hr))

theorem get?_of_extends_push {start stop : Nat} {tag value : Option String} {ids : List NodeId}
    (h : (p.push start stop tag value ids).Extends q) :
    q.get? p.size = some ⟨start, stop, tag, value, p.children.size, ids.length⟩ := by
  -- The new node stands behind the nodes of `p`, and `q` begins with all of them.
  have hnodes : (p.nodes.push ⟨start, stop, tag, value, p.children.size, ids.length⟩).toList <+:
      q.nodes.toList := h.nodes
  rw [Array.toList_push] at hnodes
  rw [get?, ← Array.getElem?_toList, List.prefix_iff_getElem?.1 hnodes p.size (by simp [size])]
  simp [size]

theorem childrenOf_of_extends_push {start stop : Nat} {tag value : Option String} {ids : List NodeId}
    (h : (p.push start stop tag value ids).Extends q) : q.childrenOf p.size = ids := by
  have hchildren : (p.children ++ ids).toList <+: q.children.toList := h.children
  rw [Array.toList_appendList] at hchildren
  obtain ⟨rest, hrest⟩ := hchildren
  rw [childrenOf, get?_of_extends_push h]
  simp [← hrest]

/-- A node added over stored trees stores the tree that has them as its children. -/
theorem stores_push {ids : List NodeId} {ts : List Tree} (h : List.Forall₂ p.Stores ids ts)
    (start stop : Nat) (tag value : Option String) :
    (p.push start stop tag value ids).Stores p.size ⟨start, stop, tag, value, ts⟩ := by
  intro q hq
  rw [size_push]
  refine copy?_succ (get?_of_extends_push hq) ?_
  rw [childrenOf_of_extends_push hq]
  exact h.imp fun c t hc => hc q ((extends_push ..).trans hq)

end PegMachine.Pool
