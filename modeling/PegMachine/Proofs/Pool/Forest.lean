import PegMachine.Proofs.Pool.Stored
/-!
  Pools without shared nodes.

  `p.Forest since` says that the nodes of `p` hang together like trees: children were pooled before their parent,
  and hang under no other node. That a node lists no child twice is asked only of the nodes from `since` on, so
  what is there already can be left out of it.
  What is proved:
    1. `childrenOf_of_extends`, `copy?_of_extends`: a node keeps its children, and its tree, when the pool grows;
    2. `copy_of_descends`: a tree can be copied where children have smaller ids than their parent, as soon as the
       copy may go down as many levels as there are ids below;
    3. `Forest.push`: a node over nodes that hang under no other node, each taken once, leaves a forest;
    4. `Forest.copy`: from a forest every tree can be copied.
-/
namespace PegMachine.Pool

/-- The nodes hang together like trees. Nodes from `since` on list no child twice. -/
structure Forest (p : Pool) (since : Nat) : Prop where
  /-- Every node's stretch of the shared list is there. -/
  inside : ∀ node ∈ p.nodes, node.firstChild + node.childCount ≤ p.children.size
  descends : ∀ parent, ∀ child ∈ p.childrenOf parent, child < parent
  oneParent : ∀ child parent parent', child ∈ p.childrenOf parent → child ∈ p.childrenOf parent' → parent = parent'
  once : ∀ parent ≥ since, (p.childrenOf parent).Nodup

variable {p q : Pool} {since parent : Nat} {id : NodeId}

theorem childrenOf_of_not_pooled (h : p.size ≤ parent) : p.childrenOf parent = [] := by
  have hnone : p.get? parent = none := Array.getElem?_eq_none_iff.2 h
  simp only [childrenOf, hnone]

/-- A node's children stay the same when the pool grows. -/
theorem childrenOf_of_extends (inside : ∀ node ∈ p.nodes, node.firstChild + node.childCount ≤ p.children.size)
    (h : p.Extends q) (hparent : parent < p.size) : q.childrenOf parent = p.childrenOf parent := by
  have hnode : p.get? parent = some p.nodes[parent] := Array.getElem?_eq_getElem hparent
  have hnode' : q.get? parent = some p.nodes[parent] := (h.get?_eq hparent).trans hnode
  have hin := inside _ (Array.getElem_mem hparent)
  obtain ⟨rest, hrest⟩ := h.children
  simp only [childrenOf, hnode, hnode', Array.toList_extract, List.extract_eq_take_drop, ← hrest]
  rw [List.drop_append, List.take_append_of_le_length]
  rw [List.length_drop, Array.length_toList]
  omega

/-- A tree that can be copied is copied the same when the pool has grown. -/
theorem copy?_of_extends (inside : ∀ node ∈ p.nodes, node.firstChild + node.childCount ≤ p.children.size)
    (h : p.Extends q) {depth : Nat} {t : Tree} (hcopy : p.copy? depth id = some t) : q.copy? depth id = some t := by
  induction depth generalizing id t with
  | zero => cases hcopy
  | succ depth ih =>
    obtain ⟨node, hnode, hts, ht⟩ := eq_of_copy?_succ hcopy
    have pooled : id < p.size := (Array.getElem?_eq_some_iff.1 hnode).1
    rw [ht]
    refine copy?_succ ((h.get?_eq pooled).trans hnode) ?_
    rw [childrenOf_of_extends inside h pooled]
    exact hts.imp fun _ _ => ih

/-- If the nodes up to this one have children with smaller ids only, its tree can be copied, and it does not matter
    how many levels more the copy might go down. -/
theorem copy_of_descends (descends : ∀ parent ≤ id, ∀ child ∈ p.childrenOf parent, child < parent)
    (pooled : id < p.size) : ∃ t, ∀ depth > id, p.copy? depth id = some t := by
  suffices ∃ t, p.copy? (id + 1) id = some t by
    obtain ⟨t, ht⟩ := this
    exact ⟨t, fun depth hdepth => copy?_mono hdepth ht⟩
  induction id using Nat.strong_induction_on with
  | _ id ih =>
    have hnode : p.get? id = some p.nodes[id] := Array.getElem?_eq_getElem pooled
    have hts : List.Forall₂ (fun child t => p.copy? id child = some t) (p.childrenOf id)
        ((p.childrenOf id).map fun child => (p.copy? id child).getD default) := by
      rw [List.forall₂_map_right_iff, List.forall₂_same]
      intro child hchild
      have hlt := descends id (Nat.le_refl id) child hchild
      have below : ∀ parent ≤ child, ∀ child ∈ p.childrenOf parent, child < parent :=
        fun parent hparent => descends parent (Nat.le_trans hparent (Nat.le_of_lt hlt))
      obtain ⟨t, ht⟩ := ih child hlt below (Nat.lt_trans hlt pooled)
      rw [copy?_mono hlt ht, Option.getD_some]
    exact ⟨_, copy?_succ hnode hts⟩

namespace Forest

theorem empty (since : Nat) : Pool.empty.Forest since where
  inside := nofun
  descends _ := nofun
  oneParent _ _ _ := nofun
  once _ _ := .nil

theorem pooled (h : p.Forest since) (hchild : id ∈ p.childrenOf parent) : id < p.size := by
  have hparent : parent < p.size := Nat.lt_of_not_le fun hle => by
    rw [childrenOf_of_not_pooled hle] at hchild
    cases hchild
  exact Nat.lt_trans (h.descends parent id hchild) hparent

section push

variable {start stop : Nat} {tag value : Option String} {ids : List NodeId}

/-- A new node has the children that it was made with, and the other nodes keep theirs. -/
theorem childrenOf_push (h : p.Forest since) (parent : Nat) :
    (p.push start stop tag value ids).childrenOf parent = if parent = p.size then ids else p.childrenOf parent := by
  split
  · next heq => rw [heq, childrenOf_of_extends_push (.refl _)]
  · next hne =>
    rcases Nat.lt_or_ge parent p.size with hlt | hge
    · exact childrenOf_of_extends h.inside (extends_push ..) hlt
    · rw [childrenOf_of_not_pooled hge, childrenOf_of_not_pooled (by rw [size_push]; omega)]

/-- Nothing is shared if a node is added over nodes that hang under no other one. -/
theorem push (h : p.Forest since) (once : ids.Nodup) (pooled : ∀ child ∈ ids, child < p.size)
    (roots : ∀ child ∈ ids, ∀ parent, child ∉ p.childrenOf parent) :
    (p.push start stop tag value ids).Forest since where
  inside node hnode := by
    rw [size_children_push]
    rcases Array.mem_push.1 hnode with hnode | rfl
    · have := h.inside node hnode
      omega
    · exact Nat.le_refl _
  descends parent child hchild := by
    rw [h.childrenOf_push] at hchild
    split at hchild
    · next heq => exact heq ▸ pooled child hchild
    · exact h.descends parent child hchild
  oneParent child parent parent' hchild hchild' := by
    rw [h.childrenOf_push] at hchild hchild'
    split at hchild <;> split at hchild'
    · next heq heq' => exact heq.trans heq'.symm
    · exact absurd hchild' (roots child hchild parent')
    · exact absurd hchild (roots child hchild' parent)
    · exact h.oneParent child parent parent' hchild hchild'
  once parent hparent := by
    rw [h.childrenOf_push]
    split
    · exact once
    · exact h.once parent hparent

end push

/-- The tree under a node can be copied, and it does not matter how many levels more the copy might go down. -/
theorem copy (h : p.Forest since) (pooled : id < p.size) : ∃ t, ∀ depth > id, p.copy? depth id = some t :=
  copy_of_descends (fun parent _ => h.descends parent) pooled

end Forest

end PegMachine.Pool
