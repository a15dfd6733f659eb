import Mathlib.Data.Nat.Find
import Mathlib.Order.Monotone.Basic
import PegMachine.Error
import PegMachine.Proofs.Pool.Forest
/-!
  Pools after any calls.

  A pool is made by calls that acquire a node or reset the pool. Nothing is asked of the ids that a node is acquired
  with: they may be dangling, or have been handed out before a reset. `after calls` is the pool that is left by the
  calls, and `Made calls id a` says that one of them acquired the node `a` under this id, and that none behind it was
  a reset.
  What is proved:
    1. `run_acquire`: a node is acquired as a whole or not at all;
    2. `Tiled`: the stretches of the nodes follow one another and make up the shared list, and so each place in the
       list is in the stretch of one node (`Tiled.existsUnique_stretch`);
    3. `Made.get?_eq`, `exists_made`: the nodes of the pool are those that were acquired since the last reset, with
       the children that they were acquired with;
    4. `copies_iff`: `Copies` is how a tree is copied out, node by node and without a bound on the way down. It comes
       to an end where the children of each node have smaller ids, and gives what `finalize?` gives;
    5. `calls_consistent`: all of this for any calls.
-/
namespace PegMachine.Pool

/-! ## Acquiring a node -/

/-- What a node is acquired with. -/
structure Acquisition where
  start : Nat
  stop : Nat
  tag : Option String
  value : Option String
  children : List NodeId

/-- The id of the next node, if ids can still count that high. -/
def nextId : EStateM RunError Pool NodeId := fun p =>
  if p.isFull then .error (.poolExhausted p.size) p else .ok p.size p

/-- Puts the children behind those of the other nodes, and the node with its stretch behind the other nodes. -/
def acquire (a : Acquisition) : EStateM RunError Pool NodeId := do
  let id ← nextId
  let first := (← get).children.size
  modify fun p => { p with children := p.children.appendList a.children }
  modify fun p => { p with nodes := p.nodes.push ⟨a.start, a.stop, a.tag, a.value, first, p.children.size - first⟩ }
  return id

/-- The pool with the node added. -/
def add (p : Pool) (a : Acquisition) : Pool := p.push a.start a.stop a.tag a.value a.children

variable {p q : Pool} {a b : Acquisition} {id place : Nat}

/-- A node is acquired as a whole, or not at all. -/
theorem run_acquire (a : Acquisition) (p : Pool) : (acquire a).run p =
    if p.isFull then .error (.poolExhausted p.size) p else .ok p.size (p.add a) := by
  have run_nextId : nextId.run p = if p.isFull then .error (.poolExhausted p.size) p else .ok p.size p := rfl
  have count : (p.children.appendList a.children).size - p.children.size = a.children.length := by
    have hsize : (p.children.appendList a.children).size = p.children.size + a.children.length :=
      p.size_children_push a.start a.stop a.tag a.value a.children
    rw [hsize, Nat.add_sub_cancel_left]
  rw [acquire, EStateM.run_bind, run_nextId]
  cases p.isFull with
  | true => rfl
  | false =>
    show EStateM.Result.ok p.size _ = EStateM.Result.ok p.size _
    rw [add, push, ← count]

/-- The step by step acquisition is the one that the machine makes. -/
theorem run_acquire_eq_acquire? (a : Acquisition) (p : Pool) : (acquire a).run p =
    (p.acquire? a.start a.stop a.tag a.value a.children).elim (.error (.poolExhausted p.size) p)
      fun made => .ok made.1 made.2 := by
  rw [run_acquire, acquire?]
  split <;> rfl

theorem get?_add (p : Pool) (a : Acquisition) (id : Nat) : (p.add a).get? id =
    if id = p.size then some ⟨a.start, a.stop, a.tag, a.value, p.children.size, a.children.length⟩ else p.get? id :=
  Array.getElem?_push

/-! ## Stretches -/

/-- Where the stretch of a node begins; for an id that is not in the pool, the end of the shared list. -/
def edge (p : Pool) (id : Nat) : Nat := ((p.get? id).map PoolNode.firstChild).getD p.children.size

/-- The stretches begin at the beginning of the shared list, each one ends where the next one begins, and the last
    one ends where the list does. -/
structure Tiled (p : Pool) : Prop where
  zero : p.edge 0 = 0
  succ : ∀ id node, p.get? id = some node → p.edge (id + 1) = node.firstChild + node.childCount

theorem edge_of_get? {node : PoolNode} (h : p.get? id = some node) : p.edge id = node.firstChild := by
  rw [edge, h, Option.map_some, Option.getD_some]

theorem edge_of_size_le (h : p.size ≤ id) : p.edge id = p.children.size := by
  rw [edge, get?, Array.getElem?_eq_none_iff.2 h, Option.map_none, Option.getD_none]

/-- The new node's stretch begins where the shared list ended, and the other stretches stay. -/
theorem edge_add (h : id ≤ p.size) : (p.add a).edge id = p.edge id := by
  rw [edge, get?_add]
  split
  · next heq => rw [Option.map_some, Option.getD_some, edge_of_size_le (Nat.le_of_eq heq.symm)]
  · next hne =>
    have pooled : id < p.size := Nat.lt_of_le_of_ne h hne
    have hnode : p.get? id = some p.nodes[id] := Array.getElem?_eq_getElem pooled
    rw [edge_of_get? hnode, hnode, Option.map_some, Option.getD_some]

namespace Tiled

theorem empty : Pool.empty.Tiled := ⟨rfl, nofun⟩

theorem add (h : p.Tiled) (a : Acquisition) : (p.add a).Tiled where
  zero := by rw [edge_add (Nat.zero_le _), h.zero]
  succ id node hnode := by
    rw [get?_add] at hnode
    split at hnode
    · next heq =>
      obtain rfl := Option.some.inj hnode
      rw [edge_of_size_le (by rw [Pool.add, size_push]; omega), Pool.add, size_children_push]
    · next hne =>
      have pooled : id < p.size := (Array.getElem?_eq_some_iff.1 hnode).1
      rw [edge_add pooled, h.succ id node hnode]

/-- Stretches go up with the ids. -/
theorem monotone (h : p.Tiled) : Monotone p.edge := by
  refine monotone_nat_of_le_succ fun id => ?_
  cases hnode : p.get? id with
  | some node =>
    rw [edge_of_get? hnode, h.succ id node hnode]
    exact Nat.le_add_right ..
  | none =>
    have beyond : p.size ≤ id := Array.getElem?_eq_none_iff.1 hnode
    rw [edge_of_size_le beyond, edge_of_size_le (Nat.le_succ_of_le beyond)]

/-- A node's stretch is inside the shared list. -/
theorem inside (h : p.Tiled) {node : PoolNode} (hnode : p.get? id = some node) :
    node.firstChild + node.childCount ≤ p.children.size := by
  have pooled : id < p.size := (Array.getElem?_eq_some_iff.1 hnode).1
  rw [← h.succ id node hnode, ← edge_of_size_le (Nat.le_refl p.size)]
  exact h.monotone pooled

/-- Each place in the shared list is in the stretch of one node. -/
theorem existsUnique_stretch (h : p.Tiled) (hplace : place < p.children.size) : ∃! id, ∃ node,
    p.get? id = some node ∧ node.firstChild ≤ place ∧ place < node.firstChild + node.childCount := by
  have some_above : ∃ id, place < p.edge (id + 1) :=
    ⟨p.size, by rwa [edge_of_size_le (Nat.le_succ p.size)]⟩
  -- The node is the first whose stretch ends behind the place.
  obtain ⟨id, above, least⟩ : ∃ id, place < p.edge (id + 1) ∧ ∀ before < id, p.edge (before + 1) ≤ place :=
    ⟨Nat.find some_above, Nat.find_spec some_above, fun _ hlt => Nat.le_of_not_lt (Nat.find_min some_above hlt)⟩
  have below : p.edge id ≤ place := by
    cases id with
    | zero => rw [h.zero]; exact Nat.zero_le _
    | succ before => exact least before (Nat.lt_succ_self before)
  refine ⟨id, ?_, ?_⟩
  · cases hnode : p.get? id with
    | some node => exact ⟨node, hnode, edge_of_get? hnode ▸ below, h.succ id node hnode ▸ above⟩
    | none =>
      have beyond : p.size ≤ id := Array.getElem?_eq_none_iff.1 hnode
      rw [edge_of_size_le beyond] at below
      exact absurd hplace (Nat.not_lt_of_le below)
  · intro other hother
    obtain ⟨node, hnode, from_below, to_above⟩ := hother
    rw [← edge_of_get? hnode] at from_below
    rw [← h.succ other node hnode] at to_above
    rcases Nat.lt_trichotomy other id with before | same | behind
    · have : p.edge (other + 1) ≤ p.edge id := h.monotone before
      omega
    · exact same
    · have : p.edge (id + 1) ≤ p.edge other := h.monotone behind
      omega

end Tiled

/-! ## Calls -/

/-- What is done with a pool. -/
inductive Call where
  | acquire (a : Acquisition)
  | reset

/-- The pool that a call leaves. -/
def Call.leave (p : Pool) : Call → Pool
  | acquire a =>
    match (Pool.acquire a).run p with
    | .ok _ q => q
    | .error _ q => q
  | reset => .empty

/-- The pool that calls leave. -/
def after (calls : List Call) : Pool := calls.foldl Call.leave .empty

/-- The calls acquire the node under this id, and do not reset the pool behind that. -/
def Made (calls : List Call) (id : NodeId) (a : Acquisition) : Prop :=
  ∃ before later made, calls = before ++ .acquire a :: later ∧ Call.reset ∉ later ∧
    (acquire a).run (after before) = .ok id made

/-- Since the last reset, nodes are acquired only with ids of nodes that are in the pool. -/
def Disciplined (calls : List Call) : Prop :=
  ∀ before a later, calls = before ++ .acquire a :: later → Call.reset ∉ later →
    ∀ child ∈ a.children, child < (after before).size

variable {calls later : List Call} {call : Call}

theorem leave_acquire (p : Pool) (a : Acquisition) : Call.leave p (.acquire a) = if p.isFull then p else p.add a := by
  rw [Call.leave, run_acquire]
  cases p.isFull <;> rfl

theorem after_append (calls later : List Call) : after (calls ++ later) = later.foldl Call.leave (after calls) :=
  List.foldl_append

theorem extends_leave (p : Pool) (a : Acquisition) : p.Extends (Call.leave p (.acquire a)) := by
  rw [leave_acquire]
  split
  · exact .refl p
  · exact extends_push ..

/-- Without a reset a pool only grows. -/
theorem extends_of_calls (noReset : Call.reset ∉ later) (p : Pool) : p.Extends (later.foldl Call.leave p) := by
  induction later generalizing p with
  | nil => exact .refl p
  | cons call later ih =>
    rw [List.mem_cons, not_or] at noReset
    cases call with
    | acquire a => exact (extends_leave p a).trans (ih noReset.2 _)
    | reset => exact absurd rfl noReset.1

theorem tiled_after (calls : List Call) : (after calls).Tiled := by
  induction calls using List.reverseRecOn with
  | nil => exact .empty
  | append_singleton calls call ih =>
    rw [after_append]
    cases call with
    | acquire a =>
      show (Call.leave (after calls) (.acquire a)).Tiled
      rw [leave_acquire]
      split
      · exact ih
      · exact ih.add a
    | reset => exact .empty

/-! ## The nodes of the pool -/

/-- What was in the pool when a node was acquired, and then the node, are still in the pool. -/
theorem Made.extends (h : Made calls id a) : ∃ p : Pool, id = p.size ∧ (p.add a).Extends (after calls) := by
  obtain ⟨before, later, made, rfl, noReset, hrun⟩ := h
  rw [run_acquire] at hrun
  split at hrun
  · cases hrun
  · next notFull =>
    cases hrun
    refine ⟨after before, rfl, ?_⟩
    have added : Call.leave (after before) (.acquire a) = (after before).add a := by rw [leave_acquire, if_neg notFull]
    rw [after_append, List.foldl_cons, added]
    exact extends_of_calls noReset _

theorem Made.pooled (h : Made calls id a) : id < (after calls).size := by
  obtain ⟨p, rfl, grown⟩ := h.extends
  have := grown.size_le
  rw [add, size_push] at this
  exact this

theorem Made.get?_eq (h : Made calls id a) : (after calls).get? id =
    some ⟨a.start, a.stop, a.tag, a.value, (after calls).edge id, a.children.length⟩ := by
  obtain ⟨p, rfl, grown⟩ := h.extends
  have hnode := get?_of_extends_push grown
  rw [edge_of_get? hnode]
  exact hnode

theorem Made.childrenOf_eq (h : Made calls id a) : (after calls).childrenOf id = a.children := by
  obtain ⟨p, rfl, grown⟩ := h.extends
  exact childrenOf_of_extends_push grown

/-- Each node of the pool was acquired since the last reset. -/
theorem exists_made (pooled : id < (after calls).size) : ∃ a, Made calls id a := by
  induction calls using List.reverseRecOn with
  | nil => cases pooled
  | append_singleton calls call ih =>
    have last : after (calls ++ [call]) = Call.leave (after calls) call := after_append calls [call]
    rw [last] at pooled
    have kept (b : Acquisition) (hcall : call = .acquire b) (before : id < (after calls).size) :
        ∃ a, Made (calls ++ [call]) id a := by
      obtain ⟨a, first, later, made, rfl, noReset, hrun⟩ := ih before
      refine ⟨a, first, later ++ [call], made, by rw [List.append_assoc, List.cons_append], ?_, hrun⟩
      rw [List.mem_append, List.mem_singleton, not_or]
      exact ⟨noReset, by rw [hcall]; exact Call.noConfusion⟩
    cases call with
    | reset => cases pooled
    | acquire b =>
      rw [leave_acquire] at pooled
      split at pooled
      · exact kept b rfl pooled
      · next notFull =>
        rw [add, size_push] at pooled
        rcases Nat.lt_or_eq_of_le (Nat.le_of_lt_succ pooled) with before | rfl
        · exact kept b rfl before
        · refine ⟨b, calls, [], (after calls).add b, rfl, List.not_mem_nil, ?_⟩
          rw [run_acquire, if_neg notFull]

/-- Where nodes are acquired with ids of nodes in the pool, children have smaller ids than their parent. -/
theorem Disciplined.descends (h : Disciplined calls) (parent : Nat) :
    ∀ child ∈ (after calls).childrenOf parent, child < parent := by
  intro child hchild
  rcases Nat.lt_or_ge parent (after calls).size with pooled | beyond
  · obtain ⟨a, made⟩ := exists_made pooled
    rw [made.childrenOf_eq] at hchild
    obtain ⟨before, later, q, hcalls, noReset, hrun⟩ := made
    have hlt := h before a later hcalls noReset child hchild
    rw [run_acquire] at hrun
    split at hrun <;> cases hrun
    exact hlt
  · rw [childrenOf_of_not_pooled beyond] at hchild
    cases hchild

/-! ## Copying trees out -/

mutual

/-- How the tree under an id is copied out: the children first, one after the other, and then the node over them. -/
inductive Copies (p : Pool) : NodeId → Option Tree → Prop where
  | missing {id : NodeId} (h : p.get? id = none) : p.Copies id none
  | node {id : NodeId} {node : PoolNode} {trees? : Option (List Tree)} (hnode : p.get? id = some node)
      (htrees : p.CopiesAll (p.childrenOf id) trees?) :
      p.Copies id (trees?.map (Tree.mk node.start node.stop node.tag node.value))

/-- Copying comes to an end at the first child that is not in the pool. -/
inductive CopiesAll (p : Pool) : List NodeId → Option (List Tree) → Prop where
  | nil : p.CopiesAll [] (some [])
  | stuck {child : NodeId} {rest : List NodeId} (h : p.Copies child none) : p.CopiesAll (child :: rest) none
  | cons {child : NodeId} {rest : List NodeId} {t : Tree} {trees? : Option (List Tree)} (h : p.Copies child (some t))
      (hrest : p.CopiesAll rest trees?) : p.CopiesAll (child :: rest) (trees?.map (t :: ·))

end

theorem copiesAll_iff {ids : List NodeId} {copy : NodeId → Option Tree} {trees? : Option (List Tree)}
    (h : ∀ child ∈ ids, ∀ tree?, p.Copies child tree? ↔ tree? = copy child) :
    p.CopiesAll ids trees? ↔ trees? = ids.mapM copy := by
  induction ids generalizing trees? with
  | nil =>
    constructor
    · intro hall
      cases hall
      rfl
    · rintro rfl
      exact .nil
  | cons child rest ih =>
    have hchild := h child List.mem_cons_self
    have hrest {trees? : Option (List Tree)} : p.CopiesAll rest trees? ↔ trees? = rest.mapM copy :=
      ih fun other hmem => h other (List.mem_cons_of_mem _ hmem)
    rw [List.mapM_cons]
    constructor
    · intro hall
      cases hall with
      | stuck hstuck =>
        rw [← (hchild none).1 hstuck]
        rfl
      | cons hcopy hall =>
        rw [← (hchild _).1 hcopy, ← hrest.1 hall]
        exact Option.map_eq_bind
    · rintro rfl
      cases hcopy : copy child with
      | none => exact .stuck ((hchild none).2 hcopy.symm)
      | some t =>
        have hall := CopiesAll.cons ((hchild _).2 hcopy.symm) (hrest.2 rfl)
        rwa [Option.map_eq_bind] at hall

theorem finalize?_of_not_pooled (h : p.size ≤ id) : p.finalize? id = none := by
  have hnone : p.get? id = none := Array.getElem?_eq_none_iff.2 h
  cases hdepth : p.size with
  | zero => rw [finalize?, hdepth, copy?]
  | succ depth => rw [finalize?, hdepth, copy?, hnone]

theorem copies_of_not_pooled (h : p.size ≤ id) {tree? : Option Tree} : p.Copies id tree? ↔ tree? = none := by
  have hnone : p.get? id = none := Array.getElem?_eq_none_iff.2 h
  constructor
  · intro hcopies
    cases hcopies with
    | missing => rfl
    | node hnode _ => cases hnone.symm.trans hnode
  · rintro rfl
    exact .missing hnone

theorem copies_node_iff {node : PoolNode} (hnode : p.get? id = some node) {tree? : Option Tree} :
    p.Copies id tree? ↔ ∃ trees?, p.CopiesAll (p.childrenOf id) trees? ∧
      tree? = trees?.map (Tree.mk node.start node.stop node.tag node.value) := by
  constructor
  · intro hcopies
    cases hcopies with
    | missing hnone => cases hnone.symm.trans hnode
    | node hnode' hall =>
      cases hnode.symm.trans hnode'
      exact ⟨_, hall, rfl⟩
  · rintro ⟨trees?, hall, rfl⟩
    exact .node hnode hall

/-- Where children have smaller ids, copying a tree comes to an end, and the bound that `copy?` has on the way down
    cuts nothing off. -/
theorem copies_iff {depth : Nat} (descends : ∀ parent ≤ id, ∀ child ∈ p.childrenOf parent, child < parent)
    (hdepth : id < depth) {tree? : Option Tree} : p.Copies id tree? ↔ tree? = p.copy? depth id := by
  induction depth generalizing id tree? with
  | zero => cases hdepth
  | succ depth ih =>
    have hall {trees? : Option (List Tree)} :
        p.CopiesAll (p.childrenOf id) trees? ↔ trees? = (p.childrenOf id).mapM (p.copy? depth) := by
      refine copiesAll_iff fun child hchild tree? => ?_
      have hlt : child < id := descends id (Nat.le_refl id) child hchild
      exact ih (fun parent hle => descends parent (Nat.le_trans hle (Nat.le_of_lt hlt)))
        (Nat.lt_of_lt_of_le hlt (Nat.le_of_lt_succ hdepth))
    rw [copy?]
    cases hnode : p.get? id with
    | none => exact copies_of_not_pooled (Array.getElem?_eq_none_iff.1 hnode)
    | some node =>
      simp only [copies_node_iff hnode, hall, exists_eq_left]
      cases (p.childrenOf id).mapM (p.copy? depth) <;> rfl

/-! ## Disciplined calls -/

/-- A node is acquired by the last call or by one before it. -/
theorem acquired_last_or_before {before : List Call} (h : calls ++ [call] = before ++ .acquire a :: later) :
    calls = before ∧ call = .acquire a ∧ later = [] ∨
      ∃ rest, calls = before ++ .acquire a :: rest ∧ later = rest ++ [call] := by
  rcases List.eq_nil_or_concat later with rfl | ⟨rest, last, rfl⟩
  · obtain ⟨rfl, hcall⟩ := List.append_inj' h rfl
    exact .inl ⟨rfl, List.singleton_inj.1 hcall, rfl⟩
  · rw [List.concat_eq_append, ← List.cons_append, ← List.append_assoc] at h
    obtain ⟨rfl, hcall⟩ := List.append_inj' h rfl
    obtain rfl := List.singleton_inj.1 hcall
    exact .inr ⟨rest, rfl, List.concat_eq_append⟩

/-- After a reset nothing counts that was done before. -/
theorem Disciplined.reset (calls : List Call) : Disciplined (calls ++ [.reset]) := by
  intro before a later hcalls noReset
  rcases acquired_last_or_before hcalls with ⟨-, hcall, -⟩ | ⟨rest, -, rfl⟩
  · cases hcall
  · exact absurd (List.mem_append_right rest (List.mem_singleton_self _)) noReset

theorem Disciplined.acquire (h : Disciplined calls) (pooled : ∀ child ∈ a.children, child < (after calls).size) :
    Disciplined (calls ++ [.acquire a]) := by
  intro before b later hcalls noReset
  rcases acquired_last_or_before hcalls with ⟨rfl, hcall, -⟩ | ⟨rest, rfl, rfl⟩
  · cases hcall
    exact pooled
  · exact h before b rest rfl fun hmem => noReset (List.mem_append_left _ hmem)

/-- After disciplined calls each node has a tree. After any more calls that do not reset the pool, copying it out
    still comes to an end, and gives the same tree. -/
theorem Disciplined.copies (h : Disciplined calls) (noReset : Call.reset ∉ later) (pooled : id < (after calls).size) :
    ∃ t, (after calls).finalize? id = some t ∧ (after (calls ++ later)).finalize? id = some t ∧
      ∀ tree?, (after (calls ++ later)).Copies id tree? ↔ tree? = some t := by
  have grown : (after calls).Extends (after (calls ++ later)) := by
    rw [after_append]
    exact extends_of_calls noReset _
  have inside : ∀ node ∈ (after calls).nodes, node.firstChild + node.childCount ≤ (after calls).children.size := by
    intro node hnode
    obtain ⟨id, hid⟩ := Array.getElem?_of_mem hnode
    exact (tiled_after calls).inside hid
  obtain ⟨t, ht⟩ := copy_of_descends (fun parent _ => h.descends parent) pooled
  have hcopy : (after calls).finalize? id = some t := ht (after calls).size pooled
  have hcopy' : (after (calls ++ later)).finalize? id = some t :=
    copy?_mono grown.size_le (copy?_of_extends inside grown hcopy)
  -- Up to this node, the nodes have the children that they had.
  have descends : ∀ parent ≤ id, ∀ child ∈ (after (calls ++ later)).childrenOf parent, child < parent := by
    intro parent hle
    rw [childrenOf_of_extends inside grown (Nat.lt_of_le_of_lt hle pooled)]
    exact h.descends parent
  refine ⟨t, hcopy, hcopy', fun tree? => ?_⟩
  rw [copies_iff descends (Nat.lt_of_lt_of_le pooled grown.size_le), ← hcopy', finalize?]

/-- After disciplined calls an id has no tree only if it is not in the pool. -/
theorem Disciplined.finalize_eq_none_iff (h : Disciplined calls) :
    (after calls).finalize? id = none ↔ (after calls).size ≤ id := by
  constructor
  · intro hnone
    by_contra hlt
    obtain ⟨t, ht, -⟩ := h.copies List.not_mem_nil (Nat.lt_of_not_le hlt)
    cases hnone.symm.trans ht
  · exact finalize?_of_not_pooled

/-! ## What holds after any calls -/

/-- **The shared list of children stays consistent.** Whatever ids nodes are acquired with, the stretches of the nodes
    in the pool follow one another and make up the shared list, and each node has the children that it was acquired
    with, whatever was acquired behind it. An acquisition that fails changes nothing. If since the last reset nodes were
    acquired only with ids of nodes in the pool, copying a tree out comes to an end for every id, gives nothing only for
    an id that is not in the pool, and gives the same tree after any more acquisitions. -/
theorem calls_consistent (calls : List Call) :
    -- The stretches of the nodes follow one another and make up the shared list.
    ((after calls).Tiled ∧
      (∀ place < (after calls).children.size, ∃! id, ∃ node, (after calls).get? id = some node ∧
        node.firstChild ≤ place ∧ place < node.firstChild + node.childCount) ∧
      ∀ id node, (after calls).get? id = some node →
        node.firstChild + node.childCount ≤ (after calls).children.size) ∧
    -- The nodes are those that were acquired since the last reset, with their children.
    ((∀ id, id < (after calls).size ↔ ∃ a, Made calls id a) ∧
      (∀ id a, Made calls id a → (after calls).childrenOf id = a.children ∧ (after calls).get? id =
        some ⟨a.start, a.stop, a.tag, a.value, (after calls).edge id, a.children.length⟩) ∧
      ∀ id, (after calls).size ≤ id → (after calls).childrenOf id = []) ∧
    -- A node is acquired as the machine acquires one, and where none can be, nothing changes.
    (∀ a, (acquire a).run (after calls) =
        ((after calls).acquire? a.start a.stop a.tag a.value a.children).elim
          (.error (.poolExhausted (after calls).size) (after calls)) (fun made => .ok made.1 made.2) ∧
      ∀ error p, (acquire a).run (after calls) = .error error p →
        p = after calls ∧ error = .poolExhausted (after calls).size ∧
        (after calls).acquire? a.start a.stop a.tag a.value a.children = none) ∧
    -- Trees are copied to their end, and stay as they are.
    (Disciplined calls → ∀ id,
      (∀ tree?, (after calls).Copies id tree? ↔ tree? = (after calls).finalize? id) ∧
      ((after calls).finalize? id = none ↔ (after calls).size ≤ id) ∧
      ∀ later, Call.reset ∉ later → id < (after calls).size →
        (after (calls ++ later)).finalize? id = (after calls).finalize? id ∧
        ∀ tree?, (after (calls ++ later)).Copies id tree? ↔ tree? = (after calls).finalize? id) := by
  have tiled := tiled_after calls
  refine ⟨⟨tiled, fun place => tiled.existsUnique_stretch, fun id node => tiled.inside⟩,
    ⟨fun id => ⟨exists_made, fun ⟨a, made⟩ => made.pooled⟩, fun id a made => ⟨made.childrenOf_eq, made.get?_eq⟩,
      fun id => childrenOf_of_not_pooled⟩, ?_, ?_⟩
  · refine fun a => ⟨run_acquire_eq_acquire? a _, fun error p hrun => ?_⟩
    rw [run_acquire] at hrun
    split at hrun
    · next full =>
      cases hrun
      exact ⟨rfl, rfl, if_pos full⟩
    · cases hrun
  · intro disciplined id
    refine ⟨fun tree? => ?_, disciplined.finalize_eq_none_iff, fun later noReset pooled => ?_⟩
    · rcases Nat.lt_or_ge id (after calls).size with pooled | beyond
      · exact copies_iff (fun parent _ => disciplined.descends parent) pooled
      · rw [copies_of_not_pooled beyond, finalize?_of_not_pooled beyond]
    · obtain ⟨t, ht, ht', hcopies⟩ := disciplined.copies noReset pooled
      rw [ht]
      exact ⟨ht', hcopies⟩

/-- A node is acquired with an id that is not in the pool; then, after a reset, two leaves and a node over them, and
    behind that a node whose second child is again not in the pool. -/
theorem calls_consistent_staleIds :
    let leaf (start stop : Nat) : Acquisition := ⟨start, stop, some "Digit", none, []⟩
    let calls : List Call := [.acquire ⟨0, 0, none, none, [7]⟩, .reset, .acquire (leaf 0 1), .acquire (leaf 1 2),
      .acquire ⟨0, 2, none, none, [0, 1]⟩]
    let later : List Call := [.acquire ⟨0, 2, none, none, [2, 9]⟩]
    let tree : Tree := ⟨0, 2, none, none, [⟨0, 1, some "Digit", none, []⟩, ⟨1, 2, some "Digit", none, []⟩]⟩
    Made (calls ++ later) 2 ⟨0, 2, none, none, [0, 1]⟩ ∧ (after (calls ++ later)).childrenOf 2 = [0, 1] ∧
      Disciplined calls ∧ (∀ tree?, (after (calls ++ later)).Copies 2 tree? ↔ tree? = some tree) ∧
      (after (calls ++ later)).finalize? 3 = none := by
  intro leaf calls later tree
  have made : Made (calls ++ later) 2 ⟨0, 2, none, none, [0, 1]⟩ :=
    ⟨calls.take 4, later, _, rfl, by simp [later], rfl⟩
  have disciplined : Disciplined calls :=
    (((Disciplined.reset [_]).acquire (a := leaf 0 1) nofun).acquire (a := leaf 1 2) nofun).acquire
      (a := ⟨0, 2, none, none, [0, 1]⟩) (by decide)
  have copied : (after calls).finalize? 2 = some tree := by decide
  obtain ⟨-, ⟨-, asAcquired, -⟩, -, -⟩ := calls_consistent (calls ++ later)
  obtain ⟨-, -, -, trees⟩ := calls_consistent calls
  have unchanged := (trees disciplined 2).2.2 later (by simp [later]) (by decide)
  rw [copied] at unchanged
  exact ⟨made, (asAcquired 2 _ made).1, disciplined, unchanged.2, by decide⟩

end PegMachine.Pool
