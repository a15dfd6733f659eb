import PegMachine.Proofs.Pool.Forest
import PegMachine.Proofs.Trees.Result
/-!
  Runs build trees.

  A backtrack cuts the log back, but what was pooled stays in the pool. So a node that was taken back could come
  up again under another parent, if the log could ever name one that hangs under a node already. It cannot: the
  log only loses ids, and a fold takes away the ids that it puts under the new node.
  What is proved:
    1. `nodes_close_le`, `size_root`: closing a node makes one node more, and the root has as many nodes as there
       are finished in the log and made for it;
    2. `Machine.Forest`: the pool is a forest, and the ids in the log are different nodes of it that hang under no
       other. Every move keeps this, and so does closing what is open at the end and making the root;
    3. `pooled_of_states`: a run has made at least as many nodes as are finished in its log of trees;
    4. `Reachable.forest`: so no context can come about whose pool is not a forest;
    5. `nothing_shared`: all of this holds throughout a run and after it, the root can be copied, and its tree has
       no more nodes than the run made.
-/
namespace PegMachine

/-! ## How many nodes -/

namespace Tree

theorem length_walk (todo : List Tree) : (walk todo).length = sizeList todo := by
  induction todo using walk.induct with
  | case1 => rw [walk, List.length_nil, sizeList]
  | case2 t todo ih =>
    rw [walk, List.length_cons, ih, sizeList_append, sizeList, size_eq]
    omega

theorem nodeCount_eq_size (t : Tree) : t.nodeCount = t.size := length_walk [t]

end Tree

namespace TreeLog

/-- How many nodes the finished trees of the log have. -/
def nodes (log : TreeLog) : Nat := Tree.sizeList log.trees

theorem nodes_append (log rest : TreeLog) : nodes (log ++ rest) = log.nodes + rest.nodes := by
  rw [nodes, trees, List.filterMap_append, Tree.sizeList_append]
  rfl

theorem nodes_take_le (log : TreeLog) (length : Nat) : nodes (log.take length) ≤ log.nodes := by
  conv_rhs => rw [← List.take_append_drop length log, nodes_append]
  exact Nat.le_add_right ..

theorem size_toTree (log : TreeLog) (start stop : Nat) : (log.toTree start stop).size = log.nodes + 1 := by
  rw [Tree.size_eq, Nat.add_comm]
  rfl

theorem nodes_close_le (stop : Nat) (log : TreeLog) : (close stop log).nodes ≤ log.nodes + 1 := by
  induction log with
  | nil => exact Nat.zero_le _
  | cons entry rest ih =>
    cases entry with
    | opened start =>
      rw [close]
      split
      · exact ih
      · show (toTree rest start stop).size + 0 ≤ _
        rw [size_toTree]
        exact Nat.le_refl _
    | tag | value => exact ih
    | tree t =>
      show t.size + nodes (close stop rest) ≤ t.size + nodes rest + 1
      omega

theorem nodes_closeAll_le (stop : Nat) (log : TreeLog) : (log.closeAll stop).nodes ≤ log.nodes + log.depth := by
  rw [closeAll]
  induction log.depth with
  | zero => exact Nat.le_refl _
  | succ depth ih =>
    rw [Function.iterate_succ_apply']
    have := nodes_close_le stop ((close stop)^[depth] log)
    omega

/-- The root has the nodes of the finished trees, and one more if it is made for them. -/
theorem size_root (log : TreeLog) (start stop : Nat) : (log.root start stop).size = log.nodes + log.missing := by
  rw [root, missing]
  cases hlone : log.lone? with
  | some t =>
    rw [nodes, (lone?_eq_some.1 hlone).1]
    rfl
  | none => exact size_toTree log start stop

end TreeLog

/-! ## Machines -/

/-- The finished nodes in the log. -/
def NodeLog.ids (log : NodeLog) : List NodeId := LogEntry.nodes log.entries.toList

/-- The pool is a forest, and the finished nodes in the log are roots in it, each of them listed once. -/
structure Machine.Forest (m : Machine) (since : Nat) : Prop where
  pool : m.pool.Forest since
  distinct : m.work.log.ids.Nodup
  pooled : ∀ id ∈ m.work.log.ids, id < m.pool.size
  roots : ∀ id ∈ m.work.log.ids, ∀ parent, id ∉ m.pool.childrenOf parent

namespace NodeLog

variable {log : NodeLog} {place start : Nat}

theorem ids_push (log : NodeLog) (entry : LogEntry) : (log.push entry).ids = log.ids ++ LogEntry.nodes [entry] := by
  rw [ids, push, Array.toList_push, LogEntry.nodes, List.filterMap_append]
  rfl

theorem ids_openNode (log : NodeLog) (start : Nat) : (log.openNode start).ids = log.ids :=
  (log.ids_push (.opened start)).trans (List.append_nil _)

theorem ids_truncate (log : NodeLog) (length : Nat) : (log.truncate length).ids.Sublist log.ids := by
  rw [ids, truncate, Array.toList_shrink]
  exact (List.take_sublist ..).filterMap _

/-- The finished nodes in the log lie before the innermost opened node or inside it. -/
theorem ids_split (h : log.innermost? = some (place, start)) :
    log.ids = (log.truncate place).ids ++ LogEntry.nodes (log.entriesFrom (place + 1)) := by
  rw [ids, ids, truncate, Array.toList_shrink, LogEntry.nodes, LogEntry.nodes, LogEntry.nodes]
  conv_lhs => rw [← List.take_append_drop place log.entries.toList, drop_innermost h, List.filterMap_append]
  rfl

end NodeLog

namespace Machine.Forest

variable {m x : Machine} {since place start : Nat} {id : NodeId} {pool : Pool}

theorem of_start (h : pool.Forest since) (pc pos : Nat) : (Machine.start pc pos pool).Forest since :=
  ⟨h, .nil, nofun, nofun⟩

/-- The log may lose ids. -/
theorem of_sublist (h : m.Forest since) (ids : x.work.log.ids.Sublist m.work.log.ids) (pool : x.pool = m.pool) :
    x.Forest since where
  pool := pool ▸ h.pool
  distinct := h.distinct.sublist ids
  pooled id hid := pool ▸ h.pooled id (ids.subset hid)
  roots id hid := pool ▸ h.roots id (ids.subset hid)

theorem kept (h : m.Forest since) (log : x.work.log = m.work.log) (pool : x.pool = m.pool) : x.Forest since :=
  h.of_sublist (log ▸ .refl _) pool

theorem restore (h : m.Forest since) (f : Frame) : (m.restore f).Forest since :=
  h.of_sublist (m.work.log.ids_truncate f.logLength) rfl

/-- A fold puts the ids inside the node under the new one, and the id of the new one into the log for them. -/
theorem foldFrom (h : m.Forest since) (hi : m.work.log.innermost? = some (place, start)) :
    (m.foldFrom place start).Forest since := by
  have hsplit := NodeLog.ids_split hi
  have hids : (m.foldFrom place start).work.log.ids = (m.work.log.truncate place).ids ++ [m.pool.size] :=
    NodeLog.ids_push ..
  have outside : ∀ id ∈ (m.work.log.truncate place).ids, id ∈ m.work.log.ids := fun id hid => by
    rw [hsplit]
    exact List.mem_append_left _ hid
  have inside : ∀ id ∈ LogEntry.nodes (m.work.log.entriesFrom (place + 1)), id ∈ m.work.log.ids := fun id hid => by
    rw [hsplit]
    exact List.mem_append_right _ hid
  obtain ⟨distinctOutside, distinctInside, disjoint⟩ := List.nodup_append.1 (hsplit ▸ h.distinct)
  have pool : (m.foldFrom place start).pool.Forest since :=
    h.pool.push distinctInside (fun id hid => h.pooled id (inside id hid)) fun id hid => h.roots id (inside id hid)
  refine ⟨pool, ?_, ?_, ?_⟩
  · rw [hids, List.nodup_append]
    refine ⟨distinctOutside, List.pairwise_singleton .., fun id hid new hnew => ?_⟩
    rw [List.mem_singleton.1 hnew]
    exact Nat.ne_of_lt (h.pooled id (outside id hid))
  · rw [hids, m.size_foldFrom]
    intro id hid
    rcases List.mem_append.1 hid with hid | hid
    · exact Nat.lt_succ_of_lt (h.pooled id (outside id hid))
    · rw [List.mem_singleton.1 hid]
      exact Nat.lt_succ_self _
  · rw [hids]
    intro id hid parent hchild
    rw [Machine.foldFrom, h.pool.childrenOf_push] at hchild
    rcases List.mem_append.1 hid with hid | hid <;> split at hchild
    · exact disjoint id hid id hchild rfl
    · exact h.roots id (outside id hid) parent hchild
    · rw [List.mem_singleton.1 hid] at hchild
      exact Nat.lt_irrefl _ (h.pooled _ (inside _ hchild))
    · rw [List.mem_singleton.1 hid] at hchild
      exact Nat.lt_irrefl _ (h.pool.pooled hchild)

theorem closeNode (h : m.Forest since) : m.closeNode.Forest since := by
  rw [Machine.closeNode]
  split
  · next hi => exact h.foldFrom hi
  · exact h

theorem closeOpens (h : m.Forest since) (count : Nat) : (m.closeOpens count).1.Forest since := by
  induction count generalizing m with
  | zero => exact h
  | succ count ih =>
    rw [Machine.closeOpens]
    split
    · exact h
    · exact ih h.closeNode

/-- The root is a node of a forest. -/
theorem root? (h : m.Forest since) (hroot : m.root? start = some (id, pool)) :
    pool.Forest since ∧ id < pool.size := by
  simp only [Machine.root?] at hroot
  split at hroot
  · next hids _ _ =>
    cases hroot
    exact ⟨h.pool, h.pooled id (by rw [NodeLog.ids, hids]; exact List.mem_singleton_self id)⟩
  · rw [Pool.acquire?] at hroot
    split at hroot
    · cases hroot
    · cases hroot
      refine ⟨h.pool.push h.distinct h.pooled h.roots, ?_⟩
      rw [Pool.size_push]
      exact Nat.lt_succ_self _

theorem finish (h : m.Forest since) (start : Nat) : (m.finish start).1.pool.Forest since := by
  have hclosed := h.closeOpens m.work.log.depth
  rw [Machine.finish]
  split
  · next hclose => exact (hclose ▸ hclosed).pool
  · next x hclose =>
    rw [hclose] at hclosed
    rw [extract]
    split
    · exact hclosed.pool
    · next id pool hroot =>
      simp only
      split <;> exact (hclosed.root? hroot).1

end Machine.Forest

/-! ## Runs -/

namespace Setting

variable {s : Setting} {m m' : Machine} {i : Instruction} {since : Nat}

/-- No move makes the log name a node that hangs under another one. -/
theorem forest_of_move (code : s.program.at? m.pc = some i) (h : s.Move m i m') (hm : m.Forest since) :
    m'.Forest since := by
  have hlog := logMove_of_move code h .empty
  generalize s.build m .empty = b' at hlog
  have label {entry : LogEntry} (hnone : LogEntry.nodes [entry] = []) : (m.pushEntry entry).Forest since :=
    hm.of_sublist (by rw [Machine.pushEntry, NodeLog.ids_push, hnone, List.append_nil]) rfl
  cases hlog with
  | kept log backtrack pool => exact hm.kept log pool
  | tagged text same | valued text same => exact (label rfl).kept same.log same.pool
  | opened same => exact hm.of_sublist (by rw [same.log, Machine.openNode, NodeLog.ids_openNode]) same.pool
  | closed place start code innermost same => exact (hm.foldFrom innermost).kept same.log same.pool
  | saved alternative same => exact hm.kept same.log same.pool
  | dropped same => exact hm.kept same.log same.pool
  | refreshed f same => exact hm.kept same.log same.pool
  | restored f top same => exact (hm.restore f).kept same.log same.pool
  | restoredNext f next same => exact (hm.restore f).kept same.log same.pool

theorem forest_of_reaches (h : s.Reaches m m') (hm : m.Forest since) : m'.Forest since :=
  invariant_of_reaches (fun _ _ _ => forest_of_move) h hm

/-- A step that halts leaves log and pool as they were. -/
theorem forest_of_halted {matched : Bool} (h : s.step m = .halted matched m') (hm : m.Forest since) :
    m'.Forest since := by
  obtain ⟨i, -, ⟨-, -, rfl⟩ | ⟨m₁, -, done, -, rfl⟩⟩ := step_halted h
  · exact hm.kept rfl rfl
  · obtain rfl | ⟨-, rfl, -⟩ := perform_eq_fail done
    · exact hm.kept rfl rfl
    · exact hm.kept rfl rfl

/-- A move makes a node in the pool for each node that it makes in the log of trees. -/
theorem pooled_of_move {before : Nat} {b : TreeBuilder} (code : s.program.at? m.pc = some i) (h : s.Move m i m')
    (hm : before + b.log.nodes ≤ m.pool.size) : before + (s.build m b).log.nodes ≤ m'.pool.size := by
  have hlog := logMove_of_move code h b
  generalize s.build m b = b' at hlog ⊢
  have restored (b : TreeBuilder) : b.restore.log.nodes ≤ b.log.nodes := by
    rw [TreeBuilder.restore]
    split
    · exact TreeLog.nodes_take_le ..
    · exact Nat.le_refl _
  have added {entry : TreeEntry} (hnone : TreeLog.nodes [entry] = 0) : (b.add entry).log.nodes = b.log.nodes := by
    rw [TreeBuilder.add, TreeLog.nodes_append, hnone, Nat.add_zero]
  cases hlog with
  | kept log backtrack pool => rwa [pool]
  | tagged text same | valued text same | opened same => rwa [added rfl, same.pool]
  | closed place start code innermost same =>
    have hclose := TreeLog.nodes_close_le m.pos b.log
    rw [same.pool, m.size_foldFrom]
    simp only
    omega
  | saved alternative same => rwa [same.pool]
  | dropped same => rwa [same.pool]
  | refreshed f same => rwa [same.pool]
  | restored f top same =>
    rw [same.pool]
    exact Nat.le_trans (Nat.add_le_add_left (restored b) _) hm
  | restoredNext f next same =>
    rw [same.pool]
    exact Nat.le_trans (Nat.add_le_add_left (restored b.drop) _) hm

theorem pooled_of_states (pc pos : Nat) (pool : Pool) (n : Nat) :
    pool.size + (s.building (.start pc pos pool) n).log.nodes ≤ (s.states (.start pc pos pool) n).pool.size := by
  induction n with
  | zero => exact Nat.le_refl _
  | succ n ih =>
    rw [states, building]
    cases hstep : s.step (s.states (.start pc pos pool) n) with
    | running m' =>
      obtain ⟨i, code, move⟩ := move_of_step hstep
      exact pooled_of_move code move ih
    | halted | stopped => exact ih

end Setting

/-! ## Runs of a context -/

namespace Context

variable {c c' : Context} {program : Program} {fuel since : Nat} {outcome : Outcome}

/-- However a run ends, it leaves a forest in the pool. -/
theorem forest_of_run (h : c.run program fuel = some (outcome, c')) (forest : c.pool.Forest since) :
    c'.pool.Forest since := by
  rcases run_cases h with ⟨-, hresult⟩ | ⟨-, ⟨x, result⟩, hexec, hresult⟩
  · cases hresult
    exact forest
  · obtain ⟨last, reached, hlast⟩ := Setting.reaches_of_execute hexec
    have hm : last.Forest since := Setting.forest_of_reaches reached (.of_start forest ..)
    rw [conclude] at hresult
    cases result with
    | error error =>
      obtain ⟨rfl, -⟩ := Setting.step_stopped hlast
      cases hresult
      exact hm.pool
    | ok matched =>
      have hx : x.Forest since := Setting.forest_of_halted hlast hm
      cases matched with
      | false =>
        cases hresult
        exact hx.pool
      | true =>
        have hfinish := hx.finish c.startPos
        simp only at hresult
        split at hresult <;> next heq =>
          rw [heq] at hfinish
          cases hresult
          exact hfinish

/-- No context can come about whose pool is not a forest. -/
theorem Reachable.forest (h : c.Reachable) : c.pool.Forest 0 := by
  induction h with
  | new | loaded => exact .empty 0
  | loadedInto _ options bytes rule? ih =>
    rw [loadInto]
    split
    · exact .empty 0
    · exact ih
  | used _ use ih =>
    cases use with
    | setInput | setPos | takeRoot => exact ih
    | rewind => exact .empty 0
    | run run => exact forest_of_run run ih
    | runProfiled run => exact forest_of_run (run_of_runProfiled run) ih

/-- The tree of a match has no more nodes than the run made. -/
theorem nodeCount_le_of_run {tree : Tree} (h : c.run program fuel = some (.matched tree, c')) :
    c.pool.size + tree.nodeCount ≤ c'.pool.size := by
  obtain ⟨n, last, -, hlast, -, hsize, rfl⟩ := tree_of_run h
  have hpooled : c.pool.size + ((c.setting program).building c.machine n).log.nodes ≤ last.pool.size := by
    obtain rfl := Setting.step_accepted hlast
    exact Setting.pooled_of_states c.startPoint c.startPos c.pool n
  have hclosed := TreeLog.nodes_closeAll_le last.pos ((c.setting program).building c.machine n).log
  rw [Tree.nodeCount_eq_size, TreeLog.size_root, hsize, TreeLog.needed]
  omega

/-- **Runs build trees, never shared or cyclic graphs.** Let the pool be a forest before a run of whatever
    program, as it is in every context that can come about. In every state of the run it is a forest, and the ids in
    the log are different nodes of it that hang under no other. Where the run accepts, the nodes still open are closed
    and the root is made without leaving a forest. So the root's tree can be copied, and no way down from the root is
    longer than its id. The result can only be refused for want of room, and it has no more nodes than the run made.
    With 0 for `since` no node of the pool lists a child twice; with the size that the pool had before the run this is
    said of the new nodes only. -/
theorem nothing_shared (program : Program) (forest : c.pool.Forest since) :
    let s := c.setting program
    (∀ m, s.Reaches c.machine m → m.Forest since) ∧
    (∀ m last, s.Reaches c.machine m → s.step m = .halted true last →
      (∀ count, (last.closeOpens count).1.Forest since) ∧
      (∀ x id pool, last.closeOpens last.work.log.depth = (x, none) → x.root? c.startPos = some (id, pool) →
        pool.Forest since ∧ ∃ tree, pool.finalize? id = some tree ∧ ∀ depth > id, pool.copy? depth id = some tree) ∧
      ∀ error, (last.finish c.startPos).2 = .error error → ∃ nodes, error = .poolExhausted nodes) ∧
    (∀ fuel outcome c', c.run program fuel = some (outcome, c') →
      c'.pool.Forest since ∧ ∀ tree, outcome = .matched tree → c.pool.size + tree.nodeCount ≤ c'.pool.size) ∧
    ∀ c' : Context, c'.Reachable → c'.pool.Forest 0 := by
  intro s
  have states (m : Machine) (reached : s.Reaches c.machine m) : m.Forest since :=
    Setting.forest_of_reaches reached (.of_start forest ..)
  refine ⟨states, fun m last reached hlast => ?_, fun fuel outcome c' run => ?_, fun c' => Reachable.forest⟩
  · have hm : last.Forest since := Setting.forest_of_halted hlast (states m reached)
    refine ⟨hm.closeOpens, fun x id pool hclose hroot => ?_, fun error herror => ?_⟩
    · have hx := hm.closeOpens last.work.log.depth
      rw [hclose] at hx
      obtain ⟨hpool, pooled⟩ := hx.root? hroot
      obtain ⟨tree, copies⟩ := hpool.copy pooled
      exact ⟨hpool, tree, copies pool.size pooled, copies⟩
    · obtain ⟨n, -, rfl⟩ := Setting.states_of_reaches reached
      have tracks := Setting.tracks_of_states (s := s) c.startPoint c.startPos c.pool n
      rcases Machine.finish_of_tracks (Setting.tracks_of_accepted hlast tracks) c.startPos with
        ⟨x, hx, -⟩ | ⟨x, hx, -⟩
      · rw [hx] at herror
        exact ⟨x.pool.size, (Except.error.inj herror).symm⟩
      · rw [hx] at herror
        cases herror
  · refine ⟨forest_of_run run forest, fun tree htree => ?_⟩
    rw [htree] at run
    exact nodeCount_le_of_run run

/-- The same over a pool in which an earlier run has left a tree. -/
def reusedContext : Context :=
  { reopeningContext with pool := (Pool.empty.push 1 2 none none []).push 0 9 (some "old") none [0] }

theorem nothing_shared_reused :
    let s := reusedContext.setting reopening
    reusedContext.pool.Forest 0 ∧
    (∃ m, s.Reaches reusedContext.machine m ∧ m.Forest 0 ∧ m.work.log.ids = [3] ∧ m.pool.size = 4) ∧
    (∃ (pool : Pool) (tree : Tree), pool.Forest 0 ∧ pool.finalize? 4 = some tree) ∧
    ∃ tree c', reusedContext.run reopening 13 = some (.matched tree, c') ∧ c'.pool.Forest 0 ∧
      2 + tree.nodeCount ≤ c'.pool.size := by
  intro s
  have leaf : (Pool.empty.push 1 2 none none []).Forest 0 := (Pool.Forest.empty 0).push .nil nofun nofun
  have forest : reusedContext.pool.Forest 0 := by
    refine leaf.push (List.pairwise_singleton ..) (by decide) fun child _ parent hchild => ?_
    rw [(Pool.Forest.empty 0).childrenOf_push] at hchild
    split at hchild <;> cases hchild
  obtain ⟨states, accepted, runs, -⟩ := nothing_shared reopening forest
  let t := s.states reusedContext.machine
  have reaches (n : Nat) : s.Reaches reusedContext.machine (t n) := Setting.reaches_states s _ n
  refine ⟨forest, ⟨t 12, reaches 12, states _ (reaches 12), by decide +kernel, by decide +kernel⟩, ?_, ?_⟩
  · have accepts : s.program.at? (t 12).pc = some .exit := by decide +kernel
    obtain ⟨-, roots, -⟩ := accepted (t 12) (t 12).noteCursor (reaches 12) (Setting.step_of_code accepts)
    have hclose : ((t 12).noteCursor.closeOpens (t 12).noteCursor.work.log.depth).2 = none := by decide +kernel
    have hroot : (((t 12).noteCursor.closeOpens (t 12).noteCursor.work.log.depth).1.root? 0).map Prod.fst =
        some 4 := by decide +kernel
    generalize (t 12).noteCursor.closeOpens (t 12).noteCursor.work.log.depth = closed at roots hclose hroot
    obtain ⟨x, fault⟩ := closed
    obtain ⟨⟨id, pool⟩, hroot, rfl⟩ := Option.map_eq_some_iff.1 hroot
    obtain ⟨hpool, tree, copied, -⟩ := roots x _ pool (Prod.ext rfl hclose) hroot
    exact ⟨pool, tree, hpool, copied⟩
  · have hrun : (reusedContext.run reopening 13).map Prod.fst =
        some (.matched ⟨0, 2, none, some "v", [⟨0, 1, some "leaf", none, []⟩]⟩) := by decide +kernel
    obtain ⟨⟨outcome, c'⟩, hrun, rfl⟩ := Option.map_eq_some_iff.1 hrun
    obtain ⟨hpool, count⟩ := runs 13 _ c' hrun
    exact ⟨_, c', hrun, hpool, count _ rfl⟩

end Context

end PegMachine
