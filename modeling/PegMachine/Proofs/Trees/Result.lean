import PegMachine.Proofs.Run.Contexts
import PegMachine.Proofs.Trees.Tracking
/-!
  The result tree of a match.

  The tree that is copied out of the pool at the end of a run is the one that the log of trees gives, and no
  other run gives a tree. What is proved:
    1. `finish_of_tracks`: closing the open nodes and making the root gives the root of the log of trees after
       all nodes were closed in it, unless the pool has no room for the nodes that are made for it;
    2. `trees_refined`: the log of trees follows the machine's log through all runs of a context, and gives
       their results.
-/
namespace PegMachine

/-! ## Making the tree -/

namespace Machine

variable {m x : Machine} {b : TreeBuilder} {start : Nat}

/-- A node that is open can be closed if the pool has room. -/
theorem closeFault?_of_tracks (h : m.Tracks b) (some_open : b.log.depth ≠ 0) :
    ∃ place start, m.work.log.innermost? = some (place, start) ∧
      m.closeFault? = if m.pool.isFull then some (.poolExhausted m.pool.size) else none := by
  cases hi : m.work.log.innermost? with
  | none =>
    rw [← Stands.depth_eq h.entries, ← h.exact.depth_eq, NodeLog.depth, h.exact.innermost?_eq_none_iff.1 hi]
      at some_open
    exact absurd rfl some_open
  | some inner =>
    obtain ⟨place, start⟩ := inner
    exact ⟨place, start, rfl, by simp only [closeFault?, hi]⟩

/-- Closing the open nodes closes them all in the log of trees, unless the pool has no room for as many. -/
theorem closeOpens_of_tracks {count : Nat} (h : m.Tracks b) (hcount : b.log.depth = count) :
    (∃ x, m.closeOpens count = (x, some (.poolExhausted x.pool.size)) ∧ Pool.capacity ≤ x.pool.size ∧
      m.pool.size ≤ x.pool.size ∧ x.pool.size < m.pool.size + count ∧
      x.pool.size ≤ max Pool.capacity m.pool.size) ∨
    ∃ x, m.closeOpens count = (x, none) ∧ x.Tracks { b with log := b.log.closeAll m.pos } ∧ x.pos = m.pos ∧
      x.pool.size = m.pool.size + count ∧ (count = 0 ∨ x.pool.size ≤ Pool.capacity) := by
  induction count generalizing m b with
  | zero =>
    refine .inr ⟨m, rfl, ?_, rfl, rfl, .inl rfl⟩
    rw [TreeLog.closeAll, hcount]
    exact h
  | succ count ih =>
    obtain ⟨place, start, hi, hfault⟩ := closeFault?_of_tracks h (by omega)
    rw [closeOpens, hfault]
    cases hfull : m.pool.isFull with
    | true =>
      exact .inl ⟨m, rfl, of_decide_eq_true hfull, Nat.le_refl _, by omega, Nat.le_max_right ..⟩
    | false =>
      have hclose : m.closeNode = m.foldFrom place start := by simp only [closeNode, hi]
      have hsize := m.size_foldFrom place start
      have hlt : ¬ Pool.capacity ≤ m.pool.size := of_decide_eq_false hfull
      have hdepth : (b.log.close m.pos).depth = count := by rw [TreeLog.depth_close, hcount]; rfl
      have hall : TreeLog.closeAll m.pos (b.log.close m.pos) = b.log.closeAll m.pos :=
        TreeLog.closeAll_close (by omega)
      simp only [hclose, Bool.false_eq_true, if_false]
      rcases ih (h.fold hi) hdepth with ⟨x, hx, hfull', hle, hroom⟩ | ⟨x, hx, htracks, hpos, hsize', hroom⟩
      · exact .inl ⟨x, hx, hfull', by omega, by omega, by omega⟩
      · refine .inr ⟨x, hx, ?_, hpos, by omega, .inr (by omega)⟩
        rw [← hall]
        exact htracks

theorem root?_of_lone {t : Tree} (h : m.Tracks b) (hlone : b.log.lone? = some t) (start : Nat) :
    ∃ id, m.root? start = some (id, m.pool) ∧ m.pool.Stores id t := by
  obtain ⟨htrees, htag, hvalue⟩ := TreeLog.lone?_eq_some.1 hlone
  have hnodes := Stands.nodes h.entries
  rw [htrees] at hnodes
  obtain ⟨id, none, stored, hnone, hids⟩ := List.forall₂_cons_right_iff.1 hnodes
  obtain rfl := List.forall₂_nil_right_iff.1 hnone
  rw [← Stands.lastTag_eq h.entries] at htag
  rw [← Stands.lastValue_eq h.entries] at hvalue
  exact ⟨id, by simp only [root?, hids, htag, hvalue], stored⟩

theorem root?_of_not_lone (h : m.Tracks b) (hlone : b.log.lone? = none) (start : Nat) :
    m.root? start = m.pool.acquire? start m.pos b.log.lastTag b.log.lastValue
      (LogEntry.nodes m.work.log.entries.toList) := by
  have htag := Stands.lastTag_eq h.entries
  have hvalue := Stands.lastValue_eq h.entries
  simp only [root?]
  split
  · next only hids hnoTag hnoValue =>
    -- A single node without labels stands for a single tree without labels.
    have hnodes := Stands.nodes h.entries
    rw [hids] at hnodes
    obtain ⟨t, none, -, hnone, htrees⟩ := List.forall₂_cons_left_iff.1 hnodes
    obtain rfl := List.forall₂_nil_left_iff.1 hnone
    rw [TreeLog.lone?_eq_some.2 ⟨htrees, htag ▸ hnoTag, hvalue ▸ hnoValue⟩] at hlone
    cases hlone
  · rw [htag, hvalue]

/-- Copying the root out gives the root of the log of trees, unless a new node is needed and the pool is full. -/
theorem extract_of_tracks (h : m.Tracks b) (start : Nat) :
    (m.extract start = (m, .error (.poolExhausted m.pool.size)) ∧ Pool.capacity ≤ m.pool.size ∧
      b.log.missing = 1) ∨
    ∃ pool, m.extract start = ({ m with pool }, .ok (b.log.root start m.pos)) ∧
      pool.size = m.pool.size + b.log.missing ∧ (b.log.missing = 0 ∨ pool.size ≤ Pool.capacity) := by
  rw [TreeLog.missing, TreeLog.root]
  cases hlone : b.log.lone? with
  | some t =>
    obtain ⟨id, hroot, stored⟩ := root?_of_lone h hlone start
    exact .inr ⟨m.pool, extract_of_root? hroot stored, rfl, .inl rfl⟩
  | none =>
    have hroot := root?_of_not_lone h hlone start
    rw [Pool.acquire?] at hroot
    cases hfull : m.pool.isFull with
    | true =>
      rw [hfull] at hroot
      refine .inl ⟨by simp only [extract, hroot, if_true], of_decide_eq_true hfull, rfl⟩
    | false =>
      rw [hfull] at hroot
      have hsize : (m.pool.push start m.pos b.log.lastTag b.log.lastValue
          (LogEntry.nodes m.work.log.entries.toList)).size = m.pool.size + 1 := Pool.size_push ..
      have hlt : ¬ Pool.capacity ≤ m.pool.size := of_decide_eq_false hfull
      exact .inr ⟨_, extract_of_root? hroot (Pool.stores_push (Stands.nodes h.entries) _ _ _ _), hsize,
        .inr (by omega)⟩

/-- How many nodes are made for the result tree of the log: one for each node that is open, and one for the
    root if there is not a single tree. -/
theorem finish_of_tracks (h : m.Tracks b) (start : Nat) :
    (∃ x, m.finish start = (x, .error (.poolExhausted x.pool.size)) ∧ Pool.capacity ≤ x.pool.size ∧
      m.pool.size ≤ x.pool.size ∧ x.pool.size < m.pool.size + b.log.needed m.pos ∧
      x.pool.size ≤ max Pool.capacity m.pool.size) ∨
    ∃ x, m.finish start = (x, .ok ((b.log.closeAll m.pos).root start m.pos)) ∧ x.pos = m.pos ∧
      x.pool.size = m.pool.size + b.log.needed m.pos ∧
      (b.log.needed m.pos = 0 ∨ x.pool.size ≤ Pool.capacity) := by
  have hdepth : m.work.log.depth = b.log.depth := by rw [h.exact.depth_eq, Stands.depth_eq h.entries]
  rw [finish, hdepth, TreeLog.needed]
  rcases closeOpens_of_tracks h rfl with ⟨x, hx, hfull, hle, hroom⟩ | ⟨x, hx, hclosed, hpos, hsize, hroom⟩
  · rw [hx]
    exact .inl ⟨x, rfl, hfull, hle, by omega, by omega⟩
  · rw [hx, ← hpos]
    rw [← hpos] at hclosed
    rcases extract_of_tracks hclosed start with ⟨hroot, hfull, hmissing⟩ | ⟨pool, hroot, hsize', hroom'⟩
    · exact .inl ⟨x, hroot, hfull, by omega, by simp only at hmissing; omega, by omega⟩
    · simp only at hsize' hroom'
      exact .inr ⟨{ x with pool }, hroot, rfl, by simp only; omega, by simp only; omega⟩

end Machine

/-! ## Runs of a context -/

namespace Context

/-- A machine that has accepted is concluded with the root of the log of trees, unless the pool is full. -/
theorem conclude_of_tracks (c : Context) {last : Machine} {b : TreeBuilder} (h : last.Tracks b) :
    (∃ nodes ≥ Pool.capacity, (c.conclude ⟨last, .ok true⟩).1 = .stopped (.poolExhausted nodes)) ∨
    (c.conclude ⟨last, .ok true⟩).1 = .matched ((b.log.closeAll last.pos).root c.startPos last.pos) ∧
      (c.conclude ⟨last, .ok true⟩).2.pos = last.pos := by
  rw [conclude]
  rcases Machine.finish_of_tracks h c.startPos with ⟨x, hx, hfull, -⟩ | ⟨x, hx, hpos, -, -⟩
  · exact .inl ⟨x.pool.size, hfull, by simp only [hx]⟩
  · exact .inr ⟨by simp only [hx], by simp only [hx, after, hpos]⟩

/-- The tree of a run that matches is the root of the builder's log where the run accepted, and the run has made
    the nodes that this root needs. -/
theorem tree_of_run {c c' : Context} {program : Program} {fuel : Nat} {tree : Tree}
    (h : c.run program fuel = some (.matched tree, c')) :
    ∃ n last, (c.setting program).Trace ((c.setting program).states c.machine) n ∧
      (c.setting program).step ((c.setting program).states c.machine n) = .halted true last ∧ c'.pos = last.pos ∧
      c'.pool.size = last.pool.size + ((c.setting program).building c.machine n).log.needed last.pos ∧
      tree = (((c.setting program).building c.machine n).log.closeAll last.pos).root c.startPos last.pos := by
  obtain ⟨n, last, trace, hlast, hresult⟩ := concluded_of_run h
  have tracks := Setting.tracks_of_states (s := c.setting program) c.startPoint c.startPos c.pool n
  rw [conclude] at hresult
  rcases Machine.finish_of_tracks (Setting.tracks_of_accepted hlast tracks) c.startPos with
    ⟨x, hx, -⟩ | ⟨x, hx, hpos, hsize, -⟩
  · simp only [hx] at hresult
    cases hresult
  · simp only [hx] at hresult
    cases hresult
    exact ⟨n, last, trace, hlast, hpos, hsize, rfl⟩

/-- Where the root of a match is copied out, the log shows the builder's log with all nodes closed. -/
theorem closed_of_run {c c' : Context} {program : Program} {fuel : Nat} {tree : Tree}
    (h : c.run program fuel = some (.matched tree, c')) :
    ∃ n last closed x, (c.setting program).Trace ((c.setting program).states c.machine) n ∧
      (c.setting program).step ((c.setting program).states c.machine n) = .halted true last ∧
      last.closeOpens last.work.log.depth = (closed, none) ∧
      closed.Tracks { (c.setting program).building c.machine n with
        log := ((c.setting program).building c.machine n).log.closeAll last.pos } ∧
      closed.extract c.startPos = (x, .ok tree) ∧ closed.pos = last.pos ∧ c'.pos = last.pos ∧ c'.pool = x.pool := by
  obtain ⟨n, last, closed, x, trace, hlast, hclose, hextract, hpos, hpool⟩ := accepted_of_run h
  have tracks : last.Tracks ((c.setting program).building c.machine n) :=
    Setting.tracks_of_accepted hlast (Setting.tracks_of_states c.startPoint c.startPos c.pool n)
  have hdepth : last.work.log.depth = ((c.setting program).building c.machine n).log.depth := by
    rw [tracks.exact.depth_eq, Stands.depth_eq tracks.entries]
  rcases Machine.closeOpens_of_tracks tracks hdepth.symm with ⟨y, hfull, -⟩ | ⟨y, hclosed, htracks, hstop, -⟩
  · rw [hclose] at hfull
    cases hfull
  · rw [hclose] at hclosed
    cases hclosed
    exact ⟨n, last, closed, x, trace, hlast, hclose, htracks, hextract, hstop, hpos, hpool⟩

/-- **The pooled log refines building trees directly.** Let a run of whatever program begin with whatever pool.
    In every state of the run the log shows the builder's log of trees, and ids of finished nodes are copied
    out of the pool as the trees. If the run accepts it gives the root of the builder's log after all open nodes
    were closed at the cursor, innermost first, unless the pool is full. No run gives another tree. -/
theorem trees_refined (c : Context) (program : Program) :
    let s := c.setting program
    (∀ n, (s.states c.machine n).Shows (s.building c.machine n).log) ∧
    (∀ n last, s.Trace (s.states c.machine) n → s.step (s.states c.machine n) = .halted true last →
      c.startPoint ≠ 0 → ∀ fuel > n, ∃ outcome c', c.run program fuel = some (outcome, c') ∧
        ((∃ nodes ≥ Pool.capacity, outcome = .stopped (.poolExhausted nodes)) ∨
          outcome = .matched (((s.building c.machine n).log.closeAll last.pos).root c.startPos last.pos))) ∧
    (∀ fuel tree c', c.run program fuel = some (.matched tree, c') →
      ∃ n, s.Trace (s.states c.machine) n ∧ (∃ last, s.step (s.states c.machine n) = .halted true last) ∧
        tree = ((s.building c.machine n).log.closeAll c'.pos).root c.startPos c'.pos) := by
  intro s
  have tracks (n : Nat) : (s.states c.machine n).Tracks (s.building c.machine n) :=
    Setting.tracks_of_states c.startPoint c.startPos c.pool n
  have ends {n : Nat} {last : Machine} (hlast : s.step (s.states c.machine n) = .halted true last) :=
    conclude_of_tracks c (Setting.tracks_of_accepted hlast (tracks n))
  refine ⟨fun n => (tracks n).shows, fun n last trace hlast loaded fuel hfuel => ?_, fun fuel tree c' hrun => ?_⟩
  · have hend : s.step (s.states c.machine n) = Halt.transition ⟨last, .ok true⟩ := hlast
    have hexec := Setting.execute_of_trace trace hend fuel hfuel
    exact ⟨_, _, (run_eq_some loaded).2 ⟨_, hexec, rfl⟩, (ends hlast).imp_right And.left⟩
  · rcases run_cases hrun with ⟨-, hresult⟩ | ⟨-, ⟨last, result⟩, hexec, hresult⟩
    · cases hresult
    · obtain ⟨n, trace, hlast⟩ := Setting.trace_of_execute hexec
      obtain rfl : result = .ok true := halt_of_matched hresult
      refine ⟨n, trace, ⟨last, hlast⟩, ?_⟩
      rcases ends hlast with ⟨nodes, -, hfull⟩ | ⟨hmatched, hpos⟩
      · rw [hresult] at hfull
        cases hfull
      · rw [hresult] at hmatched hpos
        rw [hpos]
        exact Outcome.matched.inj hmatched

/-- Opens a node, builds one inside it that it takes back, builds another, and accepts with the outer node
    still open. -/
def reopening : Program :=
  .ofList [.exit, .nodeOpen, .choice 7, .nodeOpen, .any, .nodeClose, .fail, .nodeOpen, .any, .tag "leaf", .nodeClose,
    .value "v", .any, .exit]

/-- A pool that an earlier run has left something in. -/
def reopeningContext : Context :=
  { new {} with input := #[97, 98], startPoint := 1, pool := .push .empty 0 9 (some "old") none [0] }

theorem trees_refined_reopening :
    let s := reopeningContext.setting reopening
    let leaf : Tree := ⟨0, 1, some "leaf", none, []⟩
    (s.states reopeningContext.machine 12).Shows [.opened 0, .tree leaf, .value "v"] ∧
    ∃ c', reopeningContext.run reopening 13 = some (.matched ⟨0, 2, none, some "v", [leaf]⟩, c') ∧
      ∃ n, ⟨0, 2, none, some "v", [leaf]⟩ =
        ((s.building reopeningContext.machine n).log.closeAll c'.pos).root 0 c'.pos := by
  intro s leaf
  obtain ⟨shows, -, runs⟩ := trees_refined reopeningContext reopening
  have hlog : (s.building reopeningContext.machine 12).log = [.opened 0, .tree leaf, .value "v"] := by
    decide +kernel
  have hrun : (reopeningContext.run reopening 13).map Prod.fst =
      some (.matched ⟨0, 2, none, some "v", [leaf]⟩) := by
    decide +kernel
  obtain ⟨⟨outcome, c'⟩, hrun, rfl⟩ := Option.map_eq_some_iff.1 hrun
  obtain ⟨n, -, -, htree⟩ := runs 13 _ c' hrun
  exact ⟨hlog ▸ shows 12, c', hrun, n, htree⟩

end Context

end PegMachine
