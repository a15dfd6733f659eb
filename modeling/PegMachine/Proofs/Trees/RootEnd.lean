import PegMachine.Proofs.Trees.Result
/-!
  Where a result tree ends.

  The root of a match is a node over all that the run consumed, or the one node that is left. That one may have
  been closed long before the run accepted, with the cursor elsewhere. What is proved:
    1. `TreeLog.stop_root`: the root ends at the last cursor if a node is still open there, or if there is not just
       one tree left;
    2. `tree_of_logMove`, `closed_of_states`: a tree in the log ends where the cursor was when a `nodeClose` put it
       there, by induction on the run;
    3. `root_end_of_run`: where the tree of a run ends.
-/
namespace PegMachine

/-! ## Logs -/

namespace TreeLog

variable {log : TreeLog} {start stop p : Nat} {t : Tree}

/-- Closing a node puts a tree that ends at the cursor at the end of the log. -/
theorem close_eq_append (some_open : log.depth ≠ 0) (stop : Nat) :
    ∃ below t, log.close stop = below ++ [.tree t] ∧ t.stop = stop := by
  induction log with
  | nil => exact absurd rfl some_open
  | cons entry rest ih =>
    cases entry with
    | opened start =>
      rw [close]
      split
      · next inner =>
        have deeper : depth rest ≠ 0 := Nat.ne_of_gt (List.countP_pos_iff.2 (List.any_eq_true.1 inner))
        obtain ⟨below, t, hclose, hstop⟩ := ih deeper
        exact ⟨.opened start :: below, t, by rw [hclose, List.cons_append], hstop⟩
      · exact ⟨[], toTree rest start stop, rfl, rfl⟩
    | tag | value | tree =>
      obtain ⟨below, t, hclose, hstop⟩ := ih some_open
      exact ⟨_ :: below, t, congrArg (_ :: ·) hclose, hstop⟩

/-- So does closing them all. -/
theorem closeAll_eq_append (some_open : log.depth ≠ 0) (stop : Nat) :
    ∃ below t, log.closeAll stop = below ++ [.tree t] ∧ t.stop = stop := by
  generalize hdepth : log.depth = depth
  induction depth generalizing log with
  | zero => exact absurd hdepth some_open
  | succ depth ih =>
    have closed : (log.close stop).depth = depth := by
      rw [depth_close, hdepth]
      rfl
    rw [← closeAll_close some_open]
    cases depth with
    | zero =>
      rw [closeAll, closed]
      exact close_eq_append some_open stop
    | succ depth => exact ih (by omega) closed

/-- The root is the only tree that is left, if no node is open. -/
theorem root_of_lone (none_open : log.depth = 0) (lone : log.lone? = some t) (start stop : Nat) :
    (log.closeAll stop).root start stop = t := by
  rw [closeAll, none_open, Function.iterate_zero_apply, root, lone]
  rfl

/-- In every other case it ends at the last cursor. -/
theorem stop_root (other : log.depth ≠ 0 ∨ log.lone? = none) (start stop : Nat) :
    ((log.closeAll stop).root start stop).stop = stop := by
  by_cases none_open : log.depth = 0
  · have not_lone : log.lone? = none := other.resolve_left (not_not_intro none_open)
    rw [closeAll, none_open, Function.iterate_zero_apply, root, not_lone]
    rfl
  · obtain ⟨below, last, hclosed, hstop⟩ := closeAll_eq_append none_open stop
    rw [root]
    cases lone : (log.closeAll stop).lone? with
    | none => rfl
    | some t =>
      -- The tree that was closed last is among the trees, so it is the only one.
      have htrees : trees below ++ [last] = [] ++ [t] := by
        have only := (lone?_eq_some.1 lone).1
        rw [hclosed, trees, List.filterMap_append] at only
        exact only
      obtain rfl := List.singleton_inj.1 (List.append_inj' htrees rfl).2
      exact hstop

/-- A tree in the log after a node was closed was there before, or it is the new one. -/
theorem getElem?_close (h : (log.close stop)[p]? = some (.tree t)) : log[p]? = some (.tree t) ∨ t.stop = stop := by
  induction log generalizing p with
  | nil => cases h
  | cons entry rest ih =>
    cases entry with
    | opened start =>
      rw [close] at h
      split at h
      · cases p with
        | zero => cases h
        | succ p => exact ih h
      · cases p with
        | zero =>
          cases h
          exact .inr rfl
        | succ p => cases h
    | tag | value | tree =>
      cases p with
      | zero => exact .inl h
      | succ p => exact ih h

theorem exists_of_lone (lone : log.lone? = some t) : ∃ p : Nat, log[p]? = some (TreeEntry.tree t) := by
  have only : t ∈ log.trees := by simp [(lone?_eq_some.1 lone).1]
  obtain ⟨entry, hentry, htree⟩ := List.mem_filterMap.1 only
  cases entry with
  | tree u =>
    cases htree
    exact List.mem_iff_getElem?.1 hentry
  | opened | tag | value => cases htree

end TreeLog

namespace TreeBuilder

variable {b : TreeBuilder} {entry : TreeEntry} {p : Nat} {t : Tree}

theorem of_getElem?_add (other : entry ≠ .tree t) (h : (b.add entry).log[p]? = some (.tree t)) :
    b.log[p]? = some (.tree t) := by
  rw [add, List.getElem?_append] at h
  split at h
  · exact h
  · rw [List.getElem?_singleton] at h
    split at h
    · exact absurd (Option.some.inj h) other
    · cases h

/-- Cutting the log back leaves what it keeps where it was. -/
theorem of_getElem?_restore (h : b.restore.log[p]? = some entry) : b.log[p]? = some entry := by
  rw [restore] at h
  split at h
  · rw [List.getElem?_take] at h
    split at h
    · exact h
    · cases h
  · exact h

end TreeBuilder

/-! ## Runs -/

namespace Setting

variable {s : Setting} {m x : Machine} {b b' : TreeBuilder} {p : Nat} {t : Tree}

/-- A tree in the log after a move was there before, or a `nodeClose` has put it there. -/
theorem tree_of_logMove (h : s.LogMove m b x b') (entry : b'.log[p]? = some (.tree t)) :
    b.log[p]? = some (.tree t) ∨ s.program.at? m.pc = some .nodeClose ∧ t.stop = m.pos := by
  cases h with
  | kept | saved | dropped | refreshed => exact .inl entry
  | tagged | valued | opened => exact .inl (TreeBuilder.of_getElem?_add TreeEntry.noConfusion entry)
  | closed place start code => exact (TreeLog.getElem?_close entry).imp_right fun hstop => ⟨code, hstop⟩
  | restored => exact .inl (TreeBuilder.of_getElem?_restore entry)
  | restoredNext =>
    have kept : b.drop.log[p]? = some (.tree t) := TreeBuilder.of_getElem?_restore entry
    exact .inl kept

/-- A `nodeClose` before step `n` has put the tree at this place of the log, with the cursor at the end of the
    tree, and it has been there since. -/
def Closed (s : Setting) (m : Machine) (n p : Nat) (t : Tree) : Prop :=
  ∃ k < n, s.program.at? (s.states m k).pc = some .nodeClose ∧ (s.states m k).pos = t.stop ∧
    ∀ j, k < j → j ≤ n → (s.building m j).log[p]? = some (.tree t)

/-- In every state of a run all trees in the log have been closed. -/
theorem closed_of_states {n : Nat} (trace : s.Trace (s.states m) n)
    (entry : (s.building m n).log[p]? = some (.tree t)) : s.Closed m n p t := by
  induction n with
  | zero => cases entry
  | succ n ih =>
    have hstep := trace n (Nat.lt_succ_self n)
    obtain ⟨i, code, move⟩ := move_of_step hstep
    have hbuilding : s.building m (n + 1) = s.build (s.states m n) (s.building m n) := by
      simp only [building, hstep]
    have before := entry
    rw [hbuilding] at before
    rcases tree_of_logMove (logMove_of_move code move _) before with old | ⟨closes, hstop⟩
    · obtain ⟨k, hk, closes, hstop, since⟩ := ih (fun k hk => trace k (by omega)) old
      refine ⟨k, Nat.lt_succ_of_lt hk, closes, hstop, fun j hkj hj => ?_⟩
      rcases Nat.le_succ_iff.1 hj with hj | rfl
      · exact since j hkj hj
      · exact entry
    · refine ⟨n, Nat.lt_succ_self n, closes, hstop.symm, fun j hnj hj => ?_⟩
      obtain rfl : j = n + 1 := Nat.le_antisymm hj hnj
      exact entry

end Setting

namespace Context

variable {c c' : Context} {program : Program} {fuel : Nat} {tree : Tree}

/-- Where the tree of a run ends: at the last cursor, or, if no node is open when the run accepts and a single tree
    without labels beside it is in the log, where the cursor was when this tree was closed. -/
theorem root_end_of_run (run : c.run program fuel = some (.matched tree, c')) :
    let s := c.setting program
    ∃ n last, s.Trace (s.states c.machine) n ∧ s.step (s.states c.machine n) = .halted true last ∧
      c'.pos = last.pos ∧
      let log := (s.building c.machine n).log
      (s.states c.machine n).Shows log ∧
      (log.depth ≠ 0 ∨ log.lone? = none → tree.stop = c'.pos) ∧
      ∀ only, log.depth = 0 → log.lone? = some only → tree = only ∧ ∃ p, s.Closed c.machine n p tree := by
  intro s
  obtain ⟨n, last, trace, hlast, hpos, -, rfl⟩ := tree_of_run run
  have shows := (Setting.tracks_of_states (s := s) c.startPoint c.startPos c.pool n).shows
  refine ⟨n, last, trace, hlast, hpos, shows, fun other => ?_, fun only none_open lone => ?_⟩
  · rw [hpos]
    exact TreeLog.stop_root other ..
  · rw [TreeLog.root_of_lone none_open lone]
    obtain ⟨p, entry⟩ := TreeLog.exists_of_lone lone
    exact ⟨rfl, p, Setting.closed_of_states trace entry⟩

end Context

end PegMachine
