import PegMachine.Proofs.Run.Cursor
import PegMachine.Proofs.Run.Restoration
import PegMachine.Proofs.Trees.Result
/-!
  The spans of a result tree are nested.

  Between the opening of a node and its end the cursor can go back many times. What holds the spans together is
  that a backtrack takes the log back with the cursor: the entries that a frame keeps lie before the position
  that it brings back. What is proved:
    1. `Tree.Row`, `Tree.Nested`: siblings lie one behind the other inside their parent, all the way down;
    2. `TreeLog.Laid`: the entries of a log lie one behind the other before the cursor. Closing a node, closing
       them all and making the root keep this and give nested trees;
    3. `Machine.Laid`, `laid_of_move`: in a run the log lies before the cursor, and what a frame keeps of it
       before the position of the frame. Every move keeps this as long as no `nodeClose` folds what a frame keeps;
    4. `spans_nested`: so the result of such a run is nested, between the start of the run and its cursor.
-/
namespace PegMachine

/-! ## Trees -/

namespace Tree

/-- The trees lie between `lo` and `hi`, one behind the other. -/
def Row (lo hi : Nat) : List Tree → Prop
  | [] => lo ≤ hi
  | t :: ts => lo ≤ t.start ∧ t.start ≤ t.stop ∧ Row t.stop hi ts

/-- The children of the tree lie in a row inside it, and so do theirs. -/
inductive Nested : Tree → Prop where
  | node {start stop : Nat} {tag value : Option String} {children : List Tree} (row : Row start stop children)
    (inner : ∀ child ∈ children, Nested child) : Nested ⟨start, stop, tag, value, children⟩

variable {lo lo' hi hi' : Nat} {t child : Tree} {ts : List Tree}

theorem Row.le (h : Row lo hi ts) : lo ≤ hi := by
  induction ts generalizing lo with
  | nil => exact h
  | cons t ts ih =>
    obtain ⟨hlo, hspan, hrest⟩ := h
    exact Nat.le_trans hlo (Nat.le_trans hspan (ih hrest))

theorem Row.mono_left (h : Row lo hi ts) (hle : lo' ≤ lo) : Row lo' hi ts := by
  cases ts with
  | nil => exact Nat.le_trans hle h
  | cons t ts => exact ⟨Nat.le_trans hle h.1, h.2⟩

theorem Row.mem (h : Row lo hi ts) (ht : t ∈ ts) : lo ≤ t.start ∧ t.stop ≤ hi := by
  induction ts generalizing lo with
  | nil => cases ht
  | cons u ts ih =>
    obtain ⟨hlo, hspan, hrest⟩ := h
    rcases List.mem_cons.1 ht with rfl | ht
    · exact ⟨hlo, hrest.le⟩
    · obtain ⟨hstart, hstop⟩ := ih hrest ht
      exact ⟨by omega, hstop⟩

/-- Each tree of a row ends before those behind it start. -/
theorem Row.pairwise (h : Row lo hi ts) : ts.Pairwise fun t u => t.stop ≤ u.start := by
  induction ts generalizing lo with
  | nil => exact .nil
  | cons t ts ih => exact .cons (fun u hu => (h.2.2.mem hu).1) (ih h.2.2)

theorem Nested.row (h : t.Nested) : Row t.start t.stop t.children := by
  cases h with
  | node row => exact row

theorem Nested.inner (h : t.Nested) (hchild : child ∈ t.children) : child.Nested := by
  cases h with
  | node _ inner => exact inner child hchild

/-- What passes from trees to their children holds of every node that a walk comes to. -/
theorem forall_mem_walk {P : Tree → Prop} (passes : ∀ t, P t → ∀ child ∈ t.children, P child) :
    ∀ todo, (∀ t ∈ todo, P t) → ∀ node ∈ walk todo, P node := by
  intro todo
  induction todo using walk.induct with
  | case1 => exact fun _ node hnode => absurd (walk.eq_1 ▸ hnode) List.not_mem_nil
  | case2 t todo ih =>
    intro h node hnode
    rw [walk] at hnode
    rcases List.mem_cons.1 hnode with rfl | hnode
    · exact h node List.mem_cons_self
    · refine ih (fun u hu => ?_) node hnode
      rcases List.mem_append.1 hu with hu | hu
      · exact passes t (h t List.mem_cons_self) u hu
      · exact h u (List.mem_cons_of_mem t hu)

/-- Every node of a nested tree is nested, and lies inside the tree. -/
theorem Nested.descendant (h : t.Nested) {node : Tree} (hnode : node ∈ t.descendants) :
    node.Nested ∧ t.start ≤ node.start ∧ node.stop ≤ t.stop := by
  refine forall_mem_walk (P := fun u => u.Nested ∧ t.start ≤ u.start ∧ u.stop ≤ t.stop)
    (fun u hu child hchild => ?_) [t] (fun u hu => ?_) node hnode
  · obtain ⟨hstart, hstop⟩ := hu.1.row.mem hchild
    exact ⟨hu.1.inner hchild, Nat.le_trans hu.2.1 hstart, Nat.le_trans hstop hu.2.2⟩
  · obtain rfl := List.mem_singleton.1 hu
    exact ⟨h, Nat.le_refl _, Nat.le_refl _⟩

end Tree

/-! ## Logs -/

namespace TreeLog

/-- What the entries cover lies between `lo` and `hi`, one behind the other, and the finished trees are nested.
    An opened node covers nothing yet, but it has a start. -/
def Laid (lo hi : Nat) : TreeLog → Prop
  | [] => lo ≤ hi
  | .opened start :: rest => lo ≤ start ∧ Laid start hi rest
  | .tree t :: rest => lo ≤ t.start ∧ t.Nested ∧ Laid t.stop hi rest
  | .tag _ :: rest => Laid lo hi rest
  | .value _ :: rest => Laid lo hi rest

variable {lo lo' hi hi' start : Nat} {log rest : TreeLog} {t : Tree}

namespace Laid

theorem le (h : Laid lo hi log) : lo ≤ hi := by
  induction log generalizing lo with
  | nil => exact h
  | cons entry rest ih =>
    cases entry with
    | opened start => exact Nat.le_trans h.1 (ih h.2)
    | tree t => exact Nat.le_trans h.1 (Nat.le_trans h.2.1.row.le (ih h.2.2))
    | tag | value => exact ih h

theorem mono_left (h : Laid lo hi log) (hle : lo' ≤ lo) : Laid lo' hi log := by
  induction log with
  | nil => exact Nat.le_trans hle h
  | cons entry rest ih =>
    cases entry with
    | opened | tree => exact ⟨Nat.le_trans hle h.1, h.2⟩
    | tag | value => exact ih h

theorem mono_right (h : Laid lo hi log) (hle : hi ≤ hi') : Laid lo hi' log := by
  induction log generalizing lo with
  | nil => exact Nat.le_trans h hle
  | cons entry rest ih =>
    cases entry with
    | opened => exact ⟨h.1, ih h.2⟩
    | tree => exact ⟨h.1, h.2.1, ih h.2.2⟩
    | tag | value => exact ih h

/-- A log can be cut anywhere, at some position in between. -/
theorem append_iff : Laid lo hi (log ++ rest) ↔ ∃ mid, Laid lo mid log ∧ Laid mid hi rest := by
  induction log generalizing lo with
  | nil => exact ⟨fun h => ⟨lo, Nat.le_refl _, h⟩, fun ⟨mid, hle, h⟩ => h.mono_left hle⟩
  | cons entry log ih =>
    cases entry with
    | opened start =>
      show lo ≤ start ∧ Laid start hi (log ++ rest) ↔ ∃ mid, (lo ≤ start ∧ Laid start mid log) ∧ _
      rw [ih]
      exact ⟨fun ⟨hlo, mid, h, h'⟩ => ⟨mid, ⟨hlo, h⟩, h'⟩, fun ⟨mid, ⟨hlo, h⟩, h'⟩ => ⟨hlo, mid, h, h'⟩⟩
    | tree t =>
      show lo ≤ t.start ∧ t.Nested ∧ Laid t.stop hi (log ++ rest) ↔
        ∃ mid, (lo ≤ t.start ∧ t.Nested ∧ Laid t.stop mid log) ∧ _
      rw [ih]
      exact ⟨fun ⟨hlo, ht, mid, h, h'⟩ => ⟨mid, ⟨hlo, ht, h⟩, h'⟩,
        fun ⟨mid, ⟨hlo, ht, h⟩, h'⟩ => ⟨hlo, ht, mid, h, h'⟩⟩
    | tag | value => exact ih

theorem take (h : Laid lo hi log) (length : Nat) : Laid lo hi (log.take length) := by
  rw [← List.take_append_drop length log, append_iff] at h
  obtain ⟨mid, hfirst, hlast⟩ := h
  exact hfirst.mono_right hlast.le

/-- The finished trees of a log lie in a row. -/
theorem row (h : Laid lo hi log) : Tree.Row lo hi log.trees := by
  induction log generalizing lo with
  | nil => exact h
  | cons entry rest ih =>
    cases entry with
    | opened => exact (ih h.2).mono_left h.1
    | tree => exact ⟨h.1, h.2.1.row.le, ih h.2.2⟩
    | tag | value => exact ih h

theorem nested (h : Laid lo hi log) : ∀ t ∈ log.trees, t.Nested := by
  induction log generalizing lo with
  | nil => exact nofun
  | cons entry rest ih =>
    cases entry with
    | opened => exact ih h.2
    | tree t => exact List.forall_mem_cons.2 ⟨h.2.1, ih h.2.2⟩
    | tag | value => exact ih h

theorem toTree (h : Laid lo hi log) : (log.toTree lo hi).Nested := .node h.row h.nested

/-- Closing the innermost opened node at the end of the log keeps it laid. -/
theorem close (h : Laid lo hi log) : Laid lo hi (log.close hi) := by
  induction log generalizing lo with
  | nil => exact h
  | cons entry rest ih =>
    cases entry with
    | opened start =>
      rw [TreeLog.close]
      split
      · exact ⟨h.1, ih h.2⟩
      · exact ⟨h.1, h.2.toTree, Nat.le_refl hi⟩
    | tree => exact ⟨h.1, h.2.1, ih h.2.2⟩
    | tag | value => exact ih h

theorem closeAll (h : Laid lo hi log) : Laid lo hi (log.closeAll hi) := by
  rw [TreeLog.closeAll]
  induction log.depth with
  | zero => exact h
  | succ depth ih =>
    rw [Function.iterate_succ_apply']
    exact ih.close

/-- The result of a log that is laid is nested, and lies where the log does. -/
theorem root (h : Laid lo hi log) :
    (log.root lo hi).Nested ∧ lo ≤ (log.root lo hi).start ∧ (log.root lo hi).stop ≤ hi := by
  rw [TreeLog.root]
  cases hlone : log.lone? with
  | some t =>
    have ht : t ∈ log.trees := by simp [(lone?_eq_some.1 hlone).1]
    exact ⟨h.nested t ht, h.row.mem ht⟩
  | none => exact ⟨h.toTree, Nat.le_refl lo, Nat.le_refl hi⟩

end Laid

end TreeLog

/-! ## Machines -/

/-- In a run that began at `start`: what was built lies before the cursor, and what a frame keeps of it before the
    position that the frame brings back. No frame keeps more than those saved after it. -/
structure Machine.Laid (start : Nat) (m : Machine) (b : TreeBuilder) : Prop where
  log : b.log.Laid start m.pos
  frames : ∀ f ∈ m.work.backtrack, f.logLength ≤ b.log.length ∧ TreeLog.Laid start f.pos (b.log.take f.logLength)
  sorted : m.work.backtrack.toList.Pairwise fun f g => f.logLength ≤ g.logLength

namespace Machine.Laid

variable {start opening place : Nat} {m x : Machine} {b : TreeBuilder} {f : Frame} {entry : TreeEntry}

theorem of_start (start pc : Nat) (pool : Pool) : (Machine.start pc start pool).Laid start .empty :=
  ⟨Nat.le_refl start, nofun, .nil⟩

theorem kept (h : m.Laid start b) (backtrack : x.work.backtrack = m.work.backtrack) (forward : m.pos ≤ x.pos) :
    x.Laid start b where
  log := h.log.mono_right forward
  frames := backtrack ▸ h.frames
  sorted := backtrack ▸ h.sorted

theorem of_same (h : m.Laid start b) (same : m.SameLog x) : x.Laid start b :=
  h.kept same.backtrack (Nat.le_of_eq same.pos.symm)

/-- Adding an entry that covers nothing behind the cursor. -/
theorem add (h : m.Laid start b) (hentry : TreeLog.Laid m.pos m.pos [entry])
    (backtrack : x.work.backtrack = m.work.backtrack) (pos : x.pos = m.pos) : x.Laid start (b.add entry) where
  log := by
    rw [pos]
    exact TreeLog.Laid.append_iff.2 ⟨m.pos, h.log, hentry⟩
  frames f hf := by
    obtain ⟨hlength, hlaid⟩ := h.frames f (backtrack ▸ hf)
    rw [TreeBuilder.add, List.take_append_of_le_length hlength, List.length_append]
    exact ⟨Nat.le_add_right_of_le hlength, hlaid⟩
  sorted := backtrack ▸ h.sorted

theorem save (h : m.Laid start b) (tracks : m.Tracks b) (alternative : Nat) :
    (m.pushFrame (m.frame alternative)).Laid start b.save where
  log := h.log
  frames f hf := by
    rcases Array.mem_push.1 hf with old | rfl
    · exact h.frames f old
    · exact ⟨Nat.le_of_eq tracks.entries.length_eq, h.log.take _⟩
  sorted := by
    show (m.work.backtrack.push (m.frame alternative)).toList.Pairwise _
    rw [Array.toList_push, List.pairwise_append]
    refine ⟨h.sorted, List.pairwise_singleton .., fun f hf g hg => ?_⟩
    obtain rfl := List.mem_singleton.1 hg
    have hlength : (m.frame alternative).logLength = b.log.length := tracks.entries.length_eq
    rw [hlength]
    exact (h.frames f (Array.mem_toList_iff.1 hf)).1

theorem drop (h : m.Laid start b) : m.popFrame.Laid start b.drop where
  log := h.log
  frames f hf := h.frames f (mem_of_mem_pop hf)
  sorted := by
    show m.work.backtrack.pop.toList.Pairwise _
    rw [Array.toList_pop]
    exact h.sorted.sublist (List.dropLast_sublist _)

/-- A backtrack takes the log back to where it lay before the position of the frame. -/
theorem restore (h : m.Laid start b) (tracks : m.Tracks b) (top : m.work.backtrack.back? = some f) :
    (m.popFrame.restore f).Laid start b.restore := by
  obtain ⟨hlength, hlaid⟩ := h.frames f (Array.mem_of_back? top)
  have hlog : b.restore.log = b.log.take f.logLength := by rw [tracks.restore_eq top]
  refine ⟨hlog ▸ hlaid, fun g hg => ?_, h.drop.sorted⟩
  -- The frames below keep no more of the log than the one that was restored.
  obtain ⟨below, hbelow⟩ := Array.back?_eq_some_iff.1 top
  have hg' : g ∈ below := by
    have : g ∈ m.work.backtrack.pop := hg
    rwa [hbelow, Array.pop_push] at this
  have hle : g.logLength ≤ f.logLength := by
    have hsorted := h.sorted
    rw [hbelow, Array.toList_push, List.pairwise_append] at hsorted
    exact hsorted.2.2 g (Array.mem_toList_iff.2 hg') f (List.mem_singleton_self f)
  rw [hlog, List.length_take, List.take_take, Nat.min_eq_left hle, Nat.min_eq_left hlength]
  exact ⟨hle, (h.frames g (mem_of_mem_pop hg)).2⟩

/-- Closing a node that no frame keeps. -/
theorem fold (h : m.Laid start b) (tracks : m.Tracks b) (hi : m.work.log.innermost? = some (place, opening))
    (above : ∀ f ∈ m.work.backtrack, f.logLength ≤ place) :
    (m.foldFrom place opening).Laid start { b with log := b.log.close m.pos } := by
  obtain ⟨inner, hlog, hnone, -⟩ := tracks.split hi
  have hclose : b.log.close m.pos = b.log.take place ++ [.tree (TreeLog.toTree inner opening m.pos)] := by
    rw [hlog, TreeLog.close_append hnone, ← hlog]
  refine ⟨h.log.close, fun f hf => ?_, h.sorted⟩
  obtain ⟨hlength, hlaid⟩ := h.frames f hf
  have hplace : f.logLength ≤ (b.log.take place).length := by
    rw [List.length_take]
    exact Nat.le_min.2 ⟨above f hf, hlength⟩
  simp only [hclose]
  rw [List.take_append_of_le_length hplace, List.take_take, Nat.min_eq_left (above f hf), List.length_append]
  exact ⟨Nat.le_add_right_of_le hplace, hlaid⟩

end Machine.Laid

namespace Setting

variable {s : Setting} {m m' : Machine} {i : Instruction} {b : TreeBuilder} {start : Nat}

/-- Every move keeps the log laid, as long as it does not fold what a frame keeps. -/
theorem laid_of_move (code : s.program.at? m.pc = some i) (h : s.Move m i m') (tracks : m.Tracks b)
    (above : ∀ f ∈ m.work.backtrack, s.ClosesAbove f.logLength m) (hm : m.Laid start b) :
    m'.Laid start (s.build m b) := by
  have hlog := logMove_of_move code h b
  generalize s.build m b = b' at hlog ⊢
  cases hlog with
  | kept log backtrack pool forward => exact hm.kept backtrack forward
  | tagged label same => exact hm.add (Nat.le_refl _) same.backtrack same.pos
  | valued label same => exact hm.add (Nat.le_refl _) same.backtrack same.pos
  | opened same => exact hm.add ⟨Nat.le_refl _, Nat.le_refl _⟩ same.backtrack same.pos
  | closed place opening code innermost same =>
    exact (hm.fold tracks innermost fun f hf => above f hf code place opening innermost).of_same same
  | saved alternative same => exact (hm.save tracks alternative).of_same same
  | dropped same => exact hm.drop.of_same same
  | refreshed f same => exact (hm.drop.save tracks.drop f.alternative).of_same same
  | restored f top same => exact (hm.restore tracks top).of_same same
  | restoredNext f next same => exact (hm.drop.restore tracks.drop next).of_same same

/-- In a run in which no `nodeClose` folds what a frame keeps, the log is laid in every state. -/
theorem laid_of_states {pc pos n : Nat} {pool : Pool} (trace : s.Trace (s.states (.start pc pos pool)) n)
    (above : ∀ k < n, ∀ f ∈ (s.states (.start pc pos pool) k).work.backtrack,
      s.ClosesAbove f.logLength (s.states (.start pc pos pool) k)) :
    (s.states (.start pc pos pool) n).Laid pos (s.building (.start pc pos pool) n) := by
  induction n with
  | zero => exact .of_start pos pc pool
  | succ n ih =>
    have hstep := trace n (Nat.lt_succ_self n)
    obtain ⟨i, code, move⟩ := move_of_step hstep
    have hm := ih (fun k hk => trace k (by omega)) fun k hk => above k (by omega)
    simp only [building, hstep]
    exact laid_of_move code move (tracks_of_states pc pos pool n) (above n (Nat.lt_succ_self n)) hm

end Setting

/-! ## Runs of a context -/

namespace Context

/-- **The spans of a result tree are nested.** Let a run match in which no `nodeClose` folds a node that a live
    frame keeps. Then every node of its tree lies between where the run began and its last cursor, inside the
    input, and does not end before it starts. Its children lie inside it, each one ends before those behind it
    start, and all of its text is there. -/
theorem spans_nested {c c' : Context} {program : Program} {fuel : Nat} {tree : Tree}
    (run : c.run program fuel = some (.matched tree, c'))
    (above : ∀ m, (c.setting program).Reaches c.machine m →
      ∀ f ∈ m.work.backtrack, (c.setting program).ClosesAbove f.logLength m) :
    c'.pos ≤ c.input.size ∧ ∀ node ∈ tree.descendants,
      node.start ≤ node.stop ∧ c.startPos ≤ node.start ∧ node.stop ≤ c'.pos ∧
      (∀ child ∈ node.children, node.start ≤ child.start ∧ child.stop ≤ node.stop) ∧
      (node.children.Pairwise fun left right => left.stop ≤ right.start) ∧
      ∃ text, node.text? c.input = some text := by
  obtain ⟨n, last, trace, hlast, hpos, -, rfl⟩ := tree_of_run run
  have reached := trace.reaches
  have laid := Setting.laid_of_states trace fun k hk => above _ (reached k (Nat.le_of_lt hk))
  have inside : c'.pos ≤ c.input.size := by
    rw [hpos]
    have within := Setting.within_of_reaches (reached n (Nat.le_refl n)) c.within_start
    exact (Setting.within_of_halted hlast within).pos_le_size
  -- The step that accepts leaves the cursor where it was.
  have hlog : TreeLog.Laid c.startPos last.pos ((c.setting program).building c.machine n).log := by
    obtain rfl := Setting.step_accepted hlast
    exact laid.log
  obtain ⟨nested, hstart, hstop⟩ := hlog.closeAll.root
  refine ⟨inside, fun node hnode => ?_⟩
  obtain ⟨hnested, hlow, hhigh⟩ := nested.descendant hnode
  have hspan := hnested.row.le
  have hend : node.stop ≤ c'.pos := hpos ▸ Nat.le_trans hhigh hstop
  refine ⟨hspan, Nat.le_trans hstart hlow, hend, fun child => hnested.row.mem, hnested.row.pairwise, ?_⟩
  exact ⟨_, if_pos ⟨hspan, Nat.le_trans hend inside⟩⟩

/-- Without the condition a node can end behind the last cursor: here a frame keeps a node that was closed after
    the frame was saved, and takes the cursor back to where the node began. -/
example : (reopeningContext.run (.ofList [.exit, .nodeOpen, .choice 6, .any, .nodeClose, .fail, .exit]) 6).map
    (fun result : Outcome × Context => (result.1, result.2.pos)) =
      some (.matched ⟨0, 1, none, none, []⟩, 0) := by decide +kernel

/-- The run takes back a node that it closed while a frame was live, and ends with a node open. -/
theorem spans_nested_reopening :
    ∃ tree c', reopeningContext.run reopening 13 = some (.matched tree, c') ∧ tree.descendants.length = 2 ∧
      (∃ m, (reopeningContext.setting reopening).Reaches reopeningContext.machine m ∧
        reopening.at? m.pc = some .nodeClose ∧ m.work.backtrack.size = 1) ∧
      ∀ node ∈ tree.descendants, node.start ≤ node.stop ∧ node.stop ≤ c'.pos ∧
        ∃ text, node.text? reopeningContext.input = some text := by
  let s := reopeningContext.setting reopening
  let t := s.states reopeningContext.machine
  have accepts : s.program.at? (t 12).pc = some .exit := by decide +kernel
  have last : s.step (t 12) = Halt.transition ⟨(t 12).noteCursor, .ok true⟩ := Setting.step_of_code accepts
  have closes : ∀ k ≤ 12, s.program.at? (t k).pc = some .nodeClose →
      (t k).work.log.innermost? = some (1, 0) ∧ ∀ f ∈ (t k).work.backtrack, f.logLength ≤ 1 := by
    decide +kernel
  have above : ∀ m, s.Reaches reopeningContext.machine m →
      ∀ f ∈ m.work.backtrack, s.ClosesAbove f.logLength m := by
    intro m hm f hf code place start hi
    obtain ⟨k, hk, rfl⟩ := Setting.states_le_of_reaches hm last
    obtain ⟨innermost, frames⟩ := closes k hk code
    cases hi.symm.trans innermost
    exact frames f hf
  have hrun : (reopeningContext.run reopening 13).map Prod.fst =
      some (.matched ⟨0, 2, none, some "v", [⟨0, 1, some "leaf", none, []⟩]⟩) := by
    decide +kernel
  obtain ⟨⟨outcome, c'⟩, hrun, rfl⟩ := Option.map_eq_some_iff.1 hrun
  obtain ⟨-, nodes⟩ := spans_nested hrun above
  refine ⟨_, c', hrun, by simp [Tree.descendants, Tree.walk], ?_, fun node hnode => ?_⟩
  · exact ⟨t 4, Setting.reaches_states s _ 4, by decide +kernel, by decide +kernel⟩
  · obtain ⟨hspan, -, hstop, -, -, htext⟩ := nodes node hnode
    exact ⟨hspan, hstop, htext⟩

end Context

end PegMachine
