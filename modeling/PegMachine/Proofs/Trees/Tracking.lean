import PegMachine.Proofs.Run.Contexts
import PegMachine.Proofs.Trees.LogMoves
/-!
  The machine's node log and the log of trees.

  `m.Tracks b` says that the machine's log shows the same as the builder's: entry by entry the same opened
  nodes and labels, and for a finished node an id under which the pool stores the tree. There is one lemma for
  each thing that the builder does. Every move of the machine is one of them (`tracks_of_move`), so the relation
  holds in every state of a run, whatever was in the pool when it began (`tracks_of_states`).
-/
namespace PegMachine

/-! ## Entries -/

/-- A log entry stands for an entry of a tree log: they are the same, but the id of a finished node is
    related to its tree. -/
inductive Stands (is : NodeId → Tree → Prop) : LogEntry → TreeEntry → Prop where
  | opened (start : Nat) : Stands is (.opened start) (.opened start)
  | tag (label : String) : Stands is (.tag label) (.tag label)
  | value (label : String) : Stands is (.value label) (.value label)
  | node {id : NodeId} {t : Tree} (h : is id t) : Stands is (.node id) (.tree t)

namespace Stands

variable {is is' : NodeId → Tree → Prop} {entry : LogEntry} {entry' : TreeEntry} {entries : List LogEntry}
  {log : TreeLog}

theorem mono (weaker : ∀ id t, is id t → is' id t) (h : Stands is entry entry') : Stands is' entry entry' := by
  cases h with
  | opened start => exact .opened start
  | tag label => exact .tag label
  | value label => exact .value label
  | node h => exact .node (weaker _ _ h)

theorem right_unique {is : NodeId → Tree → Prop} (one : ∀ id t t', is id t → is id t' → t = t')
    {shown shown' : TreeEntry} (h : Stands is entry shown) (h' : Stands is entry shown') :
    shown = shown' := by
  cases h with
  | opened | tag | value => cases h'; rfl
  | node h =>
    cases h' with
    | node h' => rw [one _ _ _ h h']

theorem isOpened_eq (h : Stands is entry entry') : entry.isOpened = entry'.isOpened := by
  cases h <;> rfl

theorem depth_eq (h : List.Forall₂ (Stands is) entries log) : entries.countP LogEntry.isOpened = log.depth := by
  induction h with
  | nil => rfl
  | cons h _ ih => rw [TreeLog.depth, List.countP_cons, List.countP_cons, h.isOpened_eq, ih, TreeLog.depth]

theorem filterMap_eq {f : LogEntry → Option String} {g : TreeEntry → Option String}
    (same : ∀ entry entry', Stands is entry entry' → f entry = g entry')
    (h : List.Forall₂ (Stands is) entries log) : entries.filterMap f = log.filterMap g := by
  induction h with
  | nil => rfl
  | cons h _ ih => rw [List.filterMap_cons, List.filterMap_cons, same _ _ h, ih]

theorem lastTag_eq (h : List.Forall₂ (Stands is) entries log) : LogEntry.lastTag entries = log.lastTag :=
  congrArg List.getLast? (filterMap_eq (fun _ _ h => by cases h <;> rfl) h)

theorem lastValue_eq (h : List.Forall₂ (Stands is) entries log) : LogEntry.lastValue entries = log.lastValue :=
  congrArg List.getLast? (filterMap_eq (fun _ _ h => by cases h <;> rfl) h)

theorem nodes (h : List.Forall₂ (Stands is) entries log) : List.Forall₂ is (LogEntry.nodes entries) log.trees := by
  induction h with
  | nil => exact .nil
  | cons h _ ih =>
    cases h with
    | opened | tag | value => exact ih
    | node h => exact .cons h ih

theorem push {entries : Array LogEntry} (h : List.Forall₂ (Stands is) entries.toList log)
    (stands : Stands is entry entry') : List.Forall₂ (Stands is) (entries.push entry).toList (log ++ [entry']) := by
  rw [Array.toList_push]
  exact List.rel_append h (.cons stands .nil)

theorem shrink {entries : Array LogEntry} (h : List.Forall₂ (Stands is) entries.toList log) (length : Nat) :
    List.Forall₂ (Stands is) (entries.shrink length).toList (log.take length) := by
  rw [Array.toList_shrink]
  exact List.forall₂_take length h

end Stands

/-! ## Machines -/

theorem Machine.size_foldFrom (m : Machine) (place start : Nat) :
    (m.foldFrom place start).pool.size = m.pool.size + 1 := Pool.size_push ..

/-- The machine's log shows the log of trees: finished nodes can be copied out of the pool as the trees. -/
def Machine.Shows (m : Machine) (log : TreeLog) : Prop :=
  List.Forall₂ (Stands fun id t => m.pool.finalize? id = some t) m.work.log.entries.toList log

/-- A machine's log shows one log of trees. -/
theorem Machine.Shows.unique {m : Machine} {log log' : TreeLog} (h : m.Shows log) (h' : m.Shows log') :
    log = log' := by
  have one (id : NodeId) (t t' : Tree) (ht : m.pool.finalize? id = some t) (ht' : m.pool.finalize? id = some t') :
      t = t' := Option.some.inj (ht.symm.trans ht')
  have functional : Relator.RightUnique (Stands fun id t => m.pool.finalize? id = some t) :=
    fun _ _ _ => Stands.right_unique one
  exact functional.forall₂ h h'

/-- The machine has what the builder has: the log, with finished nodes that stay in the pool whatever is added
    to it, and the saved lengths. -/
structure Machine.Tracks (m : Machine) (b : TreeBuilder) : Prop where
  exact : m.work.log.Exact
  entries : List.Forall₂ (Stands m.pool.Stores) m.work.log.entries.toList b.log
  saved : m.work.backtrack.toList.reverse.map Frame.logLength = b.saved

namespace Machine.Tracks

variable {m x : Machine} {b : TreeBuilder} {f : Frame} {place start : Nat}

theorem of_start (pc pos : Nat) (pool : Pool) : (Machine.start pc pos pool).Tracks .empty :=
  ⟨.empty, .nil, rfl⟩

theorem shows (h : m.Tracks b) : m.Shows b.log :=
  h.entries.imp fun _ _ => Stands.mono fun _ _ => Pool.Stores.finalize

/-- Only the log, the frames and the pool matter. -/
theorem of_eq (h : m.Tracks b) (hlog : x.work.log = m.work.log) (hframes : x.work.backtrack = m.work.backtrack)
    (hpool : x.pool = m.pool) : x.Tracks b :=
  ⟨hlog ▸ h.exact, hlog ▸ hpool ▸ h.entries, hframes ▸ h.saved⟩

theorem of_same (h : m.Tracks b) (same : m.SameLog x) : x.Tracks b := h.of_eq same.log same.backtrack same.pool

theorem add (h : m.Tracks b) {entry : LogEntry} {entry' : TreeEntry}
    (stands : Stands m.pool.Stores entry entry') (notOpened : entry.isOpened = false) :
    (m.pushEntry entry).Tracks (b.add entry') where
  exact := h.exact.push (by rintro start rfl; cases notOpened)
  entries := Stands.push h.entries stands
  saved := h.saved

theorem openNode (h : m.Tracks b) : m.openNode.Tracks (b.add (.opened m.pos)) where
  exact := h.exact.openNode m.pos
  entries := Stands.push h.entries (.opened m.pos)
  saved := h.saved

theorem save (h : m.Tracks b) (alternative : Nat) : (m.pushFrame (m.frame alternative)).Tracks b.save where
  exact := h.exact
  entries := h.entries
  saved := by
    show (m.work.backtrack.push (m.frame alternative)).toList.reverse.map Frame.logLength =
      b.log.length :: b.saved
    rw [Array.toList_push, List.reverse_append, List.map_append, h.saved, ← h.entries.length_eq,
      Array.length_toList]
    rfl

theorem drop (h : m.Tracks b) : m.popFrame.Tracks b.drop where
  exact := h.exact
  entries := h.entries
  saved := by
    show m.work.backtrack.pop.toList.reverse.map Frame.logLength = b.saved.tail
    rw [Array.toList_pop, ← List.tail_reverse, List.map_tail, h.saved]

theorem saved_of_top (h : m.Tracks b) (top : m.work.backtrack.back? = some f) :
    b.saved = f.logLength :: m.popFrame.work.backtrack.toList.reverse.map Frame.logLength := by
  obtain ⟨below, hbelow⟩ := Array.back?_eq_some_iff.1 top
  have hpop : m.popFrame.work.backtrack = below := by
    show m.work.backtrack.pop = below
    rw [hbelow, Array.pop_push]
  rw [← h.saved, hpop, hbelow, Array.toList_push, List.reverse_append, List.map_append]
  rfl

/-- The builder cuts its log back to where the top frame cuts the machine's. -/
theorem restore_eq (h : m.Tracks b) (top : m.work.backtrack.back? = some f) : b.restore =
    ⟨b.log.take f.logLength, m.popFrame.work.backtrack.toList.reverse.map Frame.logLength⟩ := by
  rw [TreeBuilder.restore, h.saved_of_top top]

theorem restore (h : m.Tracks b) (top : m.work.backtrack.back? = some f) :
    (m.popFrame.restore f).Tracks b.restore := by
  rw [h.restore_eq top]
  exact ⟨h.exact.truncate f.logLength, Stands.shrink h.entries f.logLength, rfl⟩

/-- Where the innermost opened node stands, the log of trees has it too, and nothing is open above it. -/
theorem split (h : m.Tracks b) (hi : m.work.log.innermost? = some (place, start)) :
    ∃ above, b.log = b.log.take place ++ .opened start :: above ∧ (∀ entry ∈ above, entry.isOpened = false) ∧
      List.Forall₂ (Stands m.pool.Stores) (m.work.log.entriesFrom (place + 1)) above := by
  have hdrop := List.forall₂_drop place h.entries
  rw [NodeLog.drop_innermost hi] at hdrop
  obtain ⟨_, above, hopened, hinner, hlog⟩ := List.forall₂_cons_left_iff.1 hdrop
  cases hopened
  refine ⟨above, by rw [← hlog, List.take_append_drop], ?_, hinner⟩
  have hnone : (m.work.log.entriesFrom (place + 1)).countP LogEntry.isOpened = 0 := by
    simpa [List.countP_eq_zero] using h.exact.not_isOpened_above hi
  rw [Stands.depth_eq hinner] at hnone
  simpa [TreeLog.depth, List.countP_eq_zero] using hnone

/-- Closing the innermost opened node closes it in the log of trees, and its id stands for its tree. -/
theorem fold (h : m.Tracks b) (hi : m.work.log.innermost? = some (place, start)) :
    (m.foldFrom place start).Tracks { b with log := b.log.close m.pos } := by
  obtain ⟨above, hlog, hnone, hinner⟩ := h.split hi
  have hclose : b.log.close m.pos = b.log.take place ++ [.tree (TreeLog.toTree above start m.pos)] := by
    rw [hlog, TreeLog.close_append hnone, ← hlog]
  have grown : m.pool.Extends (m.foldFrom place start).pool := Pool.extends_push ..
  have stored : (m.foldFrom place start).pool.Stores m.pool.size (TreeLog.toTree above start m.pos) := by
    rw [TreeLog.toTree, ← Stands.lastTag_eq hinner, ← Stands.lastValue_eq hinner]
    exact Pool.stores_push (Stands.nodes hinner) _ _ _ _
  have kept : List.Forall₂ (Stands (m.foldFrom place start).pool.Stores) m.work.log.entries.toList b.log :=
    h.entries.imp fun _ _ => Stands.mono fun _ _ hs => hs.extend grown
  refine ⟨(h.exact.truncate place).push nofun, ?_, h.saved⟩
  rw [hclose]
  exact Stands.push (Stands.shrink kept place) (.node stored)

end Machine.Tracks

/-! ## Runs -/

namespace Setting

variable {s : Setting} {m m' : Machine} {i : Instruction} {b : TreeBuilder}

/-- Every move of the machine is what the builder does. -/
theorem tracks_of_move (code : s.program.at? m.pc = some i) (h : s.Move m i m') (hm : m.Tracks b) :
    m'.Tracks (s.build m b) := by
  have hlog := logMove_of_move code h b
  generalize s.build m b = b' at hlog ⊢
  cases hlog with
  | kept log backtrack pool => exact hm.of_eq log backtrack pool
  | tagged label same => exact (hm.add (.tag label) rfl).of_same same
  | valued label same => exact (hm.add (.value label) rfl).of_same same
  | opened same => exact hm.openNode.of_same same
  | closed place start code innermost same => exact (hm.fold innermost).of_same same
  | saved alternative same => exact (hm.save alternative).of_same same
  | dropped same => exact hm.drop.of_same same
  | refreshed f same => exact (hm.drop.save f.alternative).of_same same
  | restored f top same => exact (hm.restore top).of_same same
  | restoredNext f next same => exact (hm.drop.restore next).of_same same

/-- A step that accepts leaves everything that was built. -/
theorem tracks_of_accepted (h : s.step m = .halted true m') (hm : m.Tracks b) : m'.Tracks b := by
  obtain rfl := step_accepted h
  exact hm.of_eq rfl rfl rfl

/-- In every state of a run the machine has what the builder has. -/
theorem tracks_of_states (pc pos : Nat) (pool : Pool) (n : Nat) :
    (s.states (.start pc pos pool) n).Tracks (s.building (.start pc pos pool) n) := by
  induction n with
  | zero => exact .of_start pc pos pool
  | succ n ih =>
    rw [states, building]
    cases hstep : s.step (s.states (.start pc pos pool) n) with
    | running m' =>
      obtain ⟨i, code, move⟩ := move_of_step hstep
      exact tracks_of_move code move ih
    | halted | stopped => exact ih

end Setting

end PegMachine
