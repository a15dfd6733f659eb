import PegMachine.Proofs.Trees.Result
/-!
  The root of a match.

  When a run accepts, the nodes that are still open are closed at the cursor, and what is left in the log decides
  about the root. What is proved:
    1. `TreeLog.root_of_single`, `TreeLog.root_of_other`: the root is new unless a single tree is left that no label
       stands beside;
    2. `leaves_of_run`, `leaves_unique`: a run that matches leaves one log, which is the builder's log with all nodes
       closed;
    3. `root_shape`: which root a run gives, by the log that it leaves.
-/
namespace PegMachine

/-! ## Logs -/

namespace TreeLog

variable {log : TreeLog} {start stop : Nat} {t : Tree}

/-- A single tree without labels beside it is the root. -/
theorem root_of_single (only : log.trees = [t]) (noTag : log.lastTag = none) (noValue : log.lastValue = none) :
    log.root start stop = t := by
  rw [root, lone?_eq_some.2 ⟨only, noTag, noValue⟩, Option.getD_some]

/-- Otherwise the root is made of everything that is left. -/
theorem root_of_other (other : ∀ t, log.trees = [t] → log.lastTag = none → log.lastValue ≠ none) :
    log.root start stop = ⟨start, stop, log.lastTag, log.lastValue, log.trees⟩ := by
  have not_lone : log.lone? = none := by
    rw [Option.eq_none_iff_forall_ne_some]
    intro t lone
    obtain ⟨only, noTag, noValue⟩ := lone?_eq_some.1 lone
    exact other t only noTag noValue
  rw [root, not_lone, Option.getD_none, toTree]

end TreeLog

/-! ## Runs -/

namespace Context

variable {c c' : Context} {program : Program} {fuel stop : Nat} {tree : Tree} {left left' : TreeLog}

/-- The run accepts with the cursor at `stop`, the nodes that are open there can be closed, and the log shows these
    trees and labels then. -/
def Leaves (c : Context) (program : Program) (stop : Nat) (left : TreeLog) : Prop :=
  let s := c.setting program
  ∃ n last closed, s.Trace (s.states c.machine) n ∧ s.step (s.states c.machine n) = .halted true last ∧
    last.pos = stop ∧ last.closeOpens last.work.log.depth = (closed, none) ∧ closed.Shows left

theorem leaves_unique (h : c.Leaves program stop left) (h' : c.Leaves program stop left') : left = left' := by
  obtain ⟨n, last, closed, trace, hlast, -, hclose, shows⟩ := h
  obtain ⟨n', last', closed', trace', hlast', -, hclose', shows'⟩ := h'
  obtain rfl := trace.unique (by rw [hlast]; rfl) trace' (by rw [hlast']; rfl)
  rw [hlast] at hlast'
  cases hlast'
  rw [hclose] at hclose'
  cases hclose'
  exact shows.unique shows'

/-- A run that matches leaves the builder's log with all nodes closed, and gives its root. -/
theorem leaves_of_run (run : c.run program fuel = some (.matched tree, c')) :
    ∃ log : TreeLog, c.Leaves program c'.pos (log.closeAll c'.pos) ∧
      tree = (log.closeAll c'.pos).root c.startPos c'.pos := by
  obtain ⟨n, last, closed, x, trace, hlast, hclose, tracks, hextract, hstop, hpos, -⟩ := closed_of_run run
  rw [hpos]
  refine ⟨_, ⟨n, last, closed, trace, hlast, rfl, hclose, tracks.shows⟩, ?_⟩
  rcases Machine.extract_of_tracks tracks c.startPos with ⟨hfull, -⟩ | ⟨pool, hroot, -⟩
  · rw [hextract] at hfull
    cases hfull
  · rw [hextract] at hroot
    cases hroot
    rw [hstop]

/-- **The root of a match.** A run that matches leaves a log in which nothing is open any more. If a single finished
    node is left, and no label beside it, this node is the root. Otherwise the root goes from where the run began to
    the last cursor, its children are the nodes that are left, in order, and its labels are the last ones that are
    left: so it has no tag if none is left, and no value if none is left. -/
theorem root_shape (run : c.run program fuel = some (.matched tree, c')) :
    (∃ left, c.Leaves program c'.pos left) ∧ ∀ left, c.Leaves program c'.pos left → left.depth = 0 ∧
      (∀ only, left.trees = [only] → left.lastTag = none → left.lastValue = none → tree = only) ∧
      ((∀ only, left.trees = [only] → left.lastTag = none → left.lastValue ≠ none) →
        tree = ⟨c.startPos, c'.pos, left.lastTag, left.lastValue, left.trees⟩) := by
  obtain ⟨log, leaves, rfl⟩ := leaves_of_run run
  refine ⟨⟨_, leaves⟩, fun left leaves' => ?_⟩
  obtain rfl := leaves_unique leaves leaves'
  exact ⟨TreeLog.depth_closeAll c'.pos log, fun only => TreeLog.root_of_single, TreeLog.root_of_other⟩

/-- A run that comes to an `exit` leaves what its machine's log shows when the open nodes are closed. -/
theorem leaves_of_exit (n : Nat)
    (goesOn : ∀ k < n, ((c.setting program).step ((c.setting program).states c.machine k)).goesOn = true) :
    let m := (c.setting program).states c.machine n
    let closed := m.noteCursor.closeOpens m.work.log.depth
    program.at? m.pc = some .exit → m.pos = stop → closed.2 = none → closed.1.Shows left →
      c.Leaves program stop left := by
  intro m closed code there closes shows
  have accepts := Setting.step_of_code (s := c.setting program) code
  exact ⟨n, _, _, Setting.trace_of_goesOn goesOn, accepts, there, Prod.ext rfl closes, shows⟩

/-- What a run gives and where it ends, without the rest of the context. -/
def endOf (result : Outcome × Context) : Outcome × Nat := (result.1, result.2.pos)

theorem run_of_end {outcome : Outcome} (h : (c.run program fuel).map endOf = some (outcome, stop)) :
    ∃ c', c.run program fuel = some (outcome, c') ∧ c'.pos = stop := by
  obtain ⟨⟨outcome', c'⟩, run, hend⟩ := Option.map_eq_some_iff.1 h
  obtain ⟨rfl, hpos⟩ := Prod.mk.inj hend
  exact ⟨c', run, hpos⟩

/-- Takes a byte as a node, tags it from outside, tries an alternative that it takes back, tags it once more, and
    accepts with a second node open over the next byte. -/
def tagging : Program :=
  .ofList [.exit, .nodeOpen, .any, .nodeClose, .tag "lost", .choice 9, .value "v", .nodeOpen, .fail, .tag "kept",
    .nodeOpen, .any, .exit]

def taggingContext : Context := { new {} with input := #[97, 98], startPoint := 1 }

/-- The log that it leaves. -/
def taggingLog : TreeLog :=
  [.tree ⟨0, 1, none, none, []⟩, .tag "lost", .tag "kept", .tree ⟨1, 2, none, none, []⟩]

theorem tagging_leaves : taggingContext.Leaves tagging 2 taggingLog := by
  have shows (closed : Machine) (first : closed.pool.finalize? 0 = some ⟨0, 1, none, none, []⟩)
      (second : closed.pool.finalize? 1 = some ⟨1, 2, none, none, []⟩)
      (entries : closed.work.log.entries.toList = [.node 0, .tag "lost", .tag "kept", .node 1]) :
      closed.Shows taggingLog := by
    rw [Machine.Shows, entries]
    exact .cons (.node first) (.cons (.tag _) (.cons (.tag _) (.cons (.node second) .nil)))
  exact leaves_of_exit 11 (by decide +kernel) (by decide +kernel) (by decide +kernel) (by decide +kernel)
    (shows _ (by decide +kernel) (by decide +kernel) (by decide +kernel))

theorem root_shape_tagging :
    let root : Tree := ⟨0, 2, some "kept", none, [⟨0, 1, none, none, []⟩, ⟨1, 2, none, none, []⟩]⟩
    ∃ c', taggingContext.run tagging 12 = some (.matched root, c') ∧ taggingContext.Leaves tagging c'.pos taggingLog ∧
      taggingLog.depth = 0 ∧ root = ⟨0, c'.pos, taggingLog.lastTag, taggingLog.lastValue, taggingLog.trees⟩ := by
  intro root
  have ends : (taggingContext.run tagging 12).map endOf = some (.matched root, 2) := by decide +kernel
  obtain ⟨c', run, hpos⟩ := run_of_end ends
  have leaves : taggingContext.Leaves tagging c'.pos taggingLog := hpos ▸ tagging_leaves
  obtain ⟨closed, -, other⟩ := (root_shape run).2 taggingLog leaves
  exact ⟨c', run, leaves, closed, other nofun⟩

/-- A node over the only byte, and a tag behind it. -/
def taggedBehind : Program := .ofList [.exit, .nodeOpen, .any, .nodeClose, .tag "T", .exit]

/-- A tag and no node. -/
def tagAlone : Program := .ofList [.exit, .tag "T", .exit]

def oneByteContext : Context := { new {} with input := #[97], startPoint := 1 }

theorem taggedBehind_leaves : oneByteContext.Leaves taggedBehind 1 [.tree ⟨0, 1, none, none, []⟩, .tag "T"] := by
  have shows (closed : Machine) (only : closed.pool.finalize? 0 = some ⟨0, 1, none, none, []⟩)
      (entries : closed.work.log.entries.toList = [.node 0, .tag "T"]) :
      closed.Shows [.tree ⟨0, 1, none, none, []⟩, .tag "T"] := by
    rw [Machine.Shows, entries]
    exact .cons (.node only) (.cons (.tag _) .nil)
  exact leaves_of_exit 4 (by decide +kernel) (by decide +kernel) (by decide +kernel) (by decide +kernel)
    (shows _ (by decide +kernel) (by decide +kernel))

theorem tagAlone_leaves : oneByteContext.Leaves tagAlone 0 [.tag "T"] := by
  have shows (closed : Machine) (entries : closed.work.log.entries.toList = [.tag "T"]) :
      closed.Shows [.tag "T"] := by
    rw [Machine.Shows, entries]
    exact .cons (.tag _) .nil
  exact leaves_of_exit 1 (by decide +kernel) (by decide +kernel) (by decide +kernel) (by decide +kernel)
    (shows _ (by decide +kernel))

/-- A single node that is left need not be the root: with a tag beside it, it is put under a root that takes the tag.
    And a root that is made need not be untagged: here it has the tag and no children. -/
theorem root_takes_label :
    (¬ ∀ (c c' : Context) (program : Program) (fuel : Nat) (tree : Tree) (left : TreeLog),
      c.run program fuel = some (.matched tree, c') → c.Leaves program c'.pos left →
      ∀ only, left.trees = [only] → tree = only) ∧
    ¬ ∀ (c c' : Context) (program : Program) (fuel : Nat) (tree : Tree) (left : TreeLog),
      c.run program fuel = some (.matched tree, c') → c.Leaves program c'.pos left →
      left.trees.length ≠ 1 → tree = ⟨c.startPos, c'.pos, none, none, left.trees⟩ := by
  have behind : (oneByteContext.run taggedBehind 5).map endOf =
      some (.matched ⟨0, 1, some "T", none, [⟨0, 1, none, none, []⟩]⟩, 1) := by
    decide +kernel
  have alone : (oneByteContext.run tagAlone 2).map endOf = some (.matched ⟨0, 0, some "T", none, []⟩, 0) := by
    decide +kernel
  refine ⟨fun always => ?_, fun always => ?_⟩
  · obtain ⟨c', run, hpos⟩ := run_of_end behind
    have leaves : oneByteContext.Leaves taggedBehind c'.pos [.tree ⟨0, 1, none, none, []⟩, .tag "T"] :=
      hpos ▸ taggedBehind_leaves
    exact absurd (always _ c' _ 5 _ _ run leaves _ rfl) (by decide)
  · obtain ⟨c', run, hpos⟩ := run_of_end alone
    have leaves : oneByteContext.Leaves tagAlone c'.pos [.tag "T"] := hpos ▸ tagAlone_leaves
    have untagged := congrArg Tree.tag (always _ c' _ 2 _ _ run leaves (by decide))
    cases untagged

end Context

end PegMachine
