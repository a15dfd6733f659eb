import PegMachine.Proofs.Run.Capacities
import PegMachine.Proofs.Trees.Result
/-!
  Open nodes.

  The node log keeps the places of its opened entries beside it, and cuts both back to lengths that were saved at any
  earlier time. `NodeLog.after` is the log that any operations leave, and the log of a run is one of these
  (`log_of_reaches`). What is proved:
    1. `run_openWithin`, `perform_nodeOpen`: a node is opened as a whole or not at all, and a run stops if it is not;
    2. `exact_after`, `depth_after_le`: the places are those of the opened entries, and no more than the capacity;
    3. `exists_foldsAt`: where a node is open, what is folded into the innermost one is in the log, and no other node
       is opened in it;
    4. `step_unbalanced_iff`: a run stops for want of an open node at an instruction that closes one, and nowhere else;
    5. `Closing.exact`, `closing_closeOpens`: the loop at the end of a match closes one node in each round, until none
       is open or the pool is full. `finish_of_accepted`: nothing else can keep the result tree from being made;
    6. `Context.open_nodes_exact`: all of this for whatever operations, context and program.
-/
namespace PegMachine

/-! ## Operations on a log -/

namespace NodeLog

/-- Notes the place of an opened entry, if there is room for one more. -/
def notePlace (capacity place : Nat) : EStateM RunError NodeLog Unit := fun log =>
  if log.opens.size < capacity then .ok () { log with opens := log.opens.push place }
  else .error (.stackOverflow .ast capacity) log

/-- Opens a node: notes the place of its entry, and then adds the entry. -/
def openWithin (capacity start : Nat) : EStateM RunError NodeLog Unit := do
  notePlace capacity (← get).entries.size
  modify fun log => { log with entries := log.entries.push (.opened start) }

/-- What can be done with a log. -/
inductive Operation where
  | opening (start : Nat)
  | adding (entry : LogEntry) (notOpened : entry.isOpened = false)
  | truncating (length : Nat)
  | clearing

/-- The log that an operation leaves. -/
def Operation.leave (capacity : Nat) (log : NodeLog) : Operation → NodeLog
  | opening start =>
    match (openWithin capacity start).run log with
    | .ok _ opened => opened
    | .error _ kept => kept
  | adding entry _ => log.push entry
  | truncating length => log.truncate length
  | clearing => .empty

/-- The log that operations leave. -/
def after (capacity : Nat) (operations : List Operation) : NodeLog := operations.foldl (Operation.leave capacity) .empty

variable {capacity : Nat} {log : NodeLog}

/-- A node is opened as a whole, or not at all. -/
theorem run_openWithin (capacity start : Nat) (log : NodeLog) : (openWithin capacity start).run log =
    if log.depth < capacity then .ok () (log.openNode start) else .error (.stackOverflow .ast capacity) log := by
  have run_notePlace (place : Nat) : (notePlace capacity place).run log =
      if log.depth < capacity then .ok () { log with opens := log.opens.push place }
      else .error (.stackOverflow .ast capacity) log := rfl
  have run_get : (get : EStateM RunError NodeLog NodeLog).run log = .ok log log := rfl
  simp only [openWithin, EStateM.run_bind, run_get, run_notePlace]
  by_cases room : log.depth < capacity
  · rw [if_pos room, if_pos room]
    rfl
  · rw [if_neg room, if_neg room]

theorem leave_opening (capacity start : Nat) (log : NodeLog) : Operation.leave capacity log (.opening start) =
    if log.depth < capacity then log.openNode start else log := by
  rw [Operation.leave, run_openWithin]
  by_cases room : log.depth < capacity
  · rw [if_pos room, if_pos room]
  · rw [if_neg room, if_neg room]

theorem after_append (capacity : Nat) (operations later : List Operation) :
    after capacity (operations ++ later) = later.foldl (Operation.leave capacity) (after capacity operations) :=
  List.foldl_append

theorem Exact.leave (h : log.Exact) (operation : Operation) : (Operation.leave capacity log operation).Exact := by
  cases operation with
  | opening start =>
    rw [leave_opening]
    split
    · exact h.openNode start
    · exact h
  | adding entry notOpened => exact h.push (by rintro start rfl; cases notOpened)
  | truncating length => exact h.truncate length
  | clearing => exact .empty

theorem depth_leave_le (h : log.depth ≤ capacity) (operation : Operation) :
    (Operation.leave capacity log operation).depth ≤ capacity := by
  cases operation with
  | opening start =>
    rw [leave_opening]
    split
    · next room =>
      rw [depth, openNode, Array.size_push]
      exact room
    · exact h
  | adding entry notOpened => exact h
  | truncating length => exact Nat.le_trans (log.depth_truncate_le length) h
  | clearing => exact Nat.zero_le _

theorem exact_after (capacity : Nat) (operations : List Operation) : (after capacity operations).Exact := by
  induction operations using List.reverseRecOn with
  | nil => exact .empty
  | append_singleton operations operation ih =>
    rw [after_append]
    exact ih.leave operation

theorem depth_after_le (capacity : Nat) (operations : List Operation) :
    (after capacity operations).depth ≤ capacity := by
  induction operations using List.reverseRecOn with
  | nil => exact Nat.zero_le _
  | append_singleton operations operation ih =>
    rw [after_append]
    exact depth_leave_le ih operation

/-! ## The innermost open node -/

/-- The node opened at this place can be folded: it is the innermost one, the entries behind its own are in the log,
    and none of them is opened. -/
structure FoldsAt (log : NodeLog) (place start : Nat) : Prop where
  innermost : log.innermost? = some (place, start)
  inside : place + 1 ≤ log.entries.size
  alone : ∀ entry ∈ log.entriesFrom (place + 1), entry.isOpened = false

theorem exists_foldsAt (h : log.Exact) (some_open : log.depth ≠ 0) : ∃ place start, log.FoldsAt place start := by
  cases hi : log.innermost? with
  | none =>
    rw [depth, h.innermost?_eq_none_iff.1 hi] at some_open
    exact absurd rfl some_open
  | some inner =>
    obtain ⟨place, start⟩ := inner
    have hentry := (innermost?_eq_some hi).2
    exact ⟨place, start, hi, (Array.getElem?_eq_some_iff.1 hentry).1, h.not_isOpened_above hi⟩

end NodeLog

/-! ## Logs of runs -/

namespace Setting

variable {s : Setting} {m m' : Machine} {i : Instruction}

/-- An instruction that opens a node does so on the log, and stops the run where there is no room. -/
theorem perform_nodeOpen (s : Setting) (m : Machine) :
    (∀ log, (NodeLog.openWithin s.config.maxStackLength m.pos).run m.work.log = .ok () log →
      s.perform .nodeOpen m = .next { m with work.log := log }) ∧
    ∀ error log, (NodeLog.openWithin s.config.maxStackLength m.pos).run m.work.log = .error error log →
      s.perform .nodeOpen m = .stop error m := by
  rw [NodeLog.run_openWithin, perform]
  by_cases room : m.work.log.depth < s.config.maxStackLength
  · rw [if_pos room, if_pos room]
    constructor
    · intro log hlog
      cases hlog
      rfl
    · intro error log hlog
      cases hlog
  · rw [if_neg room, if_neg room]
    constructor
    · intro log hlog
      cases hlog
    · intro error log hlog
      cases hlog
      rfl

/-- Whatever a move does to the log is done by operations on it. -/
theorem log_of_move (h : s.Move m i m') : ∃ operations : List NodeLog.Operation,
    m'.work.log = operations.foldl (NodeLog.Operation.leave s.config.maxStackLength) m.work.log := by
  cases h with
  | opened room =>
    refine ⟨[.opening m.pos], ?_⟩
    rw [List.foldl_cons, List.foldl_nil, NodeLog.leave_opening, if_pos room]
    rfl
  | closed place => exact ⟨[.truncating place, .adding (.node m.pool.size) rfl], rfl⟩
  | tagged label => exact ⟨[.adding (.tag label) rfl], rfl⟩
  | valued label => exact ⟨[.adding (.value label) rfl], rfl⟩
  | wentBack _ f | failed _ f | failedTwice f => exact ⟨[.truncating f.logLength], rfl⟩
  | defined => exact ⟨[], m.useMark_log⟩
  | _ => exact ⟨[], rfl⟩

theorem log_of_reaches {start pos : Nat} {pool : Pool} (h : s.Reaches (.start start pos pool) m) :
    ∃ operations, m.work.log = NodeLog.after s.config.maxStackLength operations := by
  induction h with
  | refl => exact ⟨[], rfl⟩
  | tail _ hstep ih =>
    obtain ⟨operations, hlog⟩ := ih
    obtain ⟨i, -, move⟩ := move_of_step hstep
    obtain ⟨later, hlater⟩ := log_of_move move
    exact ⟨operations ++ later, by rw [NodeLog.after_append, hlater, hlog]⟩

end Setting

/-! ## Closing a node -/

namespace Machine

variable {m : Machine}

/-- There are two reasons why no node can be closed, and one of them is that none is open. -/
theorem closeFault?_eq (exact : m.work.log.Exact) : m.closeFault? =
    if m.work.log.depth = 0 then some (.unbalancedNode m.pc)
    else if m.pool.isFull then some (.poolExhausted m.pool.size) else none := by
  by_cases none_open : m.work.log.depth = 0
  · have hi : m.work.log.innermost? = none := exact.innermost?_eq_none_iff.2 (Array.size_eq_zero_iff.1 none_open)
    rw [if_pos none_open, closeFault?, hi]
  · obtain ⟨place, start, folds⟩ := NodeLog.exists_foldsAt exact none_open
    rw [if_neg none_open, closeFault?, folds.innermost]

/-- Closing a node takes away the innermost place, and keeps the places exact. -/
theorem exact_closeNode (exact : m.work.log.Exact) (some_open : m.work.log.depth ≠ 0) :
    m.closeNode.work.log.Exact ∧ m.closeNode.work.log.depth + 1 = m.work.log.depth := by
  obtain ⟨place, start, folds⟩ := NodeLog.exists_foldsAt exact some_open
  have hclose : m.closeNode = m.foldFrom place start := by simp only [closeNode, folds.innermost]
  have hopens : m.closeNode.work.log.opens = m.work.log.opens.pop := by
    rw [hclose]
    exact exact.opens_truncate folds.innermost
  refine ⟨?_, ?_⟩
  · rw [hclose]
    exact (exact.truncate place).push fun _ => LogEntry.noConfusion
  · rw [NodeLog.depth] at some_open ⊢
    rw [hopens, Array.size_pop, NodeLog.depth]
    omega

end Machine

namespace Setting

variable {s : Setting} {m m' : Machine} {i : Instruction} {pc : Nat}

/-- Only closing a node can stop a run for want of an open one. -/
theorem nodeClose_of_unbalanced (h : s.perform i m = .stop (.unbalancedNode pc) m') : i = .nodeClose := by
  by_cases hc : i.consumes = true
  · rcases perform_consumes (s := s) (m := m) hc with ⟨count, hp⟩ | hp <;> rw [hp] at h <;> cases h
  cases i with
  | nodeClose => rfl
  | exit | jump | fail | tag | value | mark => cases h
  | define =>
    simp only [perform] at h
    split at h
    · cases h
    · split at h <;> cases h
  | call | ret | choice | commit | partialCommit | backCommit | failTwice | mappedChoice | nodeOpen | scopeBegin
  | scopeEnd =>
    simp only [perform] at h
    split at h <;> cases h
  | _ => exact absurd rfl hc

theorem stop_of_settle {effect : Effect} {error : RunError} (h : effect.settle = .stopped error m') :
    effect = .stop error m' := by
  cases effect with
  | stop => cases h; rfl
  | fail =>
    simp only [Effect.settle, Machine.backtrack] at h
    split at h <;> cases h
  | next | goto | accept => cases h

/-- A run stops for want of an open node exactly where an instruction closes a node and none is open. -/
theorem step_unbalanced_iff (exact : m.work.log.Exact) : s.step m = .stopped (.unbalancedNode pc) m' ↔
    s.program.at? m.pc = some .nodeClose ∧ m.work.log.depth = 0 ∧ pc = m.pc ∧ m' = m := by
  constructor
  · intro h
    cases code : s.program.at? m.pc with
    | none =>
      simp only [step, code] at h
      cases h
    | some i =>
      rw [step_of_code code] at h
      have stops := stop_of_settle h
      obtain rfl := nodeClose_of_unbalanced stops
      simp only [perform, Machine.closeFault?_eq exact] at stops
      by_cases none_open : m.work.log.depth = 0
      · rw [if_pos none_open] at stops
        cases stops
        exact ⟨rfl, none_open, rfl, rfl⟩
      · rw [if_neg none_open] at stops
        cases full : m.pool.isFull <;> rw [full] at stops <;> cases stops
  · rintro ⟨code, none_open, rfl, rfl⟩
    rw [step_of_code code]
    simp only [perform, Machine.closeFault?_eq exact, if_pos none_open]
    rfl

end Setting

/-! ## Closing what is left open -/

namespace Machine

variable {m x : Machine} {rounds : Nat}

/-- The loop at the end of a match, which closes the innermost node for as long as one is open: the machine after
    some rounds of it. -/
inductive Closing (m : Machine) : (rounds : Nat) → Machine → Prop where
  | begin : m.Closing 0 m
  | round {rounds : Nat} {x : Machine} (h : m.Closing rounds x) (some_open : x.work.log.depth ≠ 0)
    (closes : x.closeFault? = none) : m.Closing (rounds + 1) x.closeNode

/-- Each round closes one node. -/
theorem Closing.exact (h : m.Closing rounds x) (exact : m.work.log.Exact) :
    x.work.log.Exact ∧ rounds + x.work.log.depth = m.work.log.depth := by
  induction h with
  | begin => exact ⟨exact, Nat.zero_add _⟩
  | round h some_open closes ih =>
    obtain ⟨kept, depth⟩ := exact_closeNode ih.1 some_open
    exact ⟨kept, by omega⟩

/-- The loop ends: when all nodes are closed, after as many rounds as nodes were open, or when the pool is full. -/
theorem closing_closeOpens (exact : m.work.log.Exact) (h : m.Closing rounds x) {count : Nat}
    (hcount : x.work.log.depth = count) : ∃ rounds last, m.Closing rounds last ∧
      (x.closeOpens count = (last, none) ∧ last.work.log.depth = 0 ∧ rounds = m.work.log.depth ∨
        x.closeOpens count = (last, some (.poolExhausted last.pool.size)) ∧ last.work.log.depth ≠ 0 ∧
          last.pool.isFull = true) := by
  induction count generalizing rounds x with
  | zero =>
    have closed := (h.exact exact).2
    rw [hcount, Nat.add_zero] at closed
    exact ⟨rounds, x, h, .inl ⟨rfl, hcount, closed⟩⟩
  | succ count ih =>
    have some_open : x.work.log.depth ≠ 0 := by omega
    have hexact := (h.exact exact).1
    have hfault := closeFault?_eq hexact
    rw [if_neg some_open] at hfault
    rw [closeOpens, hfault]
    cases full : x.pool.isFull with
    | true => exact ⟨rounds, x, h, .inr ⟨rfl, some_open, full⟩⟩
    | false =>
      rw [full] at hfault
      have hdepth := (exact_closeNode hexact some_open).2
      exact ih (h.round some_open hfault) (by omega)

end Machine

/-- The result tree of a run that accepts can be made, unless the pool is full. -/
theorem Setting.finish_of_accepted {s : Setting} {m last x : Machine} {pc pos start : Nat} {pool : Pool}
    {error : RunError} (reached : s.Reaches (.start pc pos pool) m) (accepted : s.step m = .halted true last)
    (h : last.finish start = (x, .error error)) : error = .poolExhausted x.pool.size ∧ x.pool.isFull = true := by
  obtain ⟨n, -, rfl⟩ := states_of_reaches reached
  have tracks := tracks_of_accepted accepted (tracks_of_states pc pos pool n)
  rcases Machine.finish_of_tracks tracks start with ⟨y, hfull, full, -⟩ | ⟨y, hmade, -⟩
  · rw [h] at hfull
    cases hfull
    exact ⟨rfl, decide_eq_true full⟩
  · rw [h] at hmade
    cases hmade

/-! ## Runs of a context -/

namespace Context

/-- A run that ends for want of an open node has come to an instruction that closes one, and none was open there. -/
theorem unbalanced_of_run {c c' : Context} {program : Program} {fuel pc : Nat}
    (h : c.run program fuel = some (.stopped (.unbalancedNode pc), c')) :
    ∃ m, (c.setting program).Reaches c.machine m ∧ m.pc = pc ∧ program.at? pc = some .nodeClose ∧
      m.work.log.depth = 0 := by
  rcases run_cases h with ⟨-, hresult⟩ | ⟨-, ⟨last, result⟩, hexec, hresult⟩
  · cases hresult
  obtain ⟨m, reached, hlast⟩ := Setting.reaches_of_execute hexec
  rw [conclude] at hresult
  cases result with
  | error error =>
    cases hresult
    obtain ⟨code, none_open, rfl, -⟩ := (Setting.step_unbalanced_iff (Setting.exact_of_reaches reached)).1 hlast
    exact ⟨m, reached, rfl, code, none_open⟩
  | ok matched =>
    cases matched with
    | false => cases hresult
    | true =>
      -- The result tree could not be made, but then the pool is full.
      cases hfinish : last.finish c.startPos with
      | mk x made =>
        simp only [hfinish] at hresult
        cases made with
        | ok tree => cases hresult
        | error error =>
          obtain ⟨rfl, -⟩ := Setting.finish_of_accepted reached hlast hfinish
          cases hresult

/-- **The places of the open nodes are exact.** Whatever is done with a log, the places beside it are those of its
    opened entries in increasing order, and no more than the capacity. In a run nothing else is done with the log; an
    instruction that opens a node does so on it, and stops the run where there is no room. So in every run a node that
    is closed has its entries in the log and no other opened node among them, and no run stops for want of an open node
    but where an instruction closes a node and none is open. At the end of a match as many rounds as there are open
    nodes close them all, and only a full pool can keep the result tree from being made. -/
theorem open_nodes_exact (c : Context) (program : Program) :
    -- Whatever is done with a log, its places are exact, and a node that cannot be opened leaves it as it is.
    (∀ capacity operations, (NodeLog.after capacity operations).Exact ∧
      (NodeLog.after capacity operations).depth ≤ capacity ∧
      ∀ start error log,
        (NodeLog.openWithin capacity start).run (NodeLog.after capacity operations) = .error error log →
        error = .stackOverflow .ast capacity ∧ log = NodeLog.after capacity operations) ∧
    -- In a run, nothing else is done with its log.
    (∀ m, (c.setting program).Reaches c.machine m →
      (∃ operations, m.work.log = NodeLog.after c.config.maxStackLength operations) ∧
      let opened := (NodeLog.openWithin c.config.maxStackLength m.pos).run m.work.log
      ((∀ log, opened = .ok () log → (c.setting program).perform .nodeOpen m = .next { m with work.log := log }) ∧
        ∀ error log, opened = .error error log → (c.setting program).perform .nodeOpen m = .stop error m) ∧
      (m.work.log.depth ≠ 0 → ∃ place start, m.work.log.FoldsAt place start) ∧
      ∀ pc m', (c.setting program).step m = .stopped (.unbalancedNode pc) m' ↔
        program.at? m.pc = some .nodeClose ∧ m.work.log.depth = 0 ∧ pc = m.pc ∧ m' = m) ∧
    (∀ fuel pc c', c.run program fuel = some (.stopped (.unbalancedNode pc), c') →
      ∃ m, (c.setting program).Reaches c.machine m ∧ m.pc = pc ∧ program.at? pc = some .nodeClose ∧
        m.work.log.depth = 0) ∧
    -- Where a run accepts, the nodes that are still open are closed one by one.
    ∀ m last, (c.setting program).Reaches c.machine m → (c.setting program).step m = .halted true last →
      (∀ rounds x, last.Closing rounds x → rounds + x.work.log.depth = last.work.log.depth ∧
        (x.work.log.depth ≠ 0 → ∃ place start, x.work.log.FoldsAt place start)) ∧
      (∃ rounds x, last.Closing rounds x ∧
        (last.closeOpens last.work.log.depth = (x, none) ∧ x.work.log.depth = 0 ∧ rounds = last.work.log.depth ∨
          last.closeOpens last.work.log.depth = (x, some (.poolExhausted x.pool.size)) ∧ x.work.log.depth ≠ 0 ∧
            x.pool.isFull = true)) ∧
      ∀ x error, last.finish c.startPos = (x, .error error) →
        error = .poolExhausted x.pool.size ∧ x.pool.isFull = true := by
  refine ⟨fun capacity operations => ⟨NodeLog.exact_after _ _, NodeLog.depth_after_le _ _, ?_⟩, ?_,
    fun fuel pc c' => unbalanced_of_run, ?_⟩
  · intro start error log hrun
    rw [NodeLog.run_openWithin] at hrun
    split at hrun <;> cases hrun
    exact ⟨rfl, rfl⟩
  · intro m reached
    have exact : m.work.log.Exact := Setting.exact_of_reaches reached
    exact ⟨Setting.log_of_reaches reached, Setting.perform_nodeOpen (c.setting program) m, NodeLog.exists_foldsAt exact,
      fun pc m' => Setting.step_unbalanced_iff exact⟩
  · intro m last reached accepted
    have exact : last.work.log.Exact := by
      rw [Setting.step_accepted accepted]
      show m.work.log.Exact
      exact Setting.exact_of_reaches reached
    refine ⟨fun rounds x h => ⟨(h.exact exact).2, NodeLog.exists_foldsAt (h.exact exact).1⟩, ?_,
      fun x error => Setting.finish_of_accepted reached accepted⟩
    exact Machine.closing_closeOpens exact .begin rfl

/-- Closes a node in a choice that was made while it was open, and opens two more. The backtrack cuts the log back to
    where the first of them now stands. -/
def illNested : Program :=
  .ofList [.exit, .nodeOpen, .tag "old", .choice 8, .nodeClose, .nodeOpen, .nodeOpen, .fail, .nodeOpen, .exit,
    .nodeClose]

/-- A context that starts there. -/
def illNestedContext (startPoint : Nat) : Context := { new {} with startPoint }

theorem open_nodes_exact_illNested :
    let s := (illNestedContext 1).setting illNested
    let m := s.states (illNestedContext 1).machine 8
    let s' := (illNestedContext 10).setting illNested
    (m.work.log = ⟨#[.node 0, .opened 0, .opened 0], #[1, 2]⟩ ∧ ∃ place start, m.work.log.FoldsAt place start) ∧
    (s.step m = .halted true m.noteCursor ∧ ∃ x, m.noteCursor.Closing 2 x ∧ x.work.log.depth = 0) ∧
    ((illNestedContext 10).run illNested 1).map Prod.fst = some (.stopped (.unbalancedNode 10)) ∧
    ∃ m, s'.Reaches (illNestedContext 10).machine m ∧ m.pc = 10 ∧ m.work.log.depth = 0 := by
  intro s m s'
  obtain ⟨-, states, -, ends⟩ := open_nodes_exact (illNestedContext 1) illNested
  obtain ⟨-, -, unbalanced, -⟩ := open_nodes_exact (illNestedContext 10) illNested
  have reached : s.Reaches (illNestedContext 1).machine m := Setting.reaches_states _ _ 8
  have hlog : m.work.log = ⟨#[.node 0, .opened 0, .opened 0], #[1, 2]⟩ := by decide +kernel
  have code : s.program.at? m.pc = some .exit := by decide +kernel
  have accepted : s.step m = .halted true m.noteCursor := Setting.step_of_code code
  refine ⟨⟨hlog, (states m reached).2.2.1 (by rw [hlog]; decide)⟩, ⟨accepted, ?_⟩, ?_⟩
  · obtain ⟨-, ⟨rounds, x, closing, ⟨-, closed, count⟩ | ⟨full, -⟩⟩, -⟩ := ends m _ reached accepted
    · have two : m.noteCursor.work.log.depth = 2 := by decide +kernel
      rw [count, two] at closing
      exact ⟨x, closing, closed⟩
    · have fault : (m.noteCursor.closeOpens m.noteCursor.work.log.depth).2 = none := by decide +kernel
      rw [full] at fault
      cases fault
  · have run : ((illNestedContext 10).run illNested 1).map Prod.fst = some (.stopped (.unbalancedNode 10)) := by
      decide +kernel
    obtain ⟨⟨outcome, c'⟩, hrun, rfl⟩ := Option.map_eq_some_iff.1 run
    obtain ⟨m, reached, hpc, -, none_open⟩ := unbalanced 1 10 c' hrun
    exact ⟨run, m, reached, hpc, none_open⟩

end Context

end PegMachine
