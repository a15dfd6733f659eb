import PegMachine.Proofs.Grammar.Simulation
import PegMachine.Proofs.Run.Capacities
import PegMachine.Proofs.Trees.Result
import PegMachine.Tree.Printer
/-!
  How high result trees are.

  A node goes on top of the nodes that are finished inside it, so trees grow higher only by closing nodes, and a
  node must have been open to be closed. The open nodes are counted against a capacity: a tree that is finished
  while `n` nodes are open is no higher than what is left of the capacity. What is proved:
    1. `copy?_eq_some_iff`, `lines_eq_map`: to copy or to dump a tree takes as many levels as it is high;
    2. `TreeLog.Low`: every finished tree of the log fits below the nodes that are open before it. All that a
       builder does keeps this if the open nodes fit, and the root is at most one level higher;
    3. `low_of_states`: so it holds in every state of a run;
    4. `tree_height_le`: a result tree is no higher than the capacity, but for the root that may be made over it.
-/
namespace PegMachine

/-! ## Heights -/

namespace Tree

theorem height_eq (t : Tree) : t.height = 1 + heightList t.children := by
  obtain ⟨start, stop, tag, value, children⟩ := t
  rw [height]

theorem heightList_le {ts : List Tree} {bound : Nat} : heightList ts ≤ bound ↔ ∀ t ∈ ts, t.height ≤ bound := by
  induction ts with
  | nil => simp [heightList]
  | cons t ts ih => rw [heightList, Nat.max_le, ih, List.forall_mem_cons]

theorem heightList_le_of_forall₂ {α : Type} {xs : List α} {ts : List Tree} {bound : Nat}
    (h : List.Forall₂ (fun _ t => t.height ≤ bound) xs ts) : heightList ts ≤ bound := by
  induction h with
  | nil => exact Nat.zero_le _
  | cons ht _ ih => exact Nat.max_le.2 ⟨ht, ih⟩

mutual

/-- A node that is listed with some depth has no more levels below it than the tree has below this depth. -/
theorem depth_le_of_preorder (depth : Nat) : (t : Tree) → ∀ entry ∈ t.preorder depth,
    entry.1 + entry.2.height ≤ depth + t.height
  | ⟨start, stop, tag, value, children⟩ => by
    intro entry hentry
    rw [preorder] at hentry
    rcases List.mem_cons.1 hentry with rfl | below
    · exact Nat.le_refl _
    · have := depth_le_of_preorderList (depth + 1) children entry below
      rw [height]
      omega

theorem depth_le_of_preorderList (depth : Nat) : (ts : List Tree) → ∀ entry ∈ preorderList depth ts,
    entry.1 + entry.2.height ≤ depth + heightList ts
  | [] => by
    intro entry hentry
    rw [preorderList] at hentry
    cases hentry
  | t :: ts => by
    intro entry hentry
    rw [preorderList] at hentry
    rw [heightList]
    rcases List.mem_append.1 hentry with first | rest
    · have := depth_le_of_preorder depth t entry first
      omega
    · have := depth_le_of_preorderList depth ts entry rest
      omega

end

mutual

/-- The dump has a line for each node, indented by its depth. -/
theorem lines_eq_map (input : Option Input) (depth : Nat) : (t : Tree) →
    t.lines input depth = (t.preorder depth).map fun entry => indentation entry.1 ++ label input entry.2
  | ⟨start, stop, tag, value, children⟩ => by
    rw [lines, preorder, List.map_cons, linesList_eq_map input (depth + 1) children]

theorem linesList_eq_map (input : Option Input) (depth : Nat) : (ts : List Tree) → linesList input depth ts =
    (preorderList depth ts).map fun entry => indentation entry.1 ++ label input entry.2
  | [] => by rw [linesList, preorderList, List.map_nil]
  | t :: ts => by
    rw [linesList, preorderList, List.map_append, lines_eq_map input depth t, linesList_eq_map input depth ts]

end

end Tree

namespace Pool

variable {p : Pool} {depth : Nat} {id : NodeId} {t : Tree}

/-- No tree is copied with fewer levels than it has. -/
theorem height_le_of_copy? (h : p.copy? depth id = some t) : t.height ≤ depth := by
  induction depth generalizing id t with
  | zero => cases h
  | succ depth ih =>
    obtain ⟨node, -, hts, -⟩ := eq_of_copy?_succ h
    have := Tree.heightList_le_of_forall₂ (hts.imp fun _ _ => ih)
    rw [Tree.height_eq]
    omega

/-- Trees that are each copied with as many levels as they have are all copied with as many as the highest has. -/
theorem copy?_heightList {ids : List NodeId} {ts : List Tree}
    (h : List.Forall₂ (fun c t => p.copy? t.height c = some t) ids ts) :
    ∀ bound ≥ Tree.heightList ts, List.Forall₂ (fun c t => p.copy? bound c = some t) ids ts := by
  induction h with
  | nil => exact fun _ _ => .nil
  | cons hchild _ ih =>
    intro bound hbound
    obtain ⟨first, rest⟩ := Nat.max_le.1 hbound
    exact .cons (copy?_mono first hchild) (ih bound rest)

theorem copy?_height (h : p.copy? depth id = some t) : p.copy? t.height id = some t := by
  induction depth generalizing id t with
  | zero => cases h
  | succ depth ih =>
    obtain ⟨node, hnode, hts, ht⟩ := eq_of_copy?_succ h
    have hchildren := copy?_heightList (hts.imp fun _ _ => ih) _ (Nat.le_refl _)
    rw [Tree.height_eq, Nat.add_comm, copy?_succ hnode hchildren, ← ht]

/-- A tree that can be copied is copied with as many levels as it has, and not with fewer. -/
theorem copy?_iff_height_le (h : p.copy? depth id = some t) (levels : Nat) :
    p.copy? levels id = some t ↔ t.height ≤ levels :=
  ⟨height_le_of_copy?, fun hle => copy?_mono hle (copy?_height h)⟩

end Pool

/-! ## The log of trees -/

namespace TreeLog

variable {log rest : TreeLog} {room start stop : Nat}

/-- Nothing in the log is higher than the room for it: every open node takes one level of what comes after it. -/
def Low : (room : Nat) → TreeLog → Prop
  | _, [] => True
  | room, .opened _ :: rest => 0 < room ∧ Low (room - 1) rest
  | room, .tree t :: rest => t.height ≤ room ∧ Low room rest
  | room, .tag _ :: rest | room, .value _ :: rest => Low room rest

theorem low_append : Low room (log ++ rest) ↔ Low room log ∧ Low (room - log.depth) rest := by
  induction log generalizing room with
  | nil => simp [Low, depth]
  | cons entry log ih =>
    cases entry with
    | opened start =>
      have hdepth : depth (.opened start :: log) = depth log + 1 := List.countP_cons_of_pos rfl
      rw [List.cons_append, Low, Low, ih, hdepth, Nat.sub_sub, Nat.add_comm 1, and_assoc]
    | tag | value => exact ih
    | tree t =>
      rw [List.cons_append, Low, Low, ih, and_assoc]
      rfl

theorem Low.take (h : Low room log) (length : Nat) : Low room (log.take length) := by
  rw [← List.take_append_drop length log] at h
  exact (low_append.1 h).1

/-- A node may be opened as long as there is room for it. -/
theorem Low.openNode (h : Low room log) (hroom : log.depth < room) (start : Nat) :
    Low room (log ++ [.opened start]) :=
  low_append.2 ⟨h, Nat.sub_pos_of_lt hroom, trivial⟩

theorem Low.tag (h : Low room log) (label : String) : Low room (log ++ [.tag label]) := low_append.2 ⟨h, trivial⟩

theorem Low.value (h : Low room log) (label : String) : Low room (log ++ [.value label]) := low_append.2 ⟨h, trivial⟩

/-- Wherever a tree stands in the log, it fits. -/
theorem Low.height_le (h : Low room log) : ∀ t ∈ log.trees, t.height ≤ room := by
  induction log generalizing room with
  | nil => exact nofun
  | cons entry log ih =>
    cases entry with
    | opened =>
      intro t ht
      have := ih h.2 t ht
      omega
    | tag | value => exact ih h
    | tree => exact List.forall_mem_cons.2 ⟨h.1, ih h.2⟩

/-- The tree over the log is one level higher. -/
theorem Low.height_toTree (h : Low room log) (start stop : Nat) : (log.toTree start stop).height ≤ room + 1 := by
  have : Tree.heightList log.trees ≤ room := Tree.heightList_le.2 h.height_le
  rw [toTree, Tree.height]
  omega

/-- A node that is closed takes the level for which there was room when it was opened. -/
theorem Low.close (h : Low room log) (stop : Nat) : Low room (log.close stop) := by
  induction log generalizing room with
  | nil => trivial
  | cons entry log ih =>
    cases entry with
    | opened start =>
      obtain ⟨hroom, hrest⟩ := h
      rw [TreeLog.close]
      split
      · exact ⟨hroom, ih hrest⟩
      · have := hrest.height_toTree start stop
        exact ⟨by omega, trivial⟩
    | tag | value => exact ih h
    | tree => exact ⟨h.1, ih h.2⟩

theorem Low.closeAll (h : Low room log) (stop : Nat) : Low room (log.closeAll stop) := by
  rw [TreeLog.closeAll]
  induction log.depth with
  | zero => exact h
  | succ depth ih =>
    rw [Function.iterate_succ_apply']
    exact ih.close stop

end TreeLog

/-! ## Runs -/

namespace Setting

variable {s : Setting} {m x : Machine} {b b' : TreeBuilder} {room : Nat}

/-- What a builder does keeps its log low as long as the open nodes fit. -/
theorem low_of_logMove (h : s.LogMove m b x b') (hm : m.Tracks b) (fits : x.work.log.depth ≤ room)
    (hb : b.log.Low room) : b'.log.Low room := by
  have restored {b : TreeBuilder} (hb : b.log.Low room) : b.restore.log.Low room := by
    rw [TreeBuilder.restore]
    split
    · exact hb.take _
    · exact hb
  cases h with
  | kept | saved | dropped | refreshed => exact hb
  | tagged label => exact hb.tag label
  | valued label => exact hb.value label
  | opened same =>
    have hdepth : x.work.log.depth = b.log.depth + 1 := by
      rw [same.log, ← Stands.depth_eq hm.entries, ← hm.exact.depth_eq]
      exact Array.size_push ..
    exact hb.openNode (by omega) m.pos
  | closed => exact hb.close m.pos
  | restored => exact restored hb
  | restoredNext => exact restored (b := b.drop) hb

/-- In every state of a run the trees that are built fit below the open nodes. -/
theorem low_of_states (s : Setting) (pc pos : Nat) (pool : Pool) (n : Nat) :
    (s.building (.start pc pos pool) n).log.Low s.config.maxStackLength := by
  induction n with
  | zero => trivial
  | succ n ih =>
    have reached := s.reaches_states (.start pc pos pool) (n + 1)
    have fits : Stacks.Fits _ s.config := fits_of_reaches reached (.empty s.config)
    have tracks := tracks_of_states (s := s) pc pos pool n
    rw [states] at fits
    rw [building]
    cases hstep : s.step (s.states (.start pc pos pool) n) with
    | running m' =>
      rw [hstep] at fits
      obtain ⟨i, code, move⟩ := move_of_step hstep
      exact low_of_logMove (logMove_of_move code move _) tracks fits.opens ih
    | halted | stopped => exact ih

end Setting

/-! ## The root -/

namespace Machine

variable {m : Machine} {b : TreeBuilder} {start room : Nat} {id : NodeId} {pool : Pool}

/-- The root is a node of the log, or a new one over all of them; and it is stored in the pool. -/
theorem root?_eq_some (h : m.Tracks b) (hroot : m.root? start = some (id, pool)) :
    pool.Stores id (b.log.root start m.pos) ∧
      (b.log.lone?.isSome ∧ pool = m.pool ∨ b.log.lone? = none ∧ id = m.pool.size) := by
  rw [TreeLog.root]
  cases hlone : b.log.lone? with
  | some t =>
    obtain ⟨only, honly, stored⟩ := root?_of_lone h hlone start
    cases hroot.symm.trans honly
    exact ⟨stored, .inl ⟨rfl, rfl⟩⟩
  | none =>
    have hnew := hroot.symm.trans (root?_of_not_lone h hlone start)
    rw [Pool.acquire?] at hnew
    split at hnew
    · cases hnew
    · cases hnew
      exact ⟨Pool.stores_push (Stands.nodes h.entries) _ _ _ _, .inr ⟨rfl, rfl⟩⟩

end Machine

namespace TreeLog

variable {log : TreeLog} {room : Nat}

/-- A root that was built by the run fits, and one that is made over everything is at most one level higher. -/
theorem Low.height_root (h : Low room log) (start stop : Nat) :
    (log.root start stop).height ≤ room + 1 ∧ (log.lone?.isSome → (log.root start stop).height ≤ room) := by
  rw [root]
  cases hlone : log.lone? with
  | none => exact ⟨h.height_toTree start stop, fun one => absurd one Bool.false_ne_true⟩
  | some t =>
    obtain ⟨htrees, -, -⟩ := lone?_eq_some.1 hlone
    have ht := h.height_le t (htrees ▸ List.mem_singleton_self t)
    exact ⟨Nat.le_succ_of_le ht, fun _ => ht⟩

end TreeLog

/-! ## A node for each byte -/

/-- Builds a node for each byte of the input, all of them side by side under a root with a label. -/
def perByte : Program :=
  .ofList [.exit, .value "bytes", .choice 7, .nodeOpen, .any, .nodeClose, .partialCommit 3, .exit]

namespace PerByte

variable {config : Config} {input : Input} {pos furthest : Nat} {ids : List NodeId} {pool : Pool}

def context (config : Config) (input : Input) : Context := { Context.new config with input, startPoint := 1 }

def setting (config : Config) (input : Input) : Setting := ⟨perByte, input, config⟩

/-- The label and the nodes that are finished. -/
def log (ids : List NodeId) : NodeLog := (NodeLog.empty.push (.value "bytes")).addNodes ids

def base (ids : List NodeId) : Stacks := { Stacks.empty with log := log ids }

/-- The machine at the head of the loop, where the nodes are finished and the cursor has come to `pos`. -/
def looping (pos furthest : Nat) (ids : List NodeId) (pool : Pool) : Machine :=
  ⟨3, pos, furthest, { base ids with backtrack := #[(base ids).frame 7 pos] }, pool⟩

/-- The nodes for the first bytes. -/
def leaves (count : Nat) : List Tree := (List.range count).map fun pos => ⟨pos, pos + 1, none, none, []⟩

/-- No node is open in it. -/
theorem log_inside (ids : List NodeId) : (log ids).Inside :=
  fun _ hplace => absurd hplace List.not_mem_nil

/-- Folding up a node that was just opened leaves the new node in its place, with nothing inside. -/
theorem foldFrom_opened {m : Machine} (hlog : m.work.log = (log ids).openNode pos) :
    m.foldFrom (log ids).entries.size pos =
      { m with work.log := log (ids ++ [m.pool.size]), pool := m.pool.push pos m.pos none none [] } := by
  have truncated : m.work.log.truncate (log ids).entries.size = log ids := by
    rw [hlog]
    exact NodeLog.truncate_of_begins ((NodeLog.Begins.refl _).openNode pos) (log_inside ids)
  have inner : m.work.log.entriesFrom ((log ids).entries.size + 1) = [] := by
    rw [hlog, NodeLog.toList_entriesFrom, List.drop_eq_nil_iff, Array.length_toList, NodeLog.openNode,
      Array.size_push]
  rw [Machine.foldFrom, truncated, inner, NodeLog.push_node, log, NodeLog.addNodes_append]
  rfl

theorem open_step (stack : 0 < config.maxStackLength) :
    (setting config input).step (looping pos furthest ids pool) =
      .running ((looping pos furthest ids pool).openNode.moveOn 4) := by
  have depth : (looping pos furthest ids pool).work.log.depth < (setting config input).config.maxStackLength := stack
  rw [Setting.step_of_code (i := .nodeOpen) rfl, Setting.perform, if_pos depth]
  rfl

/-- One round of the loop makes the node for one byte. -/
theorem round_reaches (stack : 0 < config.maxStackLength) (more : pos < input.size)
    (room : pool.size < Pool.capacity) (furthest : Nat) (ids : List NodeId) :
    ∃ furthest', (setting config input).Reaches (looping pos furthest ids pool)
      (looping (pos + 1) furthest' (ids ++ [pool.size]) (pool.push pos (pos + 1) none none [])) := by
  let s := setting config input
  let m₀ := looping pos furthest ids pool
  let m₁ := m₀.openNode.moveOn 4
  let m₂ := (m₁.advance 1).moveOn 5
  let m₃ := (m₂.foldFrom (log ids).entries.size pos).moveOn 6
  have step₀ : s.step m₀ = .running m₁ := open_step stack
  have step₁ : s.step m₁ = .running m₂ := by
    have sees : s.sees m₁ (fun _ => true) = true := by
      rw [Setting.sees, Setting.next?, Array.getElem?_eq_getElem (show m₁.pos < s.input.size from more)]
      rfl
    rw [Setting.step_of_code (i := .any) rfl, Setting.perform, Machine.take, if_pos sees]
    rfl
  have innermost : m₂.work.log.innermost? = some ((log ids).entries.size, pos) := by
    have hentry : ((log ids).entries.push (.opened pos))[(log ids).entries.size]? = some (.opened pos) :=
      Array.getElem?_push_size
    show ((log ids).openNode pos).innermost? = _
    rw [NodeLog.innermost?, NodeLog.openNode, Array.back?_push]
    simp only [hentry]
  have step₂ : s.step m₂ = .running m₃ := by
    have notFull : m₂.pool.isFull = false := decide_eq_false (Nat.not_le_of_lt room)
    have fault : m₂.closeFault? = none := by simp [Machine.closeFault?, innermost, notFull]
    rw [Setting.step_of_code (i := .nodeClose) rfl, Setting.perform, fault, Machine.closeNode, innermost]
    rfl
  have folded : m₃ = ⟨6, pos + 1, m₃.furthest, { base (ids ++ [pool.size]) with backtrack := m₀.work.backtrack },
      pool.push pos (pos + 1) none none []⟩ :=
    congrArg (Machine.moveOn · 6) (foldFrom_opened (m := m₂) rfl)
  have step₃ : s.step m₃ = .running (looping (pos + 1) (max m₃.furthest (pos + 1)) (ids ++ [pool.size])
      (pool.push pos (pos + 1) none none [])) := by
    rw [folded, Setting.step_of_code (i := .partialCommit 3) rfl]
    rfl
  exact ⟨_, .head step₀ <| .head step₁ <| .head step₂ <| .single step₃⟩

/-- So many rounds make the nodes for so many bytes. -/
theorem rounds_reach (stack : 0 < config.maxStackLength) (count : Nat) (more : count ≤ input.size)
    (room : count ≤ Pool.capacity) :
    ∃ furthest ids pool, (setting config input).Reaches (.start 1 0 .empty) (looping count furthest ids pool) ∧
      pool.size = count ∧ List.Forall₂ pool.Stores ids (leaves count) := by
  induction count with
  | zero =>
    let s := setting config input
    let m : Machine := .start 1 0 .empty
    let m₁ := (m.pushEntry (.value "bytes")).moveOn 2
    have step₀ : s.step m = .running m₁ := Setting.step_of_code (i := .value "bytes") rfl
    have step₁ : s.step m₁ = .running (m₁.attempt 7) := Setting.step_choice (m := m₁) rfl stack
    exact ⟨0, [], .empty, .head step₀ (.single step₁), rfl, .nil⟩
  | succ count ih =>
    obtain ⟨furthest, ids, pool, reached, hsize, stored⟩ := ih (by omega) (by omega)
    have room' : pool.size < Pool.capacity := by omega
    obtain ⟨furthest', next⟩ := round_reaches stack more room' furthest ids
    refine ⟨furthest', ids ++ [pool.size], _, reached.trans next, by rw [Pool.size_push, hsize], ?_⟩
    rw [leaves, List.range_succ, List.map_append]
    refine List.rel_append (stored.imp fun _ _ hs => hs.extend (Pool.extends_push ..)) (.cons ?_ .nil)
    exact Pool.stores_push .nil count (count + 1) none none

/-- Where the input ends the loop is left by its frame, which takes back the node that was opened last. -/
theorem reaches_exit (stack : 0 < config.maxStackLength) (input : Input) :
    ∃ furthest', (setting config input).Reaches (looping input.size furthest ids pool)
      ⟨7, input.size, furthest', base ids, pool⟩ := by
  let s := setting config input
  let m₀ := looping input.size furthest ids pool
  let m₁ := m₀.openNode.moveOn 4
  have step₀ : s.step m₀ = .running m₁ := open_step stack
  have step₁ : s.step m₁ = .running (m₁.resume ((base ids).frame 7 input.size)) := by
    have ends : s.sees m₁ (fun _ => true) = false := by
      rw [Setting.sees, Setting.next?, Array.getElem?_eq_none (show s.input.size ≤ m₁.pos from Nat.le_refl _)]
      rfl
    rw [Setting.step_of_code (i := .any) rfl, Setting.perform, Machine.take, ends]
    rfl
  have begins : (base ids).Begins m₁.noteCursor.popFrame.work :=
    { log := (NodeLog.Begins.refl _).openNode _, calls := .refl _, symbols := .refl _, marks := .refl _ }
  have restored := Stacks.restore_frame begins (log_inside ids) 7 input.size
  refine ⟨m₁.noteCursor.furthest, .head step₀ (.single (step₁.trans ?_))⟩
  exact congrArg (Transition.running ⟨7, input.size, m₁.noteCursor.furthest, ·, pool⟩) restored

/-- The root over the nodes is new, since there is a label beside them. -/
theorem root?_eq (m : Machine) (hwork : m.work = base ids) :
    m.root? 0 = m.pool.acquire? 0 m.pos none (some "bytes") ids := by
  have entries : m.work.log.entries.toList = .value "bytes" :: ids.map .node := by
    rw [hwork]
    exact NodeLog.toList_addNodes ..
  have nodes : LogEntry.nodes m.work.log.entries.toList = ids := by
    rw [entries]
    exact LogEntry.nodes_map_node ids
  have tag : LogEntry.lastTag m.work.log.entries.toList = none := by
    rw [entries]
    exact congrArg List.getLast? (LogEntry.tags_map_node ids)
  have value : LogEntry.lastValue m.work.log.entries.toList = some "bytes" := by
    rw [entries]
    exact congrArg (fun labels => List.getLast? ("bytes" :: labels)) (LogEntry.values_map_node ids)
  simp only [Machine.root?, nodes, tag, value]

/-- The result tree has as many nodes side by side as the input has bytes. -/
theorem finish_eq {m : Machine} (hwork : m.work = base ids) (stored : List.Forall₂ m.pool.Stores ids (leaves pos))
    (room : m.pool.size < Pool.capacity) :
    ∃ m', m.finish 0 = (m', .ok ⟨0, m.pos, none, some "bytes", leaves pos⟩) := by
  have notFull : m.pool.isFull = false := decide_eq_false (Nat.not_le_of_lt room)
  have hroot : m.root? 0 = some (m.pool.size, m.pool.push 0 m.pos none (some "bytes") ids) := by
    rw [root?_eq m hwork, Pool.acquire?, notFull]
    rfl
  have hfinish : m.finish 0 = m.extract 0 := by
    rw [Machine.finish, hwork]
    rfl
  rw [hfinish, Machine.extract_of_root? hroot (Pool.stores_push stored _ _ _ _)]
  exact ⟨_, rfl⟩

/-- The run gives a root over as many nodes as the input has bytes. -/
theorem run_eq (stack : 0 < config.maxStackLength) (room : input.size < Pool.capacity) :
    ∃ fuel c', (context config input).run perByte fuel =
      some (.matched ⟨0, input.size, none, some "bytes", leaves input.size⟩, c') := by
  let c := context config input
  have hstart : c.startPos = 0 := Nat.zero_min _
  obtain ⟨_, ids, pool, looped, hsize, stored⟩ :=
    rounds_reach stack input.size (Nat.le_refl input.size) (Nat.le_of_lt room)
  obtain ⟨furthest, left⟩ := reaches_exit stack input
  let last : Machine := ⟨7, input.size, furthest, base ids, pool⟩
  have accepts : (setting config input).step last = Halt.transition ⟨last.noteCursor, .ok true⟩ :=
    Setting.step_of_code (i := .exit) rfl
  obtain ⟨fuel, hexec⟩ := Setting.execute_of_reaches (looped.trans left) accepts
  obtain ⟨m', hfinish⟩ := finish_eq (m := last.noteCursor) rfl stored (hsize ▸ room)
  have hrun : c.run perByte fuel = some (c.conclude ⟨last.noteCursor, .ok true⟩) := by
    rw [Context.run_eq_some Nat.one_ne_zero, Context.machine, hstart]
    exact ⟨_, hexec, rfl⟩
  simp only [Context.conclude, hstart, hfinish] at hrun
  exact ⟨fuel, _, hrun⟩

end PerByte

/-! ## Runs of a context -/

namespace Context

variable {c c' : Context} {program : Program} {fuel : Nat} {tree : Tree}

/-- What the root of a match is: a node of the run that fits, or a new one that may be one level higher. -/
theorem root_of_run (h : c.run program fuel = some (.matched tree, c')) :
    ∃ m last closed id, (c.setting program).Reaches c.machine m ∧ (c.setting program).step m = .halted true last ∧
      last.closeOpens last.work.log.depth = (closed, none) ∧ closed.root? c.startPos = some (id, c'.pool) ∧
      c'.pool.finalize? id = some tree ∧
      (c'.pool = closed.pool ∧ tree.height ≤ c.config.maxStackLength ∨
        id = closed.pool.size ∧ tree.height ≤ c.config.maxStackLength + 1) := by
  obtain ⟨n, last, closed, x, trace, hlast, hclose, hclosed, hextract, -, -, hpool⟩ := closed_of_run h
  have low := (c.setting program).low_of_states c.startPoint c.startPos c.pool n
  cases hroot : closed.root? c.startPos with
  | none =>
    simp only [Machine.extract, hroot] at hextract
    cases hextract
  | some root =>
    obtain ⟨id, pool⟩ := root
    obtain ⟨stored, which⟩ := Machine.root?_eq_some hclosed hroot
    rw [Machine.extract_of_root? hroot stored] at hextract
    cases hextract
    obtain ⟨any, lone⟩ := (low.closeAll last.pos).height_root c.startPos closed.pos
    rw [hpool]
    refine ⟨_, last, closed, id, trace.reaches n (Nat.le_refl n), hlast, hclose, hroot, stored.finalize, ?_⟩
    exact which.imp (fun h => ⟨h.2, lone h.1⟩) fun h => ⟨h.2, any⟩

/-- **Result trees are no deeper than the capacity of the stacks.** The tree of a match, of whatever program and
    input, is no higher than as many nodes as may be open at once, and one level higher at most if its root is the
    node that is made over everything at the end. So the recursions over it are bounded: it is copied out of the
    pool with exactly as many levels as it is high, and no line of its dump is indented deeper. But there is no such
    bound on children: with room for a single open node, as many nodes come side by side as the pool has room for. -/
theorem tree_height_le (c : Context) (program : Program) :
    (∀ fuel tree c', c.run program fuel = some (.matched tree, c') →
      ∃ m last closed id, (c.setting program).Reaches c.machine m ∧
        (c.setting program).step m = .halted true last ∧
        last.closeOpens last.work.log.depth = (closed, none) ∧ closed.root? c.startPos = some (id, c'.pool) ∧
        (c'.pool = closed.pool ∧ tree.height ≤ c.config.maxStackLength ∨
          id = closed.pool.size ∧ tree.height ≤ c.config.maxStackLength + 1) ∧
        (∀ levels, c'.pool.copy? levels id = some tree ↔ tree.height ≤ levels) ∧
        ∀ input, ∃ nodes : List (Nat × Tree), (∀ entry ∈ nodes, entry.1 < tree.height) ∧
          tree.lines input 0 = nodes.map fun entry => Tree.indentation entry.1 ++ Tree.label input entry.2) ∧
    ∀ config input, 0 < config.maxStackLength → input.size < Pool.capacity →
      ∃ fuel tree c', (PerByte.context config input).run perByte fuel = some (.matched tree, c') ∧
        tree.children.length = input.size := by
  refine ⟨fun fuel tree c' hrun => ?_, fun config input stack room => ?_⟩
  · obtain ⟨m, last, closed, id, reached, hlast, hclose, hroot, copied, bound⟩ := root_of_run hrun
    refine ⟨m, last, closed, id, reached, hlast, hclose, hroot, bound, Pool.copy?_iff_height_le copied,
      fun input => ⟨tree.preorder 0, fun entry hentry => ?_, tree.lines_eq_map input 0⟩⟩
    have below := tree.depth_le_of_preorder 0 entry hentry
    have := entry.2.height_eq
    omega
  · obtain ⟨fuel, c', hrun⟩ := PerByte.run_eq stack room
    refine ⟨fuel, _, c', hrun, ?_⟩
    rw [PerByte.leaves, List.length_map, List.length_range]

/-- Opens two nodes, one inside the other, and leaves them open. -/
def deepening : Program := .ofList [.exit, .nodeOpen, .nodeOpen, .exit]

/-- A context with room for just these. -/
def deepeningContext : Context := { new ⟨2, 0⟩ with startPoint := 1 }

theorem tree_height_le_deepening :
    (∃ tree c' id, deepeningContext.run deepening 3 = some (.matched tree, c') ∧ tree.height = 2 ∧
      c'.pool.copy? 2 id = some tree) ∧
    ∃ fuel tree c', (PerByte.context ⟨1, 0⟩ #[97, 98, 99]).run perByte fuel = some (.matched tree, c') ∧
      tree.children.length = 3 := by
  obtain ⟨bounded, many⟩ := tree_height_le deepeningContext deepening
  have hrun : (deepeningContext.run deepening 3).map Prod.fst =
      some (.matched ⟨0, 0, none, none, [⟨0, 0, none, none, []⟩]⟩) := by decide +kernel
  obtain ⟨⟨outcome, c'⟩, hrun, rfl⟩ := Option.map_eq_some_iff.1 hrun
  obtain ⟨m, last, closed, id, -, -, -, -, -, copies, -⟩ := bounded 3 _ c' hrun
  exact ⟨⟨_, c', id, hrun, by decide, (copies 2).2 (by decide)⟩, many ⟨1, 0⟩ #[97, 98, 99] (by decide) (by decide)⟩

end Context

end PegMachine
