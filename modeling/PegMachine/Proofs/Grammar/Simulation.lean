import PegMachine.Proofs.Grammar.Code
import PegMachine.Proofs.Pool.Stored
import PegMachine.Proofs.Run.Leads
/-!
  The machine runs parsing expressions.

  `Machine.Matched` says what the code of an expression leaves when it is matched: all stacks as they were,
  and the trees in the pool with their nodes added to the log. `Setting.Refused` says how it is refused:
  a step fails with the frames that were there before, and the stacks still have at their bottom what they
  held, so whoever backtracks finds everything again. `Runs e p v` says that the code of `e` does one of the
  two, as the verdict `v` has it, wherever it starts with the cursor at `p`.
  What is proved:
    1. one lemma for each rule of the semantics: `Runs` is kept by it;
    2. `runs_of_derives`: so every derived verdict is what the machine does.
-/
namespace PegMachine

/-! ## Nodes added to the log -/

namespace NodeLog

variable {log : NodeLog}

/-- The log with finished nodes added to the innermost opened node. -/
def addNodes (log : NodeLog) (ids : List NodeId) : NodeLog :=
  ⟨log.entries ++ ids.map LogEntry.node, log.opens⟩

theorem toList_addNodes (log : NodeLog) (ids : List NodeId) :
    (log.addNodes ids).entries.toList = log.entries.toList ++ ids.map .node := Array.toList_appendList

@[simp] theorem addNodes_nil : log.addNodes [] = log := by
  obtain ⟨entries, opens⟩ := log
  simp [addNodes]

theorem addNodes_append (ids ids' : List NodeId) :
    (log.addNodes ids).addNodes ids' = log.addNodes (ids ++ ids') := by
  simp only [addNodes, mk.injEq, and_true]
  apply Array.toList_inj.1
  simp

theorem push_node (id : NodeId) : log.push (.node id) = log.addNodes [id] := by
  simp only [push, addNodes, mk.injEq, and_true]
  apply Array.toList_inj.1
  simp

theorem begins_addNodes (ids : List NodeId) : log.Begins (log.addNodes ids) :=
  ⟨⟨ids.map .node, (toList_addNodes log ids).symm⟩, [], by simp [addNodes], by simp⟩

theorem Inside.of_begins {log log' : NodeLog} (inside : log.Inside) (begins : log.Begins log')
    (opens : log'.opens = log.opens) : log'.Inside := by
  intro place hplace
  exact Nat.lt_of_lt_of_le (inside place (opens ▸ hplace)) begins.entries.size_le

theorem Inside.openNode (inside : log.Inside) (start : Nat) : (log.openNode start).Inside := by
  intro place hplace
  simp only [NodeLog.openNode, Array.toList_push, List.mem_append, List.mem_singleton] at hplace
  rw [NodeLog.openNode, Array.size_push]
  rcases hplace with hplace | rfl
  · exact Nat.lt_succ_of_lt (inside place hplace)
  · exact Nat.lt_succ_self _

/-! The log of a capture: a node opened over a log, then finished nodes, then the tag. -/

/-- The log just before a capture closes. -/
def captured (log : NodeLog) (start : Nat) (ids : List NodeId) (label : String) : NodeLog :=
  ((log.openNode start).addNodes ids).push (.tag label)

theorem toList_captured (log : NodeLog) (start : Nat) (ids : List NodeId) (label : String) :
    (log.captured start ids label).entries.toList =
      log.entries.toList ++ .opened start :: (ids.map .node ++ [.tag label]) := by
  simp [captured, push, addNodes, NodeLog.openNode]

theorem begins_captured (log : NodeLog) (start : Nat) (ids : List NodeId) (label : String) :
    log.Begins (log.captured start ids label) :=
  (((Begins.refl log).openNode start).trans (begins_addNodes ids)).push (.tag label)

theorem innermost?_captured (log : NodeLog) (start : Nat) (ids : List NodeId) (label : String) :
    (log.captured start ids label).innermost? = some (log.entries.size, start) := by
  have hopens : (log.captured start ids label).opens.back? = some log.entries.size := Array.back?_push
  have hentry : (log.captured start ids label).entries[log.entries.size]? = some (.opened start) := by
    rw [← Array.getElem?_toList, toList_captured, ← Array.length_toList]
    simp
  rw [innermost?, hopens]
  simp only [hentry]

theorem entriesFrom_captured (log : NodeLog) (start : Nat) (ids : List NodeId) (label : String) :
    (log.captured start ids label).entriesFrom (log.entries.size + 1) = ids.map .node ++ [.tag label] := by
  have hsize := congrArg List.length (toList_captured log start ids label)
  rw [entriesFrom, Array.toList_extract, toList_captured, List.extract, ← Array.length_toList,
    ← Array.length_toList, List.drop_length_add_append, List.drop_one, List.tail_cons, List.take_of_length_le]
  simp only [List.length_append, List.length_cons] at hsize ⊢
  omega

end NodeLog

namespace LogEntry

theorem nodes_map_node (ids : List NodeId) : nodes (ids.map .node) = ids := by
  rw [nodes, List.filterMap_map]
  exact List.filterMap_some

theorem tags_map_node (ids : List NodeId) : (ids.map node).filterMap tag? = [] := by
  rw [List.filterMap_map, List.filterMap_eq_nil_iff]
  exact fun _ _ => rfl

theorem values_map_node (ids : List NodeId) : (ids.map node).filterMap value? = [] := by
  rw [List.filterMap_map, List.filterMap_eq_nil_iff]
  exact fun _ _ => rfl

variable (ids : List NodeId) (label : String)

theorem nodes_captured : nodes (ids.map .node ++ [.tag label]) = ids := by
  rw [nodes, List.filterMap_append]
  exact (List.append_nil _).trans (nodes_map_node ids)

theorem lastTag_captured : lastTag (ids.map .node ++ [.tag label]) = some label := by
  rw [lastTag, List.filterMap_append, tags_map_node]
  rfl

theorem lastValue_captured : lastValue (ids.map .node ++ [.tag label]) = none := by
  rw [lastValue, List.filterMap_append, values_map_node]
  rfl

end LogEntry

/-! ## Matched and refused -/

/-- From the machine `m` the run has come to `m'`, at `pc` with the cursor at `stop`, having built the
    trees and nothing else. -/
structure Machine.Matched (m : Machine) (pc stop : Nat) (trees : List Tree) (m' : Machine) : Prop where
  pc : m'.pc = pc
  pos : m'.pos = stop
  built : ∃ ids, m'.work = { m.work with log := m.work.log.addNodes ids } ∧
    List.Forall₂ m'.pool.Stores ids trees
  pool : m.pool.Extends m'.pool

namespace Machine.Matched

variable {m m₁ m₂ : Machine} {pc pc' p q r target : Nat} {ts us : List Tree}

/-- Going back to where the run came from, or not having left. -/
theorem of_work_eq (hpc : m₁.pc = pc) (hpos : m₁.pos = p) (hwork : m₁.work = m.work)
    (hpool : m.pool.Extends m₁.pool) : m.Matched pc p [] m₁ :=
  ⟨hpc, hpos, ⟨[], by simp [hwork], .nil⟩, hpool⟩

theorem trans (h : m.Matched pc q ts m₁) (h' : m₁.Matched pc' r us m₂) : m.Matched pc' r (ts ++ us) m₂ := by
  obtain ⟨ids, hwork, hids⟩ := h.built
  obtain ⟨ids', hwork', hids'⟩ := h'.built
  refine ⟨h'.pc, h'.pos, ⟨ids ++ ids', ?_, ?_⟩, h.pool.trans h'.pool⟩
  · rw [hwork', hwork, NodeLog.addNodes_append]
  · exact List.rel_append (hids.imp fun _ _ hs => hs.extend h'.pool) hids'

theorem moveOn (h : m.Matched pc q ts m₁) (pc' : Nat) : m.Matched pc' q ts (m₁.moveOn pc') :=
  ⟨rfl, h.pos, h.built, h.pool⟩

theorem backtrack (h : m.Matched pc q ts m₁) : m₁.work.backtrack = m.work.backtrack := by
  obtain ⟨ids, hwork, -⟩ := h.built
  rw [hwork]

theorem calls (h : m.Matched pc q ts m₁) : m₁.work.calls = m.work.calls := by
  obtain ⟨ids, hwork, -⟩ := h.built
  rw [hwork]

theorem begins (h : m.Matched pc q ts m₁) : m.work.Begins m₁.work := by
  obtain ⟨ids, hwork, -⟩ := h.built
  rw [hwork]
  exact ⟨NodeLog.begins_addNodes ids, .refl _, .refl _, .refl _⟩

theorem inside (h : m.Matched pc q ts m₁) (inside : m.work.log.Inside) : m₁.work.log.Inside := by
  refine inside.of_begins h.begins.log ?_
  obtain ⟨ids, hwork, -⟩ := h.built
  rw [hwork]
  rfl

end Machine.Matched

namespace Setting

variable {s : Setting} {m m₁ m₂ : Machine} {pc pc' p q r target : Nat} {ts us : List Tree} {v : Verdict}

/-- The step from `m'` fails, with the frames of `m` and with the stacks of `m` at the bottom of its own. -/
def Refused (s : Setting) (m m' : Machine) : Prop :=
  ∃ left : Machine, s.step m' = left.backtrack ∧ left.work.backtrack = m.work.backtrack ∧
    m.work.Begins left.work ∧ m.pool.Extends left.pool

/-- What a verdict says about the machine `m'` that the run from `m` comes to. -/
def Answers (s : Setting) (m : Machine) (pc : Nat) : Verdict → Machine → Prop
  | .matched stop trees, m' => m.Matched pc stop trees m'
  | .refused, m' => s.Refused m m'

theorem Refused.trans (h : s.Refused m₁ m₂) (backtrack : m₁.work.backtrack = m.work.backtrack)
    (begins : m.work.Begins m₁.work) (pool : m.pool.Extends m₁.pool) : s.Refused m m₂ := by
  obtain ⟨left, hstep, hframes, hbegins, hpool⟩ := h
  exact ⟨left, hstep, hframes.trans backtrack, begins.trans hbegins, pool.trans hpool⟩

theorem Refused.after (h : s.Refused m₁ m₂) (before : m.Matched pc q ts m₁) : s.Refused m m₂ :=
  h.trans before.backtrack before.begins before.pool

/-- An instruction that fails where the stacks are as before. -/
theorem refused_of_fail (h : m.Matched pc q ts m₁) (hstep : s.step m₂ = m₁.noteCursor.backtrack) :
    s.Refused m m₂ := ⟨m₁.noteCursor, hstep, h.backtrack, h.begins, h.pool⟩

theorem Answers.after (h : s.Answers m₁ pc' v m₂) (before : m.Matched pc q [] m₁) : s.Answers m pc' v m₂ := by
  cases v with
  | matched stop us => exact before.trans h
  | refused => exact Refused.after h before

/-! ## Under a frame -/

theorem top_of_attempt (h : (m.attempt target).Matched pc q ts m₁) :
    m₁.work.backtrack.back? = some (m.frame target) := by
  rw [h.backtrack]
  exact Array.back?_push

/-- What was matched under a frame was matched once the frame is gone. -/
theorem matched_popFrame (h : (m.attempt target).Matched pc q ts m₁) : m.Matched pc q ts m₁.popFrame := by
  obtain ⟨ids, hwork, hids⟩ := h.built
  refine ⟨h.pc, h.pos, ⟨ids, ?_, hids⟩, h.pool⟩
  rw [Machine.popFrame, hwork]
  simp [Machine.attempt, Machine.pushFrame, Machine.moveOn, Machine.noteCursor]

/-- Restoring the frame of `m` over the stacks of `m` goes back to `m`. -/
theorem work_of_restore (backtrack : m₁.work.backtrack = m.work.backtrack) (begins : m.work.Begins m₁.work)
    (inside : m.work.log.Inside) : (m₁.restore (m.frame target)).work = m.work := by
  show m₁.work.restore (m.work.frame target m.pos) = m.work
  rw [Stacks.restore_frame begins inside, backtrack]

/-- What is refused under a frame resumes at its alternative, with everything as it was. -/
theorem resumes_of_refused (h : s.Refused (m.attempt target) m₁) (inside : m.work.log.Inside) :
    ∃ m₂, s.step m₁ = .running m₂ ∧ m.Matched target m.pos [] m₂ := by
  obtain ⟨left, hstep, hframes, hbegins, hpool⟩ := h
  have top : left.work.backtrack.back? = some (m.frame target) := by
    rw [hframes]
    exact Array.back?_push
  have below : left.popFrame.work.backtrack = m.work.backtrack := by
    show left.work.backtrack.pop = m.work.backtrack
    rw [hframes]
    exact Array.pop_push ..
  -- `left` has the frames of `m` and one more, and the other stacks of `m` with something on them.
  refine ⟨{ left.popFrame.restore (m.frame target) with pc := target }, ?_, .of_work_eq rfl rfl ?_ hpool⟩
  · rw [hstep, Machine.backtrack, top]
    rfl
  · exact work_of_restore below ⟨hbegins.log, hbegins.calls, hbegins.symbols, hbegins.marks⟩ inside

/-! ## Running an expression -/

variable {ρ : Type} {g : Grammar ρ} {address : ρ → Nat} {a b e : Expr ρ}

/-- The code of the expression answers with the verdict wherever it starts with the cursor at `p`. -/
def Runs (s : Setting) (address : ρ → Nat) (e : Expr ρ) (p : Nat) (v : Verdict) : Prop :=
  ∀ m : Machine, s.program.Holds m.pc (e.code address m.pc) → m.pos = p → m.work.log.Inside →
    s.Leads (s.Answers m (m.pc + e.size) v) m

theorem runs_consumes {mt : Matcher} {count : Nat} (h : mt.length? (s.input.toList.drop p) = some count) :
    s.Runs address (.matcher mt) p (.matched (p + count) []) := by
  intro m code hp _
  have hstep := step_of_code code.1
  rw [perform_matcher, hp, h] at hstep
  refine .step hstep (.here (.of_work_eq rfl ?_ rfl (.refl _)))
  exact congrArg (· + count) hp

theorem runs_refuses {mt : Matcher} (h : mt.length? (s.input.toList.drop p) = none) :
    s.Runs address (.matcher mt) p .refused := by
  intro m code hp _
  have hstep := step_of_code code.1
  rw [perform_matcher, hp, h] at hstep
  have stayed : m.Matched m.pc m.pos [] m := .of_work_eq rfl rfl rfl (.refl _)
  exact .here (refused_of_fail stayed hstep)

theorem runs_empty : s.Runs address .empty p (.matched p []) :=
  fun _ _ hp _ => .here (.of_work_eq rfl hp rfl (.refl _))

theorem runs_seq (ha : s.Runs address a p (.matched q ts)) (hb : s.Runs address b q (.matched r us)) :
    s.Runs address (.seq a b) p (.matched r (ts ++ us)) := by
  intro m code hp inside
  obtain ⟨hcodea, hcodeb⟩ := Program.holds_code.1 code
  refine (ha m hcodea hp inside).bind fun m₁ h₁ => ?_
  have h₁ : m.Matched (m.pc + a.size) q ts m₁ := h₁
  refine (hb m₁ (h₁.pc ▸ hcodeb) h₁.pos (h₁.inside inside)).mono fun m₂ h₂ => ?_
  rw [h₁.pc, Nat.add_assoc] at h₂
  exact h₁.trans h₂

theorem runs_seqFirst (ha : s.Runs address a p .refused) : s.Runs address (.seq a b) p .refused :=
  fun m code hp inside => ha m (Program.holds_code.1 code).1 hp inside

theorem runs_seqSecond (ha : s.Runs address a p (.matched q ts)) (hb : s.Runs address b q .refused) :
    s.Runs address (.seq a b) p .refused := by
  intro m code hp inside
  obtain ⟨hcodea, hcodeb⟩ := Program.holds_code.1 code
  refine (ha m hcodea hp inside).bind fun m₁ h₁ => ?_
  have h₁ : m.Matched (m.pc + a.size) q ts m₁ := h₁
  exact (hb m₁ (h₁.pc ▸ hcodeb) h₁.pos (h₁.inside inside)).mono fun m₂ h₂ => Refused.after h₂ h₁

/-- The code under the frame that a `choice` pushes. -/
theorem leads_attempt {P : Machine → Prop} (hchoice : s.program.at? m.pc = some (.choice target))
    (ha : s.Runs address a p v) (code : s.program.Holds (m.pc + 1) (a.code address (m.pc + 1)))
    (hp : m.pos = p) (inside : m.work.log.Inside)
    (next : ∀ m', s.Answers (m.attempt target) (m.pc + 1 + a.size) v m' → s.Leads P m') : s.Leads P m :=
  leads_choice hchoice fun _ => (ha (m.attempt target) code hp inside).bind next

theorem runs_first (ha : s.Runs address a p (.matched q ts)) :
    s.Runs address (.choice a b) p (.matched q ts) := by
  intro m ⟨hchoice, code⟩ hp inside
  obtain ⟨hcodea, hcommit, -⟩ := Program.holds_code.1 code
  refine leads_attempt hchoice ha hcodea hp inside fun m₁ h₁ => ?_
  have hstep := step_of_code (s := s) (m := m₁) (by rw [h₁.pc]; exact hcommit)
  rw [perform, top_of_attempt h₁] at hstep
  refine .step hstep (.here ?_)
  rw [Expr.add_size_choice]
  exact (matched_popFrame h₁).moveOn _

theorem runs_second (ha : s.Runs address a p .refused) (hb : s.Runs address b p v) :
    s.Runs address (.choice a b) p v := by
  intro m ⟨hchoice, code⟩ hp inside
  obtain ⟨hcodea, -, hcodeb⟩ := Program.holds_code.1 code
  refine leads_attempt hchoice ha hcodea hp inside fun m₁ h₁ => ?_
  obtain ⟨m₂, hstep, h₂⟩ := resumes_of_refused h₁ inside
  have hrun := hb m₂ (by rw [h₂.pc]; exact hcodeb) (h₂.pos.trans hp) (h₂.inside inside)
  refine .step hstep (hrun.mono fun m₃ h₃ => ?_)
  rw [Expr.add_size_choice, ← h₂.pc]
  exact h₃.after h₂

theorem runs_done (ha : s.Runs address a p .refused) : s.Runs address (.star a) p (.matched p []) := by
  intro m ⟨hchoice, code⟩ hp inside
  refine leads_attempt hchoice ha (Program.holds_code.1 code).1 hp inside fun m₁ h₁ => ?_
  obtain ⟨m₂, hstep, h₂⟩ := resumes_of_refused h₁ inside
  rw [hp, Nat.add_assoc, Nat.add_assoc, Nat.add_comm 1] at h₂
  exact .step hstep (.here h₂)

/-- A round of a repetition that was matched, seen from the `choice` in front of the loop. -/
theorem matched_round (h : (m.attempt target).Matched pc q ts m₁) :
    m.Matched m.pc q ts { m₁.popFrame with pc := m.pc } :=
  ⟨rfl, (matched_popFrame h).pos, (matched_popFrame h).built, h.pool⟩

/-- After one round of a repetition the machine stands where the `choice` would have put it. -/
theorem step_partialCommit (hloop : s.program.at? m₁.pc = some (.partialCommit (m.pc + 1)))
    (h : (m.attempt target).Matched pc q ts m₁) :
    s.step m₁ = .running (Machine.attempt { m₁.popFrame with pc := m.pc } target) := by
  rw [step_of_code hloop, perform, top_of_attempt h]
  rfl

theorem runs_more (ha : s.Runs address a p (.matched q ts))
    (hs : s.Runs address (.star a) q (.matched r us)) :
    s.Runs address (.star a) p (.matched r (ts ++ us)) := by
  intro m ⟨hchoice, code⟩ hp inside
  obtain ⟨hcodea, hloop, -⟩ := Program.holds_code.1 code
  refine leads_choice hchoice fun room => (ha (m.attempt _) hcodea hp inside).bind fun m₁ h₁ => ?_
  have hstep := step_partialCommit (by rw [h₁.pc]; exact hloop) h₁
  -- The rest of the loop is what the whole loop does from `again`, without its `choice`.
  let again : Machine := { m₁.popFrame with pc := m.pc }
  have round : m.Matched m.pc q ts again := matched_round h₁
  have loop := hs again ⟨hchoice, code⟩ round.pos (round.inside inside)
  have hagain : s.step again = .running (again.attempt _) :=
    step_choice hchoice (by rw [round.backtrack]; exact room)
  refine .step hstep ((loop.of_step hagain ?_).mono fun m₂ h₂ => round.trans h₂)
  intro h
  have : m.pc = m.pc + (a.size + 2) := h.pc
  omega

theorem runs_and (ha : s.Runs address a p (.matched q ts)) : s.Runs address (.and a) p (.matched p []) := by
  intro m ⟨hchoice, code⟩ hp inside
  obtain ⟨hcodea, hback, -⟩ := Program.holds_code.1 code
  refine leads_attempt hchoice ha hcodea hp inside fun m₁ h₁ => ?_
  have hstep := step_of_code (s := s) (m := m₁) (by rw [h₁.pc]; exact hback)
  rw [perform, top_of_attempt h₁] at hstep
  -- The nodes of `a` go when the log is restored, so a predicate builds nothing.
  have h := matched_popFrame h₁
  refine .step hstep (.here (.of_work_eq ?_ hp (work_of_restore h.backtrack h.begins inside) h.pool))
  show m.pc + 1 + a.size + 1 + 1 = m.pc + (a.size + 3)
  omega

theorem runs_andRefused (ha : s.Runs address a p .refused) : s.Runs address (.and a) p .refused := by
  intro m ⟨hchoice, code⟩ hp inside
  obtain ⟨hcodea, -, hfail, -⟩ := Program.holds_code.1 code
  refine leads_attempt hchoice ha hcodea hp inside fun m₁ h₁ => ?_
  obtain ⟨m₂, hstep, h₂⟩ := resumes_of_refused h₁ inside
  have hstep' := step_of_code (s := s) (m := m₂) (by rw [h₂.pc]; exact hfail)
  exact .step hstep (.here (refused_of_fail h₂ hstep'))

theorem runs_not (ha : s.Runs address a p .refused) : s.Runs address (.not a) p (.matched p []) := by
  intro m ⟨hchoice, code⟩ hp inside
  refine leads_attempt hchoice ha (Program.holds_code.1 code).1 hp inside fun m₁ h₁ => ?_
  obtain ⟨m₂, hstep, h₂⟩ := resumes_of_refused h₁ inside
  rw [hp, Nat.add_assoc, Nat.add_assoc, Nat.add_comm 1] at h₂
  exact .step hstep (.here h₂)

theorem runs_notRefused (ha : s.Runs address a p (.matched q ts)) : s.Runs address (.not a) p .refused := by
  intro m ⟨hchoice, code⟩ hp inside
  obtain ⟨hcodea, htwice, -⟩ := Program.holds_code.1 code
  refine leads_attempt hchoice ha hcodea hp inside fun m₁ h₁ => .here ?_
  have hstep := step_of_code (s := s) (m := m₁) (by rw [h₁.pc]; exact htwice)
  rw [perform, top_of_attempt h₁] at hstep
  exact refused_of_fail (matched_popFrame h₁) hstep

theorem runs_rule {r : ρ} (laid : g.LaidOut address s.program) (h : s.Runs address (g r) p v) :
    s.Runs address (.rule r) p v := by
  intro m ⟨hcall, _⟩ hp inside
  obtain ⟨hbody, hret, -⟩ := Program.holds_code.1 (laid r)
  let called := (m.pushCall (m.pc + 1)).moveOn (address r)
  refine leads_call hcall ((h called hbody hp inside).bind fun m₁ h₁ => ?_)
  cases v with
  | refused =>
    -- The return address is left on the call stack: whoever backtracks cuts it off.
    have h₁ : s.Refused called m₁ := h₁
    exact .here (h₁.trans rfl ⟨.refl _, (Begins.refl _).push _, .refl _, .refl _⟩ (.refl _))
  | matched stop ts =>
    have h₁ : called.Matched (address r + (g r).size) stop ts m₁ := h₁
    have hstep := step_of_code (s := s) (m := m₁) (by rw [h₁.pc]; exact hret)
    obtain ⟨ids, hwork, hids⟩ := h₁.built
    have top : m₁.work.calls.back? = some (m.pc + 1) := by
      rw [h₁.calls]
      exact Array.back?_push
    rw [perform, top] at hstep
    refine .step hstep (.here ⟨rfl, h₁.pos, ⟨ids, ?_, hids⟩, h₁.pool⟩)
    simp only [Machine.popCall, hwork, called, Machine.moveOn, Machine.noteCursor, Machine.pushCall, Array.pop_push]

/-- Closing the node of a capture puts its tree in the pool. -/
theorem matched_foldFrom {label : String} {ids : List NodeId} (hp : m.pos = p) (inside : m.work.log.Inside)
    (hwork : m₁.work = { m.work with log := m.work.log.captured m.pos ids label })
    (hids : List.Forall₂ m₁.pool.Stores ids ts) (hpool : m.pool.Extends m₁.pool) (hpos : m₁.pos = q) :
    m.Matched pc q [⟨p, q, some label, none, ts⟩] ((m₁.foldFrom m.work.log.entries.size m.pos).moveOn pc) := by
  have hentries : m₁.work.log.entriesFrom (m.work.log.entries.size + 1) = ids.map .node ++ [.tag label] := by
    rw [hwork]
    exact NodeLog.entriesFrom_captured ..
  have hlog : m₁.work.log.truncate m.work.log.entries.size = m.work.log := by
    rw [hwork]
    exact NodeLog.truncate_of_begins (NodeLog.begins_captured ..) inside
  refine ⟨rfl, hpos, ⟨[m₁.pool.size], ?_, .cons ?_ .nil⟩, hpool.trans (Pool.extends_push ..)⟩
  · simp only [Machine.moveOn, Machine.noteCursor, Machine.foldFrom, hlog, NodeLog.push_node]
    rw [hwork]
  · simp only [Machine.moveOn, Machine.noteCursor, Machine.foldFrom, hentries, LogEntry.nodes_captured,
      LogEntry.lastTag_captured, LogEntry.lastValue_captured, ← hp, ← hpos]
    exact Pool.stores_push hids m.pos m₁.pos (some label) none

theorem runs_capture {label : String} (ha : s.Runs address a p (.matched q ts)) :
    s.Runs address (.capture label a) p (.matched q [⟨p, q, some label, none, ts⟩]) := by
  intro m ⟨hopen, code⟩ hp inside
  obtain ⟨hcodea, htag, hclose, -⟩ := Program.holds_code.1 code
  let opened := m.openNode.moveOn (m.pc + 1)
  refine leads_nodeOpen hopen ((ha opened hcodea hp (inside.openNode m.pos)).bind fun m₁ h₁ => ?_)
  have h₁ : opened.Matched (m.pc + 1 + a.size) q ts m₁ := h₁
  obtain ⟨ids, hwork, hids⟩ := h₁.built
  -- The tag comes last, so it is the one that the node gets.
  let tagged := (m₁.pushEntry (.tag label)).moveOn (m₁.pc + 1)
  have hlog : tagged.work = { m.work with log := m.work.log.captured m.pos ids label } := by
    simp only [tagged, Machine.moveOn, Machine.noteCursor, Machine.pushEntry, hwork]
    rfl
  have innermost : tagged.work.log.innermost? = some (m.work.log.entries.size, m.pos) := by
    rw [hlog]
    exact NodeLog.innermost?_captured ..
  have hsize : m.pc + (Expr.capture label a).size = tagged.pc + 1 := by
    rw [Machine.moveOn_pc, h₁.pc, Expr.size]
    omega
  have htagged : s.step m₁ = .running tagged := step_of_code (by rw [h₁.pc]; exact htag)
  have hclosing : s.program.at? tagged.pc = some .nodeClose := by
    rw [Machine.moveOn_pc, h₁.pc]
    exact hclose
  refine .step htagged (leads_nodeClose hclosing innermost (.here ?_))
  rw [hsize]
  exact matched_foldFrom hp inside hlog hids h₁.pool h₁.pos

theorem runs_captureRefused {label : String} (ha : s.Runs address a p .refused) :
    s.Runs address (.capture label a) p .refused := by
  intro m ⟨hopen, code⟩ hp inside
  let opened := m.openNode.moveOn (m.pc + 1)
  refine leads_nodeOpen hopen ((ha opened (Program.holds_code.1 code).1 hp (inside.openNode m.pos)).mono ?_)
  intro m₁ h₁
  have h₁ : s.Refused opened m₁ := h₁
  exact h₁.trans rfl ⟨(NodeLog.Begins.refl _).openNode m.pos, .refl _, .refl _, .refl _⟩ (.refl _)

/-- A derived verdict is what the machine does with the code of the expression. -/
theorem runs_of_derives (laid : g.LaidOut address s.program) (h : Derives g s.input e p v) :
    s.Runs address e p v := by
  induction h with
  | consumes h => exact runs_consumes h
  | refuses h => exact runs_refuses h
  | empty => exact runs_empty
  | seq _ _ iha ihb => exact runs_seq iha ihb
  | seqFirst _ iha => exact runs_seqFirst iha
  | seqSecond _ _ iha ihb => exact runs_seqSecond iha ihb
  | first _ iha => exact runs_first iha
  | second _ _ iha ihb => exact runs_second iha ihb
  | done _ iha => exact runs_done iha
  | more _ _ iha ihs => exact runs_more iha ihs
  | and _ iha => exact runs_and iha
  | andRefused _ iha => exact runs_andRefused iha
  | not _ iha => exact runs_not iha
  | notRefused _ iha => exact runs_notRefused iha
  | capture _ iha => exact runs_capture iha
  | captureRefused _ iha => exact runs_captureRefused iha
  | rule _ ih => exact runs_rule laid ih

end Setting

end PegMachine
