import PegMachine.Proofs.Grammar.Adequacy
import PegMachine.Proofs.Run.Contexts
/-!
  Runs of a grammar.

  A run of a context whose program holds the code of a grammar, started at a rule, ends exactly if the
  semantics has a verdict on the rule from the cursor, unless it exhausts a capacity; and it ends with what
  the verdict says. What is proved:
    1. `leads_of_start`: where the run of a rule from empty stacks leads;
    2. `finish_of_matched`: the result tree that is made of what was matched;
    3. `run_agrees`: the two together, for all runs of a context.
-/
namespace PegMachine

/-- The tree of a match from `start` to `stop`: the only tree that was built, or one over all of them. -/
def rootOf (start stop : Nat) : List Tree → Tree
  | [only] => only
  | trees => ⟨start, stop, none, none, trees⟩

/-- Whether the run was stopped because a capacity is exhausted. -/
def Outcome.exhausted : Outcome → Bool
  | stopped error => error.exhaustion
  | _ => false

/-- What a verdict says about the end of a run that began at `start`: the outcome and the context it left. -/
def Verdict.Agrees (start : Nat) : Verdict → Outcome × Context → Prop
  | matched stop trees, (outcome, c) =>
    outcome = .matched (rootOf start stop trees) ∧ c.pos = stop ∧ c.root = some (rootOf start stop trees)
  | refused, (outcome, _) => ∃ failure, outcome = .failed failure

variable {ρ : Type} {g : Grammar ρ} {address : ρ → Nat} {r : ρ} {p : Nat} {v : Verdict}

/-! ## From empty stacks -/

namespace Setting

variable {s : Setting}

/-- What a verdict says about the end of a run from the machine `m`. -/
def Concludes (m : Machine) : Verdict → Bool → Machine → Prop
  | .matched stop trees, matched, last => matched = true ∧ m.Matched last.pc stop trees last
  | .refused, matched, _ => matched = false

/-- A rule that is run from empty stacks returns to nowhere, which accepts; and if it is refused there is
    no frame to resume at. -/
theorem leads_of_start (laid : g.LaidOut address s.program) (h : Derives g s.input (g r) p v) (pool : Pool) :
    s.Leads (fun m => ∃ matched last, s.step m = .halted matched last ∧
      Concludes (.start (address r) p pool) v matched last) (.start (address r) p pool) := by
  obtain ⟨hbody, hret, -⟩ := Program.holds_code.1 (laid r)
  have run := runs_of_derives laid h (.start (address r) p pool) hbody rfl nofun
  refine run.mono fun m₁ h₁ => ?_
  cases v with
  | matched stop ts =>
    have h₁ : Machine.Matched _ _ stop ts m₁ := h₁
    have hstep := step_of_code (s := s) (m := m₁) (by rw [h₁.pc]; exact hret)
    -- No rule was called, so the `ret` finds no address and accepts.
    have hcalls : m₁.work.calls.back? = none := by
      rw [h₁.calls]
      rfl
    rw [perform, hcalls] at hstep
    exact ⟨true, _, hstep, rfl, h₁.moveOn m₁.pc⟩
  | refused =>
    obtain ⟨left, hstep, hframes, -, -⟩ := h₁
    have hempty : left.work.backtrack.back? = none := by
      rw [hframes]
      rfl
    rw [Machine.backtrack, hempty] at hstep
    exact ⟨false, left, hstep, rfl⟩

end Setting

/-! ## The result tree -/

namespace Machine

variable {m : Machine} (start : Nat)

theorem root?_of_single {id : NodeId} (h : m.work.log.entries.toList = [.node id]) :
    m.root? start = some (id, m.pool) := by
  simp only [root?, h]
  rfl

theorem root?_of_several {ids : List NodeId} (h : m.work.log.entries.toList = ids.map .node)
    (several : ids.length ≠ 1) : m.root? start = m.pool.acquire? start m.pos none none ids := by
  simp only [root?, h, LogEntry.nodes_map_node, LogEntry.lastTag, LogEntry.tags_map_node, LogEntry.lastValue,
    LogEntry.values_map_node]
  cases ids with
  | nil => rfl
  | cons first rest =>
    cases rest with
    | nil => exact absurd rfl several
    | cons => rfl

/-- From what was matched from empty stacks comes the tree over it, unless the pool is full. -/
theorem finish_of_matched {pc pc' stop : Nat} {pool : Pool} {trees : List Tree}
    (h : (Machine.start pc' p pool).Matched pc stop trees m) :
    m.finish start = (m, .error (.poolExhausted m.pool.size)) ∨
      ∃ pool', m.finish start = ({ m with pool := pool' }, .ok (rootOf start stop trees)) := by
  obtain ⟨ids, hwork, hids⟩ := h.built
  have hentries : m.work.log.entries.toList = ids.map .node := by
    rw [hwork, NodeLog.toList_addNodes]
    rfl
  have hfinish : m.finish start = m.extract start := by
    rw [finish, hwork]
    rfl
  rw [hfinish]
  -- A single node is the root itself; over several, or none, a new one is made if the pool has room.
  by_cases hone : ids.length = 1
  · obtain ⟨id, rfl⟩ := List.length_eq_one_iff.1 hone
    obtain ⟨t, ht, rfl⟩ : ∃ t, m.pool.Stores id t ∧ trees = [t] := by
      cases hids with
      | cons ht hnil => cases hnil; exact ⟨_, ht, rfl⟩
    exact .inr ⟨m.pool, extract_of_root? (root?_of_single start hentries) ht⟩
  · have hroot := root?_of_several start hentries hone
    have htree : rootOf start stop trees = ⟨start, m.pos, none, none, trees⟩ := by
      rw [h.pos, rootOf]
      rintro only rfl
      exact hone hids.length_eq
    rw [Pool.acquire?] at hroot
    split at hroot
    · exact .inl (by rw [extract, hroot])
    · rw [htree]
      exact .inr ⟨_, extract_of_root? hroot (Pool.stores_push hids _ _ _ _)⟩

end Machine

/-! ## Runs of a context -/

namespace Context

variable {c : Context} {program : Program}

/-- What the machine concludes is what the run of the context gives, unless the pool is full. -/
theorem agrees_of_concludes {halt : Halt} {pc : Nat} {matched : Bool} (hresult : halt.result = .ok matched)
    (h : Setting.Concludes (.start pc c.startPos c.pool) v matched halt.machine) :
    (c.conclude halt).1.exhausted = true ∨ v.Agrees c.startPos (c.conclude halt) := by
  cases v with
  | refused =>
    obtain rfl : matched = false := h
    rw [conclude, hresult]
    exact .inr ⟨_, rfl⟩
  | matched stop trees =>
    obtain ⟨rfl, h⟩ := h
    rw [conclude, hresult]
    rcases Machine.finish_of_matched c.startPos h with hfull | ⟨pool, hroot⟩
    · rw [hfull]
      exact .inl rfl
    · rw [hroot]
      exact .inr ⟨rfl, h.pos, rfl⟩

/-- A verdict is what the run gives, if it is given enough steps. -/
theorem run_of_derives (laid : g.LaidOut address program) (first : c.startPoint = address r)
    (loaded : c.startPoint ≠ 0) (h : Derives g c.input (g r) c.startPos v) :
    ∃ result n, (∀ fuel ≥ n, c.run program fuel = some result) ∧
      (result.1.exhausted = true ∨ v.Agrees c.startPos result) := by
  have leads := Setting.leads_of_start (s := c.setting program) laid h c.pool
  rw [← first] at leads
  obtain ⟨halt, n, hrun, hend⟩ := leads.execute
  refine ⟨c.conclude halt, n, fun fuel hfuel => (run_eq_some loaded).2 ⟨halt, hrun fuel hfuel, rfl⟩, ?_⟩
  rcases hend with ⟨error, hresult, full⟩ | ⟨matched, hresult, hconcludes⟩
  · rw [conclude, hresult]
    exact .inl full
  · exact agrees_of_concludes hresult hconcludes

/-- A run that ends without exhausting a capacity has decided its rule. -/
theorem derives_of_run (laid : g.LaidOut address program) (first : c.startPoint = address r)
    (loaded : c.startPoint ≠ 0) {fuel : Nat} {result : Outcome × Context}
    (hrun : c.run program fuel = some result) (room : result.1.exhausted = false) :
    ∃ v, Derives g c.input (g r) c.startPos v := by
  obtain ⟨halt, hexec, rfl⟩ := (run_eq_some loaded).1 hrun
  have hends : (c.setting program).Ends fuel c.machine := by
    refine ⟨fuel, Nat.le_refl _, halt, hexec, fun error hresult => ?_⟩
    rw [conclude, hresult] at room
    exact room
  have hbody : program.Holds c.startPoint ((g r).code address c.startPoint) :=
    first ▸ (Program.holds_code.1 (laid r)).1
  exact Setting.derives_of_ends laid c.machine hbody NodeLog.Exact.empty.inside hends

/-- **The machine implements the grammar.** Let the program hold the code of every rule, and let a context
    start at a rule. If the semantics has a verdict on the rule from the cursor, every run that is given
    enough steps ends in the same way: it exhausts a capacity, or it agrees with the verdict. And a run
    that ends in any number of steps has exhausted a capacity or agrees with the only verdict of the semantics. -/
theorem run_agrees (laid : g.LaidOut address program) (first : c.startPoint = address r)
    (loaded : c.startPoint ≠ 0) :
    (∀ v, Derives g c.input (g r) c.startPos v →
      ∃ result n, (∀ fuel ≥ n, c.run program fuel = some result) ∧
        (result.1.exhausted = true ∨ v.Agrees c.startPos result)) ∧
    (∀ fuel result, c.run program fuel = some result → result.1.exhausted = true ∨
      ∃ v, Derives g c.input (g r) c.startPos v ∧ (∀ w, Derives g c.input (g r) c.startPos w → w = v) ∧
        v.Agrees c.startPos result) := by
  refine ⟨fun v => run_of_derives laid first loaded, fun fuel result hrun => ?_⟩
  cases room : result.1.exhausted with
  | true => exact .inl rfl
  | false =>
    -- The run has decided the rule; by the verdict every long enough run ends like this one.
    obtain ⟨v, hv⟩ := derives_of_run laid first loaded hrun room
    obtain ⟨result', n, hrun', hagrees⟩ := run_of_derives laid first loaded hv
    obtain rfl := run_unique loaded hrun (hrun' n (Nat.le_refl n))
    rw [room] at hagrees
    exact .inr ⟨v, hv, fun w hw => hw.unique hv, hagrees.resolve_left nofun⟩

/-- Nested parentheses: each pair is a node over the pairs inside it. -/
def nested : Grammar Unit := fun _ =>
  .capture "pair" (.seq (.matcher (.string [40])) (.seq (.star (.rule ())) (.matcher (.string [41]))))

def nestedProgram : Program := .ofList (.exit :: ((nested ()).code (fun _ => 1) 1 ++ [.ret]))

def nestedContext : Context := { new {} with input := #[40, 40, 41, 41], startPoint := 1 }

theorem run_agrees_nested :
    ∃ result n, (∀ fuel ≥ n, nestedContext.run nestedProgram fuel = some result) ∧
      result.1 = .matched ⟨0, 4, some "pair", none, [⟨1, 3, some "pair", none, []⟩]⟩ ∧ result.2.pos = 4 ∧
      ∀ v, Derives nested nestedContext.input (nested ()) 0 v → v.Agrees 0 result := by
  have byte {p : Nat} {mt : Matcher} (h : mt.length? (nestedContext.input.toList.drop p) = some 1) :
      Derives nested nestedContext.input (.matcher mt) p (.matched (p + 1) []) := .consumes h
  have noPair {p : Nat} (h : (Matcher.string [40]).length? (nestedContext.input.toList.drop p) = none) :
      Derives nested nestedContext.input (.rule ()) p .refused :=
    .rule (.captureRefused (.seqFirst (.refuses h)))
  have inner : Derives nested nestedContext.input (.rule ()) 1
      (.matched 3 [⟨1, 3, some "pair", none, []⟩]) :=
    .rule (.capture (.seq (byte rfl) (.seq (.done (noPair rfl)) (byte rfl))))
  have outer : Derives nested nestedContext.input (nested ()) 0
      (.matched 4 [⟨0, 4, some "pair", none, [⟨1, 3, some "pair", none, []⟩]⟩]) :=
    .capture (.seq (byte rfl) (.seq (.more inner (.done (noPair rfl))) (byte rfl)))
  have laid : nested.LaidOut (fun _ => 1) nestedProgram := by
    intro r
    cases r
    decide
  have room : (nestedContext.run nestedProgram 30).map (·.1.exhausted) = some false := by decide +kernel
  obtain ⟨result, ran, room⟩ := Option.map_eq_some_iff.1 room
  obtain ⟨toRun, toVerdict⟩ := run_agrees (c := nestedContext) laid rfl (by decide)
  obtain ⟨result', n, hrun, hagrees⟩ := toRun _ outer
  obtain rfl := run_unique (by decide) ran (hrun n (Nat.le_refl n))
  rw [room] at hagrees
  obtain ⟨houtcome, hpos, -⟩ := hagrees.resolve_left Bool.false_ne_true
  rcases toVerdict 30 result ran with exhausted | ⟨v, -, only, agrees⟩
  · rw [room] at exhausted
    cases exhausted
  · exact ⟨result, n, hrun, houtcome, hpos, fun w hw => only w hw ▸ agrees⟩

end Context

end PegMachine
