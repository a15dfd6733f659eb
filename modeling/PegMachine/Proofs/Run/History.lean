import PegMachine.Proofs.Run.Erasure
import PegMachine.Proofs.Trees.Result
/-!
  Runs do not depend on what was done before.

  All runs of a context share a pool that is not reset between them, so the ids in the log depend on earlier
  runs. The outcome does not. Two machines are `Alike` if they have the same erasure and build the same trees,
  and have made as many nodes since the run began. What is proved:
    1. `steps_alike`: machines that are alike make steps that are alike, if no pool is full;
    2. `execute_alike`: so their runs end alike, unless the pool of one is full;
    3. `execute_same`, `run_same`: if the pools had the same size the runs end alike even then;
    4. `run_forgets`: runs of contexts that agree on input, cursor, start point and capacities end alike,
       whatever else the contexts hold.
-/
namespace PegMachine

/-! ## Machines -/

/-- The machines differ in nothing but ids and pools: they build the same trees, and have made as many nodes
    since their pools had `p` and `q`. -/
structure Machine.Alike (p q : Nat) (m m' : Machine) : Prop where
  erase : m.erase = m'.erase
  built : ∃ b, m.Tracks b ∧ m'.Tracks b
  grown : ∃ n, m.pool.size = p + n ∧ m'.pool.size = q + n

namespace Machine.Alike

variable {p q : Nat} {m m' : Machine} {i : Instruction}

theorem pc_eq (h : m.Alike p q m') : m.pc = m'.pc := by
  rw [← m.erase_pc, h.erase, m'.erase_pc]

theorem pos_eq (h : m.Alike p q m') : m.pos = m'.pos := by
  rw [← m.erase_pos, h.erase, m'.erase_pos]

theorem folds (h : m.Alike p q m') (hm : m.Folds i) : m'.Folds i := by
  refine ⟨hm.1, ?_⟩
  rw [← NodeLog.innermost?_erase]
  have hlog : m.work.log.erase = m'.work.log.erase := congrArg (fun x : Machine => x.work.log) h.erase
  rw [← hlog, NodeLog.innermost?_erase]
  exact hm.2

theorem symm (h : m.Alike p q m') : m'.Alike q p m :=
  ⟨h.erase.symm, h.built.imp fun _ => And.symm, h.grown.imp fun _ => And.symm⟩

/-- The result trees of machines that are alike are the same, and take as many nodes, unless there is no room for
    these in one of the pools. -/
theorem finish (h : m.Alike p q m') (start : Nat) :
    (∃ x nodes, m.finish start = (x, .error (.poolExhausted nodes))) ∨
    (∃ x nodes, m'.finish start = (x, .error (.poolExhausted nodes)) ∧ p < q) ∨
    ∃ x x' tree n, m.finish start = (x, .ok tree) ∧ m'.finish start = (x', .ok tree) ∧ x'.pos = x.pos ∧
      x.pool.size = p + n ∧ x'.pool.size = q + n := by
  obtain ⟨b, hm, hm'⟩ := h.built
  obtain ⟨n, hsize, hsize'⟩ := h.grown
  have hfinish' := finish_of_tracks hm' start
  rw [← h.pos_eq] at hfinish'
  rcases finish_of_tracks hm start with ⟨x, hx, -, -⟩ | ⟨x, hx, hpos, hgrown, hroom⟩
  · exact .inl ⟨x, _, hx⟩
  rcases hfinish' with ⟨x', hx', hfull, hle, hlt⟩ | ⟨x', hx', hpos', hgrown', -⟩
  · exact .inr (.inl ⟨x', _, hx', by omega⟩)
  · exact .inr (.inr ⟨x, x', _, n + b.log.needed m.pos, hx, hx', by rw [hpos, hpos'], by omega, by omega⟩)

/-- The result trees of machines that are alike, and whose pools have the same size, are made or found no room for
    in the same way. -/
theorem finish_same (h : m.Alike p p m') (start : Nat) : (m.finish start).2 = (m'.finish start).2 := by
  obtain ⟨b, hm, hm'⟩ := h.built
  obtain ⟨n, hsize, hsize'⟩ := h.grown
  have hfinish' := finish_of_tracks hm' start
  rw [← h.pos_eq] at hfinish'
  rcases finish_of_tracks hm start with ⟨x, hx, hfull, hle, hlt, hmax⟩ | ⟨x, hx, -, hgrown, hroom⟩
  · rcases hfinish' with ⟨x', hx', hfull', hle', hlt', hmax'⟩ | ⟨x', -, -, hgrown', hroom'⟩
    · have same : x.pool.size = x'.pool.size := by omega
      rw [hx, hx', same]
    · omega
  · rcases hfinish' with ⟨x', -, hfull', hle', hlt', -⟩ | ⟨x', hx', -, -, -⟩
    · omega
    · rw [hx, hx']

theorem of_start (pc pos : Nat) (pool pool' : Pool) :
    (Machine.start pc pos pool).Alike pool.size pool'.size (.start pc pos pool') :=
  ⟨rfl, ⟨.empty, .of_start .., .of_start ..⟩, 0, rfl, rfl⟩

end Machine.Alike

/-! ## Ends of runs -/

/-- The run was stopped because the pool is full. -/
def Halt.PoolFull (halt : Halt) : Prop := ∃ nodes, halt.result = .error (.poolExhausted nodes)

/-- The runs from machines that are alike ended with the same result. The machines differ in nothing but ids and
    pools, and build the same trees if the runs accepted. -/
structure Halt.Alike (p q : Nat) (halt halt' : Halt) : Prop where
  result : halt'.result = halt.result
  erase : halt.machine.erase = halt'.machine.erase
  built : halt.result = .ok true → ∃ b, halt.machine.Tracks b ∧ halt'.machine.Tracks b
  grown : ∃ n, halt.machine.pool.size = p + n ∧ halt'.machine.pool.size = q + n

theorem Halt.Alike.pos_eq {p q : Nat} {halt halt' : Halt} (h : halt.Alike p q halt') :
    halt.machine.pos = halt'.machine.pos := by
  rw [← Machine.erase_pos, h.erase, Machine.erase_pos]

theorem Halt.Alike.furthest_eq {p q : Nat} {halt halt' : Halt} (h : halt.Alike p q halt') :
    halt.machine.furthest = halt'.machine.furthest := by
  rw [← Machine.erase_furthest, h.erase, Machine.erase_furthest]

/-- The same error ends the runs of machines that are alike in the same way. -/
theorem Machine.Alike.stopped {p q : Nat} {m m' : Machine} (h : m.Alike p q m') (error : RunError) :
    Halt.Alike p q ⟨m, .error error⟩ ⟨m', .error error⟩ where
  result := rfl
  erase := h.erase
  built accepted := by cases accepted
  grown := h.grown

/-- The steps of two machines go on to machines that are alike, or end the runs alike. -/
inductive Transition.Alike (p q : Nat) : Transition → Transition → Prop where
  | running {x x' : Machine} (h : x.Alike p q x') : Alike p q (.running x) (.running x')
  | halted {matched : Bool} {x x' : Machine} (h : Halt.Alike p q ⟨x, .ok matched⟩ ⟨x', .ok matched⟩) :
    Alike p q (.halted matched x) (.halted matched x')
  | stopped {error : RunError} {x x' : Machine} (h : Halt.Alike p q ⟨x, .error error⟩ ⟨x', .error error⟩) :
    Alike p q (.stopped error x) (.stopped error x')

namespace Setting

variable {s : Setting} {m m' x x' : Machine} {i : Instruction} {p q : Nat}

/-! ## Steps -/

/-- Nothing but `nodeClose` makes a node, and it makes one. -/
theorem poolSize_of_move (h : s.Move m i x) : x.pool.size = m.pool.size + if i = .nodeClose then 1 else 0 := by
  cases h with
  | closed => exact Array.size_push ..
  | consumed i count looks =>
    rw [if_neg (by rintro rfl; cases looks)]
    rfl
  | failed i f fails =>
    rw [if_neg (by rintro rfl; cases fails)]
    rfl
  | _ => rfl

/-- Whether the next instruction makes a node and the pool has no room for it. -/
def Blocked (s : Setting) (m : Machine) : Prop :=
  ∃ i, s.program.at? m.pc = some i ∧ m.Folds i ∧ m.pool.isFull = true

theorem step_of_blocked (h : s.Blocked m) : s.step m = .stopped (.poolExhausted m.pool.size) m := by
  obtain ⟨i, code, folds, full⟩ := h
  rw [step_of_code code, perform_full folds full]
  rfl

theorem Blocked.room (h : ¬ s.Blocked m) (code : s.program.at? m.pc = some i) (folds : m.Folds i) :
    m.pool.isFull = false := by
  cases hfull : m.pool.isFull with
  | false => rfl
  | true => exact absurd ⟨i, code, folds, hfull⟩ h

/-- If one of the machines is blocked and the other is not, its pool was larger. -/
theorem Blocked.lt (h : m.Alike p q m') (free : ¬ s.Blocked m) (blocked : s.Blocked m') : p < q := by
  obtain ⟨i, code, folds, full⟩ := blocked
  have hfull : Pool.capacity ≤ m'.pool.size := of_decide_eq_true full
  have hroom : ¬ Pool.capacity ≤ m.pool.size :=
    of_decide_eq_false (Blocked.room free (h.pc_eq ▸ code) (h.symm.folds folds))
  obtain ⟨n, hsize, hsize'⟩ := h.grown
  omega

theorem step_alike (h : m.Alike p q m') (free : ¬ s.Blocked m) (free' : ¬ s.Blocked m') :
    (s.step m).map .erase = (s.step m').map .erase := by
  rw [step_erase fun _ => Blocked.room free, step_erase fun _ => Blocked.room free', h.erase]

/-- The builders beside machines that are alike do the same. -/
theorem build_alike (h : m.Alike p q m') (free : ¬ s.Blocked m) (free' : ¬ s.Blocked m') (b : TreeBuilder) :
    s.build m b = s.build m' b := by
  cases code : s.program.at? m.pc with
  | none => simp only [build, code, ← h.pc_eq]
  | some i =>
    have code' : s.program.at? m'.pc = some i := h.pc_eq ▸ code
    have hfails : (s.perform i m).fails = (s.perform i m').fails := by
      rw [← Effect.fails_map .erase, perform_erase (Blocked.room free code), h.erase,
        ← perform_erase (Blocked.room free' code'), Effect.fails_map]
    simp only [build, code, code', dispatch_eq, hfails, h.pos_eq]

/-- Steps lead from machines that are alike to machines that are alike. -/
theorem alike_of_running (h : m.Alike p q m') (free : ¬ s.Blocked m) (free' : ¬ s.Blocked m')
    (hx : s.step m = .running x) (hx' : s.step m' = .running x') : x.Alike p q x' := by
  have herase := step_alike h free free'
  rw [hx, hx'] at herase
  obtain ⟨b, hm, hm'⟩ := h.built
  obtain ⟨n, hsize, hsize'⟩ := h.grown
  obtain ⟨i, code, move⟩ := move_of_step hx
  obtain ⟨i', code', move'⟩ := move_of_step hx'
  obtain rfl : i = i' := Option.some.inj (code.symm.trans (h.pc_eq ▸ code'))
  have hpool := poolSize_of_move move
  have hpool' := poolSize_of_move move'
  refine ⟨Transition.running.inj herase, ⟨s.build m b, tracks_of_move code move hm, ?_⟩,
    n + if i = .nodeClose then 1 else 0, by omega, by omega⟩
  rw [build_alike h free free']
  exact tracks_of_move code' move' hm'

/-! ## Runs -/

theorem pool_of_halted {matched : Bool} (h : s.step m = .halted matched x) : x.pool = m.pool := by
  obtain ⟨i, -, ⟨-, -, rfl⟩ | ⟨m₁, -, done, -, rfl⟩⟩ := step_halted h
  · rfl
  · obtain rfl | ⟨-, rfl, -⟩ := perform_eq_fail done <;> rfl

/-- Steps that end the runs from machines that are alike end them alike. -/
theorem alike_of_halted {matched : Bool} (h : m.Alike p q m') (herase : x.erase = x'.erase)
    (hx : s.step m = .halted matched x) (hx' : s.step m' = .halted matched x') :
    Halt.Alike p q ⟨x, .ok matched⟩ ⟨x', .ok matched⟩ := by
  refine ⟨rfl, herase, fun accepted => ?_, ?_⟩
  · obtain rfl : matched = true := Except.ok.inj accepted
    obtain ⟨b, hm, hm'⟩ := h.built
    exact ⟨b, tracks_of_accepted hx hm, tracks_of_accepted hx' hm'⟩
  · simp only [pool_of_halted hx, pool_of_halted hx']
    exact h.grown

/-- Machines that are alike, and neither of which finds its pool full, make steps that are alike. -/
theorem steps_alike (h : m.Alike p q m') (free : ¬ s.Blocked m) (free' : ¬ s.Blocked m') :
    Transition.Alike p q (s.step m) (s.step m') := by
  have same := step_alike h free free'
  cases hx : s.step m with
  | running x =>
    cases hx' : s.step m' with
    | running x' => exact .running (alike_of_running h free free' hx hx')
    | halted | stopped =>
      rw [hx, hx'] at same
      cases same
  | halted matched x =>
    cases hx' : s.step m' with
    | halted matched' x' =>
      rw [hx, hx'] at same
      obtain ⟨rfl, herase⟩ := Transition.halted.inj same
      exact .halted (alike_of_halted h herase hx hx')
    | running | stopped =>
      rw [hx, hx'] at same
      cases same
  | stopped error x =>
    cases hx' : s.step m' with
    | stopped error' x' =>
      rw [hx, hx'] at same
      obtain ⟨rfl, -⟩ := Transition.stopped.inj same
      obtain ⟨rfl, -⟩ := step_stopped hx
      obtain ⟨rfl, -⟩ := step_stopped hx'
      exact .stopped (h.stopped error)
    | running | halted =>
      rw [hx, hx'] at same
      cases same

/-- Runs from machines that are alike end alike, unless one of them finds the pool full. If only the other one
    does its pool was larger. -/
theorem execute_alike {fuel : Nat} {halt : Halt} (h : m.Alike p q m') (hexec : s.execute fuel m = some halt) :
    halt.PoolFull ∨ ∃ halt', s.execute fuel m' = some halt' ∧ (halt'.PoolFull ∧ p < q ∨ halt.Alike p q halt') := by
  induction fuel generalizing m m' with
  | zero => cases hexec
  | succ fuel ih =>
    by_cases free : s.Blocked m
    · rw [execute, step_of_blocked free] at hexec
      cases hexec
      exact .inl ⟨_, rfl⟩
    by_cases free' : s.Blocked m'
    · right
      rw [execute, step_of_blocked free']
      exact ⟨_, rfl, .inl ⟨⟨_, rfl⟩, Blocked.lt h free free'⟩⟩
    have steps := steps_alike h free free'
    rw [execute] at hexec ⊢
    generalize s.step m = taken at steps hexec
    generalize s.step m' = taken' at steps
    cases steps with
    | running halike => exact ih halike hexec
    | halted hend | stopped hend =>
      cases hexec
      exact .inr ⟨_, rfl, .inr hend⟩

/-- From machines that are alike, and whose pools have the same size, the runs end alike after as many steps. -/
theorem execute_same (fuel : Nat) (h : m.Alike p p m') :
    Option.Rel (Halt.Alike p p) (s.execute fuel m) (s.execute fuel m') := by
  induction fuel generalizing m m' with
  | zero => exact .none
  | succ fuel ih =>
    rw [execute, execute]
    by_cases free : s.Blocked m
    · by_cases free' : s.Blocked m'
      · obtain ⟨n, hsize, hsize'⟩ := h.grown
        rw [step_of_blocked free, step_of_blocked free', hsize, hsize']
        exact .some (h.stopped _)
      · exact absurd (Blocked.lt h.symm free' free) (Nat.lt_irrefl p)
    by_cases free' : s.Blocked m'
    · exact absurd (Blocked.lt h free free') (Nat.lt_irrefl p)
    have steps := steps_alike h free free'
    generalize s.step m = taken at steps
    generalize s.step m' = taken' at steps
    cases steps with
    | running halike => exact ih halike
    | halted hend | stopped hend => exact .some hend

end Setting

/-! ## Contexts -/

/-- The run was stopped because the pool is full. -/
def Outcome.PoolFull (outcome : Outcome) : Prop := ∃ nodes, outcome = .stopped (.poolExhausted nodes)

namespace Context

variable {c d c' : Context} {program : Program} {fuel : Nat} {outcome : Outcome}

/-- The contexts agree on what a run is about: the input, where it starts in the input and in the program, and
    the capacities. -/
structure Alike (c d : Context) : Prop where
  input : c.input = d.input
  startPos : c.startPos = d.startPos
  startPoint : c.startPoint = d.startPoint
  config : c.config = d.config

/-- The runs of two contexts whose pools had `p` and `q` nodes have the same outcome, leave the same cursor and
    the same tree, and have made as many nodes. -/
structure EndAlike (p q : Nat) (result result' : Outcome × Context) : Prop where
  outcome : result'.1 = result.1
  pos : result'.2.pos = result.2.pos
  root : result'.2.root = result.2.root
  grown : ∃ n, result.2.pool.size = p + n ∧ result'.2.pool.size = q + n

theorem Alike.machine (h : c.Alike d) : c.machine.Alike c.pool.size d.pool.size d.machine := by
  rw [Context.machine, Context.machine, h.startPoint, h.startPos]
  exact .of_start ..

theorem Alike.setting (h : c.Alike d) (program : Program) : c.setting program = d.setting program := by
  rw [Context.setting, Context.setting, h.input, h.config]

/-- Runs that ended alike are concluded alike, unless there is no room for the result tree in one of the pools. -/
theorem conclude_alike {p q : Nat} {halt halt' : Halt} (hstart : c.startPos = d.startPos)
    (h : halt.Alike p q halt') : (c.conclude halt).1.PoolFull ∨
      (d.conclude halt').1.PoolFull ∧ p < q ∨ EndAlike p q (c.conclude halt) (d.conclude halt') := by
  have hpos : halt'.machine.pos = halt.machine.pos := h.pos_eq.symm
  have hfurthest : halt'.machine.furthest = halt.machine.furthest := h.furthest_eq.symm
  cases hresult : halt.result with
  | error error =>
    refine .inr (.inr ?_)
    simp only [conclude, h.result, hresult]
    exact ⟨rfl, hpos, rfl, h.grown⟩
  | ok matched =>
    cases matched with
    | false =>
      refine .inr (.inr ?_)
      simp only [conclude, h.result, hresult, hpos, hfurthest]
      exact ⟨rfl, hpos, rfl, h.grown⟩
    | true =>
      have alike : halt.machine.Alike p q halt'.machine := ⟨h.erase, h.built hresult, h.grown⟩
      simp only [conclude, h.result, hresult, ← hstart]
      rcases alike.finish c.startPos with
        ⟨x, nodes, hx⟩ | ⟨x', nodes, hx', hlt⟩ | ⟨x, x', tree, n, hx, hx', hxpos, hsize, hsize'⟩
      · rw [hx]
        exact .inl ⟨nodes, rfl⟩
      · rw [hx']
        exact .inr (.inl ⟨⟨nodes, rfl⟩, hlt⟩)
      · rw [hx, hx']
        exact .inr (.inr ⟨rfl, hxpos, rfl, n, hsize, hsize'⟩)

/-- Runs that ended alike, of contexts whose pools had the same size, are concluded with the same outcome. -/
theorem conclude_same {p : Nat} {halt halt' : Halt} (hstart : c.startPos = d.startPos) (h : halt.Alike p p halt') :
    (c.conclude halt).1 = (d.conclude halt').1 := by
  cases hresult : halt.result with
  | error error => simp only [conclude, h.result, hresult]
  | ok matched =>
    cases matched with
    | false => simp only [conclude, h.result, hresult, h.pos_eq, h.furthest_eq]
    | true =>
      have alike : halt.machine.Alike p p halt'.machine := ⟨h.erase, h.built hresult, h.grown⟩
      have same := alike.finish_same c.startPos
      simp only [conclude, h.result, hresult, ← hstart]
      generalize halt.machine.finish c.startPos = finished at same
      generalize halt'.machine.finish c.startPos = finished' at same
      obtain ⟨x, made⟩ := finished
      obtain ⟨x', made'⟩ := finished'
      obtain rfl : made = made' := same
      cases made <;> rfl

/-- Runs of contexts that are alike end alike, unless one of them finds the pool full. If only the other one does
    its pool was larger. -/
theorem run_alike (alike : c.Alike d) (loaded : c.startPoint ≠ 0)
    (hrun : c.run program fuel = some (outcome, c')) (room : ¬ outcome.PoolFull) :
    ∃ result, d.run program fuel = some result ∧
      (result.1.PoolFull ∧ c.pool.size < d.pool.size ∨ EndAlike c.pool.size d.pool.size (outcome, c') result) := by
  obtain ⟨halt, hexec, hconclude⟩ := (run_eq_some loaded).1 hrun
  have notFull : ¬ (c.conclude halt).1.PoolFull := by
    rw [hconclude]
    exact room
  have loaded' : d.startPoint ≠ 0 := alike.startPoint ▸ loaded
  rcases Setting.execute_alike alike.machine hexec with ⟨nodes, hfull⟩ | ⟨halt', hexec', hend⟩
  · exact absurd ⟨nodes, by rw [conclude, hfull]⟩ notFull
  · rw [alike.setting] at hexec'
    refine ⟨d.conclude halt', (run_eq_some loaded').2 ⟨halt', hexec', rfl⟩, ?_⟩
    rw [← hconclude]
    rcases hend with ⟨⟨nodes, hfull⟩, hlt⟩ | hend
    · exact .inl ⟨⟨nodes, by rw [conclude, hfull]⟩, hlt⟩
    · exact (conclude_alike alike.startPos hend).resolve_left notFull

/-- Runs of contexts that are alike, and whose pools have the same size, take as many steps to the same outcome and
    leave the same cursor. -/
theorem run_same (program : Program) (fuel : Nat) (alike : c.Alike d) (loaded : c.startPoint ≠ 0)
    (sizes : c.pool.size = d.pool.size) :
    (c.run program fuel).map (Prod.map id pos) = (d.run program fuel).map (Prod.map id pos) := by
  have machines : c.machine.Alike d.pool.size d.pool.size d.machine := sizes ▸ alike.machine
  have ends := Setting.execute_same (s := c.setting program) fuel machines
  rw [run, if_neg loaded, run, if_neg (alike.startPoint ▸ loaded), ← alike.setting]
  generalize (c.setting program).execute fuel c.machine = ended at ends
  generalize (c.setting program).execute fuel d.machine = ended' at ends
  cases ends with
  | none => rfl
  | @some halt halt' h =>
    have hpos : (c.conclude halt).2.pos = (d.conclude halt').2.pos := by
      rw [conclude_pos, conclude_pos, h.pos_eq]
    exact congrArg some (Prod.ext (conclude_same alike.startPos h) hpos)

/-- Nothing that is done with a context between two loads changes where its runs start, or its capacities. -/
theorem Used.startPoint_config {e : Context} (h : Relation.ReflTransGen Used e c) :
    c.startPoint = e.startPoint ∧ c.config = e.config := by
  induction h with
  | refl => exact ⟨rfl, rfl⟩
  | tail _ use ih =>
    obtain ⟨input, pos, work, root, pool, rfl⟩ := use.eq
    exact ih

/-- **A run does not depend on the context's history.** Let two contexts agree on the input, the cursor, the start
    point and the capacities, and let a run of the one end without exhausting its pool. Then the run of the other
    exhausts its pool, which was larger, or has the same outcome, and leaves the same cursor and the same tree
    after making as many nodes. So the run has the same outcome again after the context was rewound, if it
    began at the beginning of the input; and a context with an empty pool from which this one came by whatever was
    done since gives the same outcome for the same input and cursor. -/
theorem run_forgets (alike : c.Alike d) (loaded : c.startPoint ≠ 0)
    (hrun : c.run program fuel = some (outcome, c')) (room : ¬ outcome.PoolFull) :
    (∃ outcome' d', d.run program fuel = some (outcome', d') ∧
      (outcome'.PoolFull ∧ c.pool.size < d.pool.size ∨
        outcome' = outcome ∧ d'.pos = c'.pos ∧ d'.root = c'.root ∧
          ∃ n, c'.pool.size = c.pool.size + n ∧ d'.pool.size = d.pool.size + n)) ∧
    (c.startPos = 0 → ∃ c'', c'.rewind.run program fuel = some (outcome, c'') ∧ c''.root = c'.root) ∧
    (∀ fresh, Relation.ReflTransGen Used fresh c → fresh.pool = .empty →
      ∃ fresh', ((fresh.setInput c.input).setPos c.pos).run program fuel = some (outcome, fresh') ∧
        fresh'.root = c'.root) := by
  have emptied {e : Context} (same : c.Alike e) (hempty : e.pool = .empty) :
      ∃ e', e.run program fuel = some (outcome, e') ∧ e'.root = c'.root := by
    obtain ⟨⟨outcome', e'⟩, hrun', ⟨-, hlt⟩ | hend⟩ := run_alike same loaded hrun room
    · rw [hempty] at hlt
      cases hlt
    · obtain rfl : outcome' = outcome := hend.outcome
      exact ⟨e', hrun', hend.root⟩
  refine ⟨?_, fun hzero => ?_, fun fresh uses hempty => ?_⟩
  · obtain ⟨⟨outcome', d'⟩, hrun', full | hend⟩ := run_alike alike loaded hrun room
    · exact ⟨outcome', d', hrun', .inl full⟩
    · exact ⟨outcome', d', hrun', .inr ⟨hend.outcome, hend.pos, hend.root, hend.grown⟩⟩
  · obtain ⟨pos, work, root, pool, hc⟩ := context_of_run hrun
    refine emptied ⟨?_, ?_, ?_, ?_⟩ rfl
    · rw [hc]; rfl
    · rw [hzero]
      exact (Nat.zero_min _).symm
    · rw [hc]; rfl
    · rw [hc]; rfl
  · obtain ⟨hpoint, hconfig⟩ := Used.startPoint_config uses
    refine emptied ⟨rfl, ?_, hpoint, hconfig⟩ hempty
    exact (Nat.min_eq_left (Nat.min_le_right ..)).symm

def freshContext : Context := { reopeningContext with pool := .empty }

/-- The context after a run, with the same input set again. The nodes of the run are still in the pool. -/
def usedContext : Context :=
  ((freshContext.run reopening 13).map fun result => result.2.setInput freshContext.input).getD freshContext

theorem run_forgets_used :
    let tree : Tree := ⟨0, 2, none, some "v", [⟨0, 1, some "leaf", none, []⟩]⟩
    usedContext.pool.size = 3 ∧ ∃ c' d' e' f', usedContext.run reopening 13 = some (.matched tree, c') ∧
      freshContext.run reopening 13 = some (.matched tree, d') ∧ d'.root = c'.root ∧
      c'.rewind.run reopening 13 = some (.matched tree, e') ∧
      ((freshContext.setInput usedContext.input).setPos usedContext.pos).run reopening 13 =
        some (.matched tree, f') := by
  intro tree
  have hrun : (usedContext.run reopening 13).map Prod.fst = some (.matched tree) := by decide +kernel
  obtain ⟨⟨outcome, c'⟩, hrun, rfl⟩ := Option.map_eq_some_iff.1 hrun
  have uses : Relation.ReflTransGen Used freshContext usedContext := by
    obtain ⟨first, hfirst⟩ : ∃ first, freshContext.run reopening 13 = some first :=
      Option.isSome_iff_exists.1 (by decide +kernel)
    rw [usedContext, hfirst]
    exact (Relation.ReflTransGen.single (.run hfirst)).tail (.setInput _)
  have alike : usedContext.Alike freshContext := by
    obtain ⟨hpoint, hconfig⟩ := Used.startPoint_config uses
    exact ⟨by decide +kernel, by decide +kernel, hpoint, hconfig⟩
  obtain ⟨⟨outcome', d', hd, ⟨-, hlt⟩ | ⟨rfl, -, hroot, -⟩⟩, rewound, forgets⟩ :=
    run_forgets alike (by decide +kernel) hrun nofun
  · exact absurd hlt (Nat.not_lt_zero _)
  · obtain ⟨e', he, -⟩ := rewound (by decide +kernel)
    obtain ⟨f', hf, -⟩ := forgets freshContext uses rfl
    exact ⟨by decide +kernel, c', d', e', f', hrun, hd, hroot, he, hf⟩

end Context

end PegMachine
