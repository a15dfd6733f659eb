import Mathlib.Algebra.BigOperators.Group.List.Basic
import Mathlib.Algebra.Ring.Nat
import PegMachine.Proofs.Run.Contexts
/-!
  What a profile counts.

  `Setting.opcodes` lists the opcodes of the instructions that a run dispatches, step by step and without any
  watcher; `Profile.Counted` says that a profile that began empty has had runs counted into it, and lists the
  opcodes of each. What is proved:
    1. `Opcode.count_eq_firsts`, `Opcode.count_eq_seconds`: in a list every opcode stands after another one or at
       the beginning, and before another one or at the end;
    2. `Profile.count_foldl_record`, `Profile.pair_foldl_record`: recording opcodes counts them, and the pairs of
       neighbours among them;
    3. `Context.profile_of_runProfiled`: a counted run records what it dispatches and then forgets the last opcode;
    4. `Profile.counted_balanced`: so after any number of runs the counts balance the pairs, no pair joins two runs,
       and being counted changes no run.
-/
namespace PegMachine

/-! ## Neighbours in a list of opcodes -/

namespace Opcode

/-- How often the second opcode stands right after the first. -/
def neighbours (first second : Opcode) (ops : List Opcode) : Nat := (ops.zip ops.tail).count (first, second)

theorem neighbours_cons_cons (first second a b : Opcode) (ops : List Opcode) :
    neighbours first second (a :: b :: ops) =
      neighbours first second (b :: ops) + if a = first ∧ b = second then 1 else 0 := by
  simp [neighbours, List.count_cons]

theorem sum_zero : (all.map fun _ => 0).sum = 0 := rfl

/-- A number that only one opcode has is the sum over all of them. -/
theorem sum_single (op : Opcode) (n : Nat) : (all.map fun o => if op = o then n else 0).sum = n := by
  cases op <;> simp [all]

/-- An opcode stands after another one or at the beginning. -/
theorem count_eq_firsts (op : Opcode) (ops : List Opcode) :
    ops.count op = (all.map fun first => neighbours first op ops).sum + if ops.head? = some op then 1 else 0 := by
  induction ops with
  | nil => simp [neighbours]
  | cons a ops ih =>
    cases ops with
    | nil => simp [neighbours, List.count_cons]
    | cons b ops =>
      have pairs : (all.map fun first => if a = first ∧ b = op then 1 else 0).sum = if b = op then 1 else 0 := by
        simp only [ite_and]
        exact sum_single a _
      simp only [neighbours_cons_cons, List.sum_map_add, pairs]
      rw [List.count_cons, ih]
      simp

/-- An opcode stands before another one or at the end. -/
theorem count_eq_seconds (op : Opcode) (ops : List Opcode) :
    ops.count op =
      (all.map fun second => neighbours op second ops).sum + if ops.getLast? = some op then 1 else 0 := by
  induction ops with
  | nil => simp [neighbours]
  | cons a ops ih =>
    cases ops with
    | nil => simp [neighbours, List.count_cons]
    | cons b ops =>
      have pairs : (all.map fun second => if a = op ∧ b = second then 1 else 0).sum = if a = op then 1 else 0 := by
        simp only [and_comm (a := a = op), ite_and]
        exact sum_single b _
      simp only [neighbours_cons_cons, List.sum_map_add, pairs]
      rw [List.count_cons, ih, List.getLast?_cons_cons]
      simp only [beq_iff_eq]
      omega

/-- What balances in every list balances in all of them together. -/
theorem sum_balance {count : List Opcode → Nat} {pairs : Opcode → List Opcode → Nat} {edge : List Opcode → Bool}
    (balance : ∀ ops, count ops = (all.map fun o => pairs o ops).sum + if edge ops then 1 else 0)
    (runs : List (List Opcode)) :
    (runs.map count).sum = (all.map fun o => (runs.map (pairs o)).sum).sum + runs.countP edge := by
  induction runs with
  | nil =>
    simp only [List.map_nil, List.sum_nil, List.countP_nil]
    rw [sum_zero, Nat.add_zero]
  | cons ops runs ih =>
    simp only [List.map_cons, List.sum_cons, List.sum_map_add, List.countP_cons]
    rw [balance, ih]
    omega

/-- The opcode at a place in the order of bytes has that index. -/
theorem index_getElem (i : Nat) (h : i < all.length) : (all[i]).index.val = i := by
  have key : ∀ i : Fin 30, (all[i.val]).index.val = i := by decide
  exact key ⟨i, h⟩

theorem getElem?_index (op : Opcode) : all[op.index.val]? = some op := by
  cases op <;> rfl

theorem index_inj {a b : Opcode} : a.index.val = b.index.val ↔ a = b := by
  constructor
  · intro h
    apply Option.some.inj
    rw [← getElem?_index a, h, getElem?_index]
  · rintro rfl
    rfl

end Opcode

namespace Profile

open Opcode

variable {p p' : Profile} {op first second : Opcode}

/-! ## Recording opcodes -/

theorem pairIndex_inj {a b : Opcode} :
    (pairIndex first second).val = (pairIndex a b).val ↔ first = a ∧ second = b := by
  rw [← index_inj (a := first), ← index_inj (a := second)]
  simp only [pairIndex]
  omega

theorem count_record (p : Profile) (op o : Opcode) :
    (p.record op).count o = p.count o + if op = o then 1 else 0 := by
  have counted : (p.countOne op).count o = p.count o + if op = o then 1 else 0 := by
    simp only [countOne, count, Fin.getElem_fin, Vector.getElem_set, index_inj]
    split
    · next h => rw [h]
    · rfl
  rw [record]
  split <;> exact counted

theorem pair_record (p : Profile) (op first second : Opcode) :
    (p.record op).pair first second = p.pair first second + if p.last = some first ∧ op = second then 1 else 0 := by
  rw [record]
  split
  · next last hlast =>
    simp only [countPair, countOne, pair, Fin.getElem_fin, Vector.getElem_set, pairIndex_inj, hlast, Option.some.injEq]
    split
    · next h =>
      obtain ⟨rfl, rfl⟩ := h
      rfl
    · rfl
  · next hlast =>
    simp only [countOne, pair, hlast, reduceCtorEq, false_and, if_false, Nat.add_zero]

theorem last_record (p : Profile) (op : Opcode) : (p.record op).last = some op := by
  rw [record]
  split <;> rfl

theorem total_eq (p : Profile) : p.total = (all.map p.count).sum := by
  have hcounts : p.counts.toList = all.map p.count := by
    refine List.ext_getElem (by simp [length_all]) fun i hi hi' => ?_
    rw [List.getElem_map, count]
    simp only [Fin.getElem_fin, index_getElem, Vector.getElem_toList]
  rw [total, ← hcounts, ← Vector.foldl_toList, List.sum_eq_foldl]

theorem count_foldl_record (ops : List Opcode) (p : Profile) (o : Opcode) :
    (ops.foldl record p).count o = p.count o + ops.count o := by
  induction ops generalizing p with
  | nil => rfl
  | cons op ops ih =>
    rw [List.foldl_cons, ih, count_record, List.count_cons]
    simp only [beq_iff_eq]
    omega

/-- The pairs that are recorded are the neighbours among the opcodes, with the latest opcode in front of them. -/
theorem pair_foldl_record (ops : List Opcode) (p : Profile) (first second : Opcode) :
    (ops.foldl record p).pair first second =
      p.pair first second + neighbours first second (p.last.toList ++ ops) := by
  induction ops generalizing p with
  | nil => cases h : p.last <;> simp [neighbours]
  | cons op ops ih =>
    rw [List.foldl_cons, ih, pair_record, last_record]
    cases h : p.last with
    | none => simp
    | some last =>
      simp only [Option.toList_some, List.singleton_append, neighbours_cons_cons, Option.some.injEq]
      omega

end Profile

/-! ## What a run records -/

/-- The opcodes of the instructions that a run dispatches, in order, with the one at which it ends. -/
def Setting.opcodes (s : Setting) : (fuel : Nat) → Machine → List Opcode
  | 0, _ => []
  | fuel + 1, m =>
    match s.program.at? m.pc with
    | none => []
    | some i =>
      i.opcode :: match s.step m with
        | .running m' => s.opcodes fuel m'
        | _ => []

/-- The opcodes of what a run of the program over the context dispatches. -/
def Context.opcodes (c : Context) (program : Program) (fuel : Nat) : List Opcode :=
  if c.startPoint = 0 then [] else (c.setting program).opcodes fuel c.machine

/-- Only instructions are recorded; a backtrack is not. -/
theorem Setting.profile_of_executeWatched {s : Setting} {fuel : Nat} {p p' : Profile} {m : Machine} {halt : Halt}
    (h : s.executeWatched Profile.watch fuel p m = some (p', halt)) :
    p' = (s.opcodes fuel m).foldl Profile.record p := by
  induction fuel generalizing p m with
  | zero => cases h
  | succ fuel ih =>
    rw [executeWatched] at h
    rw [opcodes, step]
    cases code : s.program.at? m.pc with
    | none =>
      rw [code] at h
      cases h
      rfl
    | some i =>
      simp only [code] at h
      simp only
      cases he : s.dispatch i m with
      | next m' | goto target m' =>
        rw [he] at h
        exact ih h
      | accept m' | stop error m' =>
        rw [he] at h
        cases h
        rfl
      | fail m' =>
        have hwork : m'.noteCursor.work = m'.work := rfl
        rw [he] at h
        simp only [Effect.backtrack?, Effect.settle, Machine.backtrack, hwork] at h ⊢
        cases top : m'.work.backtrack.back? with
        | some f =>
          simp only [top] at h
          exact ih h
        | none =>
          simp only [top] at h
          cases h
          rfl

/-- A counted run records what it dispatches and then forgets the last opcode. -/
theorem Context.profile_of_runProfiled {c : Context} {program : Program} {fuel : Nat} {p p' : Profile}
    {result : Outcome × Context} (h : c.runProfiled program p fuel = some (p', result)) :
    p' = ((c.opcodes program fuel).foldl Profile.record p).endRun := by
  rw [runProfiled, Option.map_eq_some_iff] at h
  obtain ⟨⟨p₁, result₁⟩, hwatched, hresult⟩ := h
  obtain ⟨rfl, rfl⟩ := Prod.mk.inj hresult
  rw [runWatched] at hwatched
  rw [opcodes]
  split at hwatched
  · next unloaded =>
    cases hwatched
    rw [if_pos unloaded]
    rfl
  · next loaded =>
    obtain ⟨⟨seen, halt⟩, hexec, hconclude⟩ := Option.map_eq_some_iff.1 hwatched
    obtain ⟨rfl, -⟩ := Prod.mk.inj hconclude
    rw [if_neg loaded, Setting.profile_of_executeWatched hexec]

/-! ## Runs counted into one profile -/

namespace Profile

open Opcode

/-- The profile is what a new one has become after runs that were counted into it, of whatever programs over
    whatever contexts. Of each run the opcodes are listed that it dispatched. -/
inductive Counted : List (List Opcode) → Profile → Prop where
  | new : Counted [] .empty
  | run {runs : List (List Opcode)} {p p' : Profile} {c : Context} {program : Program} {fuel : Nat}
    {result : Outcome × Context} (before : Counted runs p)
    (run : c.runProfiled program p fuel = some (p', result)) : Counted (runs ++ [c.opcodes program fuel]) p'

/-- The profile has the opcodes of the runs, and the pairs of neighbours in each, and is between two runs. -/
structure Tallies (p : Profile) (runs : List (List Opcode)) : Prop where
  count : ∀ op, p.count op = (runs.map (List.count op)).sum
  pair : ∀ first second, p.pair first second = (runs.map (neighbours first second)).sum
  last : p.last = none

theorem Tallies.empty : Tallies .empty [] where
  count op := by simp [Profile.count, Profile.empty]
  pair first second := by simp [Profile.pair, Profile.empty]
  last := rfl

/-- A run adds its opcodes. Its first is paired with nothing, because the last of the run before is forgotten. -/
theorem Tallies.run {p : Profile} {runs : List (List Opcode)} (h : p.Tallies runs) (ops : List Opcode) :
    (ops.foldl record p).endRun.Tallies (runs ++ [ops]) where
  count op := by
    have hcount : (ops.foldl record p).endRun.count op = (ops.foldl record p).count op := rfl
    rw [hcount, count_foldl_record, h.count]
    simp
  pair first second := by
    have hpair : (ops.foldl record p).endRun.pair first second = (ops.foldl record p).pair first second := rfl
    rw [hpair, pair_foldl_record, h.pair, h.last]
    simp
  last := rfl

theorem tallies_of_counted {runs : List (List Opcode)} {p : Profile} (h : Counted runs p) : p.Tallies runs := by
  induction h with
  | new => exact .empty
  | run _ run ih =>
    rw [Context.profile_of_runProfiled run]
    exact ih.run _

theorem sum_count (ops : List Opcode) : (all.map fun op => ops.count op).sum = ops.length := by
  induction ops with
  | nil => exact sum_zero
  | cons op ops ih =>
    simp only [List.count_cons, List.sum_map_add, beq_iff_eq, ih, sum_single, List.length_cons]

theorem Tallies.total {p : Profile} {runs : List (List Opcode)} (h : p.Tallies runs) :
    p.total = (runs.map List.length).sum := by
  have counts : all.map p.count = all.map fun op => (runs.map (List.count op)).sum :=
    List.map_congr_left fun op _ => h.count op
  rw [total_eq, counts]
  clear counts h
  induction runs with
  | nil => exact sum_zero
  | cons ops runs ih => simp only [List.map_cons, List.sum_cons, List.sum_map_add, sum_count, ih]

/-- **Counts balance pairs, and counting changes nothing.** However many runs were counted into a profile that was
    new: an opcode was counted as often as it was paired with one before it and began a run, and as often as it was
    paired with one after it and ended a run. The total is the number of instructions dispatched, those that
    stopped a run with an error among them. A pair was counted as often as its opcodes are neighbours inside a run,
    so none joins two runs. A run that is counted gives the same outcome and leaves the same context as one that is
    not. The counts are numbers without a bound. -/
theorem counted_balanced {runs : List (List Opcode)} {p : Profile} (h : Counted runs p) :
    (∀ op, p.count op = (all.map fun first => p.pair first op).sum + runs.countP fun ops => ops.head? = some op) ∧
    (∀ op, p.count op =
      (all.map fun second => p.pair op second).sum + runs.countP fun ops => ops.getLast? = some op) ∧
    p.total = (runs.map List.length).sum ∧
    (∀ first second, p.pair first second = (runs.map (neighbours first second)).sum) ∧
    ∀ (c : Context) (program : Program) (profile : Profile) (fuel : Nat),
      (c.runProfiled program profile fuel).map Prod.snd = c.run program fuel := by
  have tallies := tallies_of_counted h
  refine ⟨fun op => ?_, fun op => ?_, tallies.total, tallies.pair, fun c program profile fuel =>
    Context.runProfiled_snd profile⟩
  · rw [tallies.count]
    simp only [tallies.pair]
    apply sum_balance
    intro ops
    simpa using count_eq_firsts op ops
  · rw [tallies.count]
    simp only [tallies.pair]
    apply sum_balance
    intro ops
    simpa using count_eq_seconds op ops

/-- Whatever was counted before, a run that ends can be counted. -/
theorem Counted.exists_run {runs : List (List Opcode)} {p : Profile} (before : Counted runs p) (c : Context)
    (program : Program) (fuel : Nat) (ends : (c.run program fuel).isSome) :
    ∃ p', Counted (runs ++ [c.opcodes program fuel]) p' := by
  rw [← Context.runProfiled_snd p, Option.isSome_map] at ends
  obtain ⟨⟨p', result⟩, run⟩ := Option.isSome_iff_exists.1 ends
  exact ⟨p', .run before run⟩

def idleContext : Context := .new {}

def letterContext (input : Input) : Context := { Context.new {} with input, startPoint := 1 }

/-- Commits to a choice that was never made. -/
def uncommitted : Program := .ofList [.exit, .any, .commit 0]

def twoBytes : Program := .ofList [.exit, .any, .any, .exit]

/-- One run has nowhere to start, one is stopped by an error, one matches, and one fails at its first instruction.
    Three of them begin with `any`; that of the third is not paired with the `commit` that stopped the second. -/
theorem counted_balanced_fourEnds :
    let runs : List (List Opcode) := [[], [.any, .commit], [.any, .any, .exit], [.any]]
    ∃ p, Counted runs p ∧ p.total = 6 ∧ p.count .any = (all.map fun first => p.pair first .any).sum + 3 ∧
      p.count .commit = (all.map fun second => p.pair .commit second).sum + 1 ∧
      p.pair .any .any = 1 ∧ p.pair .commit .any = 0 := by
  intro runs
  obtain ⟨p₁, h₁⟩ := Counted.new.exists_run idleContext twoBytes 1 (by decide +kernel)
  obtain ⟨p₂, h₂⟩ := h₁.exists_run (letterContext #[97]) uncommitted 2 (by decide +kernel)
  obtain ⟨p₃, h₃⟩ := h₂.exists_run (letterContext #[97, 98]) twoBytes 3 (by decide +kernel)
  obtain ⟨p₄, h₄⟩ := h₃.exists_run (letterContext #[]) twoBytes 1 (by decide +kernel)
  have counted : Counted runs p₄ := h₄
  obtain ⟨firsts, seconds, total, pair, -⟩ := counted_balanced counted
  exact ⟨p₄, counted, total, firsts .any, seconds .commit, pair .any .any, pair .commit .any⟩

end Profile

end PegMachine
