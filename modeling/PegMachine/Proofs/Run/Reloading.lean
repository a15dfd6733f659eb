import PegMachine.Proofs.Run.Confinement
import PegMachine.Proofs.Run.Cursor
/-!
  Loading into a context that was used before.

  A load into a context takes over the context's input, cursor and capacities, and drops what the old program
  left in it. It does not clear the stacks; this is left to the next run. What is proved:
    1. `run_forgets_stacks`: a run of a loaded context does not depend on the stacks that it finds;
    2. `session_forgets_stacks`: so nothing that is asked of the context later does;
    3. `loadInto_afresh`: a load that fails changes nothing, and after one that succeeds the context answers
       like one that was made by this load, with the same capacities, input and cursor.
-/
namespace PegMachine

namespace Context

/-! ## Sessions -/

/-- What can be asked of a context that holds a program. -/
inductive Request where
  | setInput (input : Input)
  | setPos (pos : Nat)
  | rewind
  | run (fuel : Nat)
  deriving DecidableEq, Repr

/-- What can be seen of the context after a request, with the outcome if the request was a run. -/
structure Observation where
  outcome : Option Outcome
  pos : Nat
  root : Option Tree
  poolSize : Nat
  deriving DecidableEq, Repr

def observe (c : Context) (outcome : Option Outcome) : Observation := ⟨outcome, c.pos, c.root, c.pool.size⟩

/-- Does what is asked. A run may not be over within its steps. -/
def serve (c : Context) (program : Program) : Request → Option (Option Outcome × Context)
  | .setInput input => some (none, c.setInput input)
  | .setPos pos => some (none, c.setPos pos)
  | .rewind => some (none, c.rewind)
  | .run fuel => (c.run program fuel).map fun (outcome, c) => (some outcome, c)

/-- What is seen when one request after the other is served, if all runs are over within their steps. -/
def session (program : Program) : List Request → Context → Option (List Observation)
  | [], _ => some []
  | request :: requests, c =>
    (c.serve program request).bind fun (outcome, c) => (c.session program requests).map (c.observe outcome :: ·)

variable {c : Context} {program : Program}

/-- A run clears the stacks before it starts. -/
theorem run_forgets_stacks (loaded : c.startPoint ≠ 0) (work : Stacks) (fuel : Nat) :
    { c with work }.run program fuel = c.run program fuel := by
  rw [run, run, if_neg loaded, if_neg loaded]
  rfl

/-- What is asked of a context with a program never shows what is on its stacks. -/
theorem session_forgets_stacks (loaded : c.startPoint ≠ 0) (work : Stacks) (requests : List Request) :
    { c with work }.session program requests = c.session program requests := by
  induction requests generalizing c with
  | nil => rfl
  | cons request requests ih =>
    cases request with
    | setInput input =>
      exact congrArg (Option.map ((c.setInput input).observe none :: ·)) (ih (c := c.setInput input) loaded)
    | setPos pos => exact congrArg (Option.map ((c.setPos pos).observe none :: ·)) (ih (c := c.setPos pos) loaded)
    | rewind => rfl
    | run fuel => rw [session, session, serve, serve, run_forgets_stacks loaded]

/-! ## Loading -/

/-- The capacities in the options are only for contexts that the load makes. -/
theorem load_with_config (options : LoadOptions) (config : Config) (bytes : Bytes) (rule? : Option String) :
    load { options with config } bytes rule? = load options bytes rule? := rfl

/-- **Loading into a used context is loading afresh.** A load into a context that fails leaves the context as it
    was. After one that succeeds the context is the one that the load makes with the same capacities when it is
    given the same input and cursor, but for what is still on its stacks. Whatever is asked of the two contexts
    from then on, the outcomes, cursors, roots and pool sizes are the same. -/
theorem loadInto_afresh (h : c.Reachable) (options : LoadOptions) (bytes : Bytes) (rule? : Option String) :
    (∀ error c', c.loadInto options bytes rule? = (.error error, c') → c' = c) ∧
    ∀ program c', c.loadInto options bytes rule? = (.ok program, c') →
      ∃ l, load { options with config := c.config } bytes rule? = .ok l ∧ l.program = program ∧
        let fresh := ((ofLoaded { options with config := c.config } l).setInput c.input).setPos c.pos
        c' = { fresh with work := c.work } ∧
        ∀ requests, c'.session program requests = fresh.session program requests := by
  rw [loadInto]
  cases hload : load options bytes rule? with
  | error error =>
    refine ⟨fun _ c' hinto => ?_, fun program c' hinto => ?_⟩
    · cases hinto
      rfl
    · cases hinto
  | ok l =>
    refine ⟨fun error c' hinto => ?_, fun program c' hinto => ?_⟩
    · cases hinto
    · cases hinto
      let fresh := ((ofLoaded { options with config := c.config } l).setInput c.input).setPos c.pos
      have loaded : fresh.startPoint ≠ 0 := (fits_of_load hload c).start_ne_zero
      have same : c.adoptLoaded l = { fresh with work := c.work } := by
        have hpos : min c.pos c.input.size = c.pos := Nat.min_eq_left h.pos_le
        show c.adoptLoaded l = { c.adoptLoaded l with pos := min c.pos c.input.size }
        rw [hpos]
        rfl
      refine ⟨l, (load_with_config options c.config bytes rule?).trans hload, rfl, same, fun requests => ?_⟩
      rw [same]
      exact session_forgets_stacks loaded c.work requests

/-- Builds a node over one byte. -/
def oneNode : Program := .ofList [.exit, .nodeOpen, .any, .nodeClose, .ret]

/-- The program behind an empty header of version 0.1. -/
def oneNodeBytes : Bytes :=
  [0, 1] ++ toBigEndian 4 0 ++ toBigEndian 4 0 ++ toBigEndian 4 0 ++ toBigEndian 8 5 ++ [0, 20, 10, 21, 3]

/-- A small context that has matched once. -/
def matchedContext : Context :=
  { new { maxStackLength := 1 } with
    input := #[7, 8], pos := 1, startPoint := 1, instructionCount := 5, root := some ⟨0, 1, none, none, []⟩
    pool := .push .empty 0 1 none none [] }

theorem loadInto_afresh_matched : matchedContext.Reachable ∧
    (∃ error, matchedContext.loadInto {} [0] none = (.error error, matchedContext)) ∧
    ∃ c', matchedContext.loadInto {} retreatingBytes none = (.ok retreating, c') ∧
      c'.session retreating [.run 5, .rewind, .run 5] =
        some [⟨some (.failed ⟨2, 2⟩), 2, none, 0⟩, ⟨none, 0, none, 0⟩, ⟨some (.failed ⟨1, 2⟩), 1, none, 0⟩] := by
  have loaded : load { config := { maxStackLength := 1 } } oneNodeBytes none =
      .ok ⟨⟨⟨0, 1⟩, "", 0, #[], 5⟩, oneNode, 1, 0⟩ := by decide +kernel
  have run : ((ofLoaded { config := { maxStackLength := 1 } } ⟨⟨⟨0, 1⟩, "", 0, #[], 5⟩, oneNode, 1, 0⟩).setInput
      #[7, 8]).run oneNode 4 = some (.matched ⟨0, 1, none, none, []⟩, matchedContext) := by decide +kernel
  have reachable : matchedContext.Reachable := .used (.used (.loaded loaded) (.setInput _)) (.run run)
  have fails : (load {} [0] none).isOk = false := by decide +kernel
  have loads : load {} retreatingBytes none = .ok ⟨⟨⟨0, 1⟩, "", 0, #[], 6⟩, retreating, 1, 0⟩ := by decide +kernel
  refine ⟨reachable, ?_, ?_⟩
  · cases hload : load {} [0] none with
    | error error =>
      obtain ⟨c', hinto⟩ : ∃ c', matchedContext.loadInto {} [0] none = (.error error, c') := by
        rw [loadInto, hload]
        exact ⟨_, rfl⟩
      obtain rfl := (loadInto_afresh reachable {} [0] none).1 error c' hinto
      exact ⟨error, hinto⟩
    | ok l =>
      rw [hload] at fails
      cases fails
  · obtain ⟨c', hinto⟩ : ∃ c', matchedContext.loadInto {} retreatingBytes none = (.ok retreating, c') := by
      rw [loadInto, loads]
      exact ⟨_, rfl⟩
    obtain ⟨l, hl, -, -, sessions⟩ := (loadInto_afresh reachable {} retreatingBytes none).2 retreating c' hinto
    cases hl.symm.trans loads
    refine ⟨c', hinto, (sessions _).trans ?_⟩
    decide +kernel

end Context

end PegMachine
