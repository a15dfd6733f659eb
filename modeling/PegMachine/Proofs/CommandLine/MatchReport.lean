import PegMachine.Proofs.CommandLine.Performance
import PegMachine.Proofs.Trees.RootEnd
/-!
  What the command line says of a match.

  With `--match` the command line prints the end of the result tree against the length of the input. What is proved:
    1. `output_of_match`: what is printed of a run that matches is made from its tree;
    2. `match_prints_root_end`: and when the end of the tree is the number of bytes that the run consumed.
-/
namespace PegMachine.CommandLine

variable {i : Invocation} {files : Files Id} {steps : Nat} {bytecode input : Bytes} {loaded : Loaded} {tree : Tree}
  {c' : Context}

/-- What is printed for a run that matches is made from its tree. -/
theorem output_of_match (libraries : Libraries) (readProgram : files.read i.program = .ok bytecode)
    (readInput : files.read i.input = .ok input) (loads : load i.loadOptions bytecode i.start? = .ok loaded)
    (run : (i.context loaded input).run loaded.program steps = some (.matched tree, c')) :
    (i.execute libraries files).output = i.matchText input tree := by
  obtain ⟨r, houtcome, -, printed⟩ := Invocation.perform_of_run libraries loads run
  rw [(execute_shows libraries readProgram readInput).1, printed]
  simp only [Invocation.printRun, houtcome]

/-- **With `--match` the command line prints where the root ends.** Let the run of a loaded file over an input match
    after some number of steps. What is printed is the end of the root against the length of the input. If a node is
    open when the run accepts, or if there is anything in the log but a single tree without labels, this is the last
    cursor. Otherwise the root is that tree, and what is printed is where the cursor was when it was closed, whatever
    the run consumed or gave back since. -/
theorem match_prints_root_end (libraries : Libraries) (onlyMatch : i.onlyMatch = true)
    (readProgram : files.read i.program = .ok bytecode) (readInput : files.read i.input = .ok input)
    (loads : load i.loadOptions bytecode i.start? = .ok loaded)
    (run : (i.context loaded input).run loaded.program steps = some (.matched tree, c')) :
    (i.execute libraries files).output = s!"match: {tree.stop} of {input.length} bytes\n" ∧
      let m := (i.context loaded input).machine
      let s := (i.context loaded input).setting loaded.program
      ∃ n last, s.Trace (s.states m) n ∧ s.step (s.states m n) = .halted true last ∧ c'.pos = last.pos ∧
        let log := (s.building m n).log
        (s.states m n).Shows log ∧
        (log.depth ≠ 0 ∨ log.lone? = none → tree.stop = c'.pos) ∧
        ∀ only, log.depth = 0 → log.lone? = some only → tree = only ∧ ∃ p, s.Closed m n p tree := by
  refine ⟨?_, Context.root_end_of_run run⟩
  rw [output_of_match libraries readProgram readInput loads run, Invocation.matchText, if_pos onlyMatch]

/-- A node over the first of two bytes. The second is consumed behind it. -/
def trailingByte : Program := .ofList [.exit, .nodeOpen, .any, .nodeClose, .any, .exit]

/-- The program behind an empty header of version 0.1. -/
def trailingByteCode : Bytes :=
  [0, 1] ++ toBigEndian 4 0 ++ toBigEndian 4 0 ++ toBigEndian 4 0 ++ toBigEndian 8 6 ++ [0, 20, 10, 21, 10, 0]

def trailingByteLoaded : Loaded := ⟨⟨⟨0, 1⟩, "", 0, #[], 6⟩, trailingByte, 1, 0⟩

def trailingByteFiles : Files Id where
  read path := if path = "p.bin" then .ok trailingByteCode else .ok [97, 98]
  create _ _ := .ok ()

def trailingByteInvocation : Invocation := ⟨"p.bin", none, true, false, none, false, none, none, .warn, "in.txt"⟩

theorem trailingByte_load : load trailingByteInvocation.loadOptions trailingByteCode none = .ok trailingByteLoaded := by
  decide +kernel

theorem trailingByte_run : ∃ c', c'.pos = 2 ∧
    (trailingByteInvocation.context trailingByteLoaded [97, 98]).run trailingByte 5 =
      some (.matched ⟨0, 1, none, none, []⟩, c') := by
  have run : ((trailingByteInvocation.context trailingByteLoaded [97, 98]).run trailingByte 5).map
      (fun result : Outcome × Context => (result.1, result.2.pos)) = some (.matched ⟨0, 1, none, none, []⟩, 2) := by
    decide +kernel
  obtain ⟨⟨outcome, c'⟩, run, hresult⟩ := Option.map_eq_some_iff.1 run
  obtain ⟨rfl, hpos⟩ := Prod.mk.inj hresult
  exact ⟨c', hpos, run⟩

theorem match_prints_root_end_trailingByte :
    (trailingByteInvocation.execute .usual trailingByteFiles).output = "match: 1 of 2 bytes\n" ∧
      let c := trailingByteInvocation.context trailingByteLoaded [97, 98]
      ∃ n p, (c.setting trailingByte).Closed c.machine n p ⟨0, 1, none, none, []⟩ := by
  obtain ⟨c', hpos, run⟩ := trailingByte_run
  have readProgram : trailingByteFiles.read "p.bin" = .ok trailingByteCode := rfl
  have readInput : trailingByteFiles.read "in.txt" = .ok [97, 98] := rfl
  obtain ⟨output, n, last, -, -, -, -, atCursor, elsewhere⟩ :=
    match_prints_root_end .usual rfl readProgram readInput trailingByte_load run
  refine ⟨output, ?_⟩
  -- The root does not end at the last cursor, so it is the tree that is left.
  have lone := mt atCursor (by rw [hpos]; decide)
  obtain ⟨none_open, lone⟩ := not_or.1 lone
  obtain ⟨only, lone⟩ := Option.ne_none_iff_exists'.1 lone
  obtain ⟨-, p, closed⟩ := elsewhere only (not_not.1 none_open) lone
  exact ⟨n, p, closed⟩

/-- What is printed need not be what the run consumed: here the run goes on for one byte after the node, which is the
    root, was closed. -/
theorem match_prints_less :
    (run trailingByteFiles ["-p", "p.bin", "--match", "in.txt"]).output = "match: 1 of 2 bytes\n" ∧
    ¬ ∀ (i : Invocation) (bytecode input : Bytes) (loaded : Loaded) (steps : Nat) (tree : Tree) (c' : Context),
      i.onlyMatch = true → load i.loadOptions bytecode i.start? = .ok loaded →
      (i.context loaded input).run loaded.program steps = some (.matched tree, c') →
      tree.stop = c'.pos := by
  obtain ⟨c', hpos, run⟩ := trailingByte_run
  have parsed : Invocation.ofArguments? Libraries.usual.options ["-p", "p.bin", "--match", "in.txt"] =
      .ok (some trailingByteInvocation) := by
    decide +kernel
  have readProgram : trailingByteFiles.read "p.bin" = .ok trailingByteCode := rfl
  have readInput : trailingByteFiles.read "in.txt" = .ok [97, 98] := rfl
  refine ⟨?_, fun always => ?_⟩
  · rw [CommandLine.run, runWith_of_arguments parsed,
      output_of_match .usual readProgram readInput trailingByte_load run]
    rfl
  · have wrong := always trailingByteInvocation trailingByteCode [97, 98] _ _ _ c' rfl trailingByte_load run
    rw [hpos] at wrong
    cases wrong

end PegMachine.CommandLine
