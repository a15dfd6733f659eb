import Mathlib.Tactic.IntervalCases
import PegMachine.Proofs.Run.Moves
/-!
  Backtracking restores exactly.

  A frame remembers the cursor and the lengths of the stacks, not their entries. What makes a restore
  exact is that no instruction rewrites an entry below a live frame's lengths:
    1. `FrameAbove`, `Guarded` — the invariant of a saved frame: the stacks still have at their bottom what
       they held when it was saved, and every frame above it was saved with lengths that are not smaller;
    2. `Guarded.move` — every move of the machine keeps it, as long as the frame stays and is not refreshed;
    3. `restore_exact` — so the step that restores the frame brings back the cursor and the marks, and
       the call stack, the symbol table and the node log too, each if no `ret`, no `scopeEnd` and no
       `nodeClose` reached below the frame in between.

  The marks need no such condition: `define` takes a mark off only if the top frame does not count it.
-/
namespace PegMachine

/-! ## Stacks above a saved frame -/

/-- Restoring the frame cuts nothing off the base. The three conditions say for which stacks this is
    claimed besides the marks. -/
structure FrameAbove (base : Stacks) (calls symbols log : Prop) (g : Frame) : Prop where
  marks : base.marks.size ≤ g.markDepth
  calls : calls → base.calls.size ≤ g.callDepth
  symbols : symbols → base.symbols.size ≤ g.symbolDepth
  log : log → base.log.entries.size ≤ g.logLength

/-- The frame `f` stands on the frames `below`, and the stacks have the base at their bottom. -/
structure Guarded (base : Stacks) (calls symbols log : Prop) (below : List Frame) (f : Frame)
    (work : Stacks) : Prop where
  frames : ∃ above, work.backtrack.toList = below ++ f :: above ∧
    ∀ g ∈ f :: above, FrameAbove base calls symbols log g
  marks : Begins base.marks work.marks
  calls : calls → Begins base.calls work.calls
  symbols : symbols → Begins base.symbols work.symbols
  log : log → base.log.Begins work.log

namespace Guarded

variable {base work : Stacks} {calls symbols log : Prop} {below : List Frame} {f g : Frame}

/-- A frame saved now is above the base. -/
theorem frameAbove (h : Guarded base calls symbols log below f work) (alternative pos : Nat) :
    FrameAbove base calls symbols log (work.frame alternative pos) where
  marks := h.marks.size_le
  calls hc := (h.calls hc).size_le
  symbols hs := (h.symbols hs).size_le
  log hl := (h.log hl).entries.size_le

theorem top_mem (h : Guarded base calls symbols log below f work) (top : work.backtrack.back? = some g) :
    FrameAbove base calls symbols log g := by
  obtain ⟨above, hframes, habove⟩ := h.frames
  obtain ⟨rest, hrest⟩ := Array.back?_eq_some_iff.1 top
  have hlast : (below ++ f :: above).getLast? = some g := by
    rw [← hframes, hrest]
    simp
  rw [List.getLast?_append_of_ne_nil _ (List.cons_ne_nil f above)] at hlast
  exact habove g (List.mem_of_getLast? hlast)

theorem push (h : Guarded base calls symbols log below f work) (hg : FrameAbove base calls symbols log g) :
    Guarded base calls symbols log below f { work with backtrack := work.backtrack.push g } := by
  obtain ⟨above, hframes, habove⟩ := h.frames
  refine { h with frames := ⟨above ++ [g], by simp [hframes], ?_⟩ }
  intro g' hg'
  rcases List.mem_append.1 (List.cons_append .. ▸ hg') with hmem | hmem
  · exact habove g' hmem
  · rw [List.mem_singleton.1 hmem]
    exact hg

/-- Popping a frame other than the guarded one. -/
theorem pop (h : Guarded base calls symbols log below f work)
    (stays : below.length + 1 < work.backtrack.size) :
    Guarded base calls symbols log below f { work with backtrack := work.backtrack.pop } := by
  obtain ⟨above, hframes, habove⟩ := h.frames
  have hne : above ≠ [] := by
    rintro rfl
    have := congrArg List.length hframes
    simp at this
    omega
  refine { h with frames := ⟨above.dropLast, ?_, ?_⟩ }
  · rw [Array.toList_pop, hframes, List.dropLast_append_of_ne_nil (List.cons_ne_nil f above),
      List.dropLast_cons_of_ne_nil hne]
  · intro g' hg'
    rcases List.mem_cons.1 hg' with rfl | hmem
    · exact habove _ List.mem_cons_self
    · exact habove g' (List.mem_cons_of_mem f (List.dropLast_subset above hmem))

/-- If no frame stands on the guarded one, it is on top. -/
theorem top_eq (h : Guarded base calls symbols log below f work)
    (last : work.backtrack.size = below.length + 1) : work.backtrack.toList = below ++ [f] := by
  obtain ⟨above, hframes, -⟩ := h.frames
  have hlen := congrArg List.length hframes
  simp only [Array.length_toList, List.length_append, List.length_cons] at hlen
  have hnil : above = [] := List.eq_nil_of_length_eq_zero (by omega)
  rw [hframes, hnil]

theorem restore (h : Guarded base calls symbols log below f work)
    (hg : FrameAbove base calls symbols log g) (inside : base.log.Inside) :
    Guarded base calls symbols log below f (work.restore g) where
  frames := h.frames
  marks := h.marks.shrink hg.marks
  calls hc := (h.calls hc).shrink (hg.calls hc)
  symbols hs := (h.symbols hs).shrink (hg.symbols hs)
  log hl := (h.log hl).truncate inside (hg.log hl)

/-- A mark that the base holds is counted by every frame that can be on top, so it is not taken off. -/
theorem useMark (h : Guarded base calls symbols log below f work) :
    Guarded base calls symbols log below f work.useMark := by
  rw [Stacks.useMark]
  split
  · next free =>
    have pinned : base.marks.size ≤ work.pinnedMarks := by
      obtain ⟨above, hframes, -⟩ := h.frames
      rw [Stacks.pinnedMarks]
      cases htop : work.backtrack.back? with
      | none =>
        rw [Array.back?_eq_none_iff.1 htop] at hframes
        simp at hframes
      | some g => exact (h.top_mem htop).marks
    exact { h with marks := h.marks.pop (by omega) }
  · exact h

end Guarded

/-! ## The frame in a run -/

namespace Setting

/-- The step from `m` saves the frame `f` at index `d`: a `choice` pushes it, or a `partialCommit`
    refreshes it. -/
inductive Saves (s : Setting) (m : Machine) : Nat → Frame → Prop where
  | pushed (alternative : Nat) (code : s.program.at? m.pc = some (.choice alternative)) :
    Saves s m m.work.backtrack.size (m.frame alternative)
  | refreshed (target : Nat) (old : Frame) (code : s.program.at? m.pc = some (.partialCommit target))
    (top : m.work.backtrack.back? = some old) :
    Saves s m (m.work.backtrack.size - 1) (m.frame old.alternative)

/-- The frame at index `d` is on the stack, and the step from `m` does not refresh it. -/
def Keeps (s : Setting) (d : Nat) (m : Machine) : Prop :=
  d < m.work.backtrack.size ∧
    ∀ target, s.program.at? m.pc = some (.partialCommit target) → d + 1 < m.work.backtrack.size

/-- The step from `m` restores the frame at index `d`: an instruction fails when this frame is on top,
    for `failTwice` after the frame above was dropped, or a `backCommit` pops it. -/
def Restores (s : Setting) (d : Nat) (m : Machine) : Prop :=
  ∃ i, s.program.at? m.pc = some i ∧
    ((∃ m', s.perform i m = .fail m' ∧ m'.work.backtrack.size = d + 1) ∨
      (∃ target, i = .backCommit target) ∧ m.work.backtrack.size = d + 1)

/-- A `ret` at `m` pops no entry of the call stack below `depth`. -/
def ReturnsAbove (s : Setting) (depth : Nat) (m : Machine) : Prop :=
  s.program.at? m.pc = some .ret → ∀ back, m.work.calls.back? = some back → depth ≤ m.work.calls.size - 1

/-- A `scopeEnd` at `m` removes no marker of the symbol table below `depth`. -/
def EndsScopeAbove (s : Setting) (depth : Nat) (m : Machine) : Prop :=
  s.program.at? m.pc = some .scopeEnd →
    ∀ place, SymbolEntry.lastScope? m.work.symbols = some place → depth ≤ place

/-- A `nodeClose` at `m` folds no opened node of the log below `length`. -/
def ClosesAbove (s : Setting) (length : Nat) (m : Machine) : Prop :=
  s.program.at? m.pc = some .nodeClose →
    ∀ place start, m.work.log.innermost? = some (place, start) → length ≤ place

variable {s : Setting} {m m' : Machine} {base : Stacks} {calls symbols log : Prop} {below : List Frame}
  {f : Frame} {i : Instruction}

/-- A move keeps what a saved frame guards, as long as the frame stays, is not refreshed, and the move
    reaches below it in none of the stacks that are claimed. -/
theorem guarded_of_move (h : Guarded base calls symbols log below f m.work) (inside : base.log.Inside)
    (code : s.program.at? m.pc = some i) (hmove : s.Move m i m') (keeps : s.Keeps below.length m)
    (stays : below.length < m'.work.backtrack.size)
    (hcalls : calls → s.ReturnsAbove base.calls.size m)
    (hsymbols : symbols → s.EndsScopeAbove base.symbols.size m)
    (hlog : log → s.ClosesAbove base.log.entries.size m) :
    Guarded base calls symbols log below f m'.work := by
  cases hmove with
  | consumed | jumped | switched => exact h
  | called target =>
    exact { h with calls := fun hc => (h.calls hc).push (m.pc + 1) }
  | returned back top =>
    refine { h with calls := fun hc => (h.calls hc).pop ?_ }
    have hsize : 0 < m.work.calls.size := by
      obtain ⟨rest, hrest⟩ := Array.back?_eq_some_iff.1 top
      simp [hrest]
    have := hcalls hc code back top
    omega
  | chose alternative => exact h.push (h.frameAbove alternative m.pos)
  | committed target g top =>
    have hsize : m.work.backtrack.pop.size = m.work.backtrack.size - 1 := Array.size_pop
    exact h.pop (by have : below.length < m.work.backtrack.pop.size := stays; omega)
  | refreshed target g top =>
    -- A frame above the guarded one is replaced: it is popped and saved anew.
    exact (h.pop (keeps.2 target code)).push (h.frameAbove g.alternative m.pos)
  | wentBack target g top =>
    have hsize : m.work.backtrack.pop.size = m.work.backtrack.size - 1 := Array.size_pop
    have := h.pop (by have : below.length < m.work.backtrack.pop.size := stays; omega)
    exact this.restore (h.top_mem top) inside
  | failed i g fails done top =>
    have hsize : m.work.backtrack.pop.size = m.work.backtrack.size - 1 := Array.size_pop
    have := h.pop (by have : below.length < m.work.backtrack.pop.size := stays; omega)
    exact this.restore (h.top_mem top) inside
  | failedTwice g g' top next =>
    have hsize : m.work.backtrack.pop.pop.size = m.work.backtrack.size - 1 - 1 := by simp
    have hlt : below.length < m.work.backtrack.pop.pop.size := stays
    -- The guarded frame is none of the two that are dropped, since it is still there afterwards.
    have once := h.pop (by omega)
    have twice := once.pop (by simp only [Array.size_pop]; omega)
    exact twice.restore (once.top_mem next) inside
  | opened => exact { h with log := fun hl => (h.log hl).openNode m.pos }
  | closed place start innermost =>
    exact { h with log := fun hl =>
      ((h.log hl).truncate inside (hlog hl code place start innermost)).push (.node m.pool.size) }
  | tagged label => exact { h with log := fun hl => (h.log hl).push (.tag label) }
  | valued label => exact { h with log := fun hl => (h.log hl).push (.value label) }
  | marked => exact { h with marks := h.marks.push m.pos }
  | defined table mark =>
    exact { h.useMark with symbols := fun hs => (h.useMark.symbols hs).push _ }
  | scopeBegun => exact { h with symbols := fun hs => (h.symbols hs).push .scope }
  | scopeEnded place latest =>
    exact { h with symbols := fun hs => (h.symbols hs).shrink (hsymbols hs code place latest) }

/-- A saved frame guards what it was made from. -/
theorem guarded_of_saves {d : Nat} (hs : s.Saves m d f) (hstep : s.step m = .running m') :
    Guarded m.work calls symbols log (m.work.backtrack.toList.take d) f m'.work := by
  have own (alternative : Nat) : FrameAbove m.work calls symbols log (m.frame alternative) :=
    ⟨Nat.le_refl _, fun _ => Nat.le_refl _, fun _ => Nat.le_refl _, fun _ => Nat.le_refl _⟩
  obtain ⟨i, hi, hmove⟩ := move_of_step hstep
  cases hs with
  | pushed alternative code =>
    obtain rfl : i = .choice alternative := Option.some.inj (hi.symm.trans code)
    cases hmove with
    | consumed _ _ looks => cases looks
    | failed _ _ fails => cases fails
    | chose =>
      have frames : (m.work.backtrack.push (m.frame alternative)).toList =
          m.work.backtrack.toList.take m.work.backtrack.size ++ [m.frame alternative] := by
        rw [Array.toList_push, List.take_of_length_le (by simp)]
      exact ⟨⟨[], frames, by simpa using own alternative⟩, .refl _, fun _ => .refl _, fun _ => .refl _,
        fun _ => .refl _⟩
  | refreshed target old code top =>
    obtain rfl : i = .partialCommit target := Option.some.inj (hi.symm.trans code)
    cases hmove with
    | consumed _ _ looks => cases looks
    | failed _ _ fails => cases fails
    | refreshed _ old' top' =>
      obtain rfl : old' = old := Option.some.inj (top'.symm.trans top)
      have frames : (m.work.backtrack.pop.push (m.frame old'.alternative)).toList =
          m.work.backtrack.toList.take (m.work.backtrack.size - 1) ++ [m.frame old'.alternative] := by
        simp [List.dropLast_eq_take]
      exact ⟨⟨[], frames, by simpa using own old'.alternative⟩, .refl _, fun _ => .refl _,
        fun _ => .refl _, fun _ => .refl _⟩

theorem Saves.le_size {d : Nat} (hs : s.Saves m d f) : d ≤ m.work.backtrack.size := by
  cases hs <;> omega

theorem Saves.eq_frame {d : Nat} (hs : s.Saves m d f) : ∃ alternative, f = m.frame alternative := by
  cases hs <;> exact ⟨_, rfl⟩

/-- A saved frame guards what it was made from for as long as it stays: in each stack that is claimed, if nothing
    that was carried out since reached into it below the frame. -/
theorem guarded_of_stays {t : Nat → Machine} {n d k : Nat} (run : s.Trace t (k + 1 + n))
    (exact : (t k).work.log.Exact) (saves : s.Saves (t k) d f)
    (stays : ∀ l, k < l → l < k + 1 + n → s.Keeps d (t l)) (there : d < (t (k + 1 + n)).work.backtrack.size)
    (hcalls : calls → ∀ l, k < l → l < k + 1 + n → s.ReturnsAbove f.callDepth (t l))
    (hsymbols : symbols → ∀ l, k < l → l < k + 1 + n → s.EndsScopeAbove f.symbolDepth (t l))
    (hlog : log → ∀ l, k < l → l < k + 1 + n → s.ClosesAbove f.logLength (t l)) :
    Guarded (t k).work calls symbols log ((t k).work.backtrack.toList.take d) f (t (k + 1 + n)).work := by
  obtain ⟨alternative, rfl⟩ := saves.eq_frame
  have hlen : ((t k).work.backtrack.toList.take d).length = d := by
    rw [List.length_take, Array.length_toList]
    exact Nat.min_eq_left saves.le_size
  -- On the steps since the frame was saved.
  induction n with
  | zero => exact guarded_of_saves saves (run k (by omega))
  | succ n ih =>
    have last := stays (k + 1 + n) (by omega) (by omega)
    have before := ih (fun l hl => run l (by omega)) (fun l hk hl => stays l hk (by omega)) last.1
      (fun h l hk hl => hcalls h l hk (by omega)) (fun h l hk hl => hsymbols h l hk (by omega))
      (fun h l hk hl => hlog h l hk (by omega))
    obtain ⟨i, code, hmove⟩ := move_of_step (run (k + 1 + n) (by omega))
    refine guarded_of_move before exact.inside code hmove (hlen.symm ▸ last) (hlen.symm ▸ there) ?_ ?_ ?_
    · exact fun h => hcalls h _ (by omega) (by omega)
    · exact fun h => hsymbols h _ (by omega) (by omega)
    · exact fun h => hlog h _ (by omega) (by omega)

/-- The frame that a run has kept up to a step guards what the run has kept up to then. -/
theorem guarded_of_trace {t : Nat → Machine} {n d j k : Nat} (run : s.Trace t (j + 1))
    (exact : (t k).work.log.Exact) (saves : s.Saves (t k) d f)
    (stays : ∀ l, k < l → l ≤ j → s.Keeps d (t l)) (hn : k + 1 + n ≤ j) :
    Guarded (t k).work (∀ l, k < l → l < j → s.ReturnsAbove f.callDepth (t l))
      (∀ l, k < l → l < j → s.EndsScopeAbove f.symbolDepth (t l))
      (∀ l, k < l → l < j → s.ClosesAbove f.logLength (t l))
      ((t k).work.backtrack.toList.take d) f (t (k + 1 + n)).work :=
  guarded_of_stays (fun l hl => run l (by omega)) exact saves (fun l hk hl => stays l hk (by omega))
    (stays (k + 1 + n) (by omega) hn).1 (fun h l hk hl => h l hk (by omega)) (fun h l hk hl => h l hk (by omega))
    fun h l hk hl => h l hk (by omega)

/-- What is put back by the step that restores the guarded frame. -/
structure Restored (base : Machine) (calls symbols log : Prop) (below : List Frame) (m : Machine) : Prop where
  pos : m.pos = base.pos
  marks : m.work.marks = base.work.marks
  calls : calls → m.work.calls = base.work.calls
  symbols : symbols → m.work.symbols = base.work.symbols
  log : log → m.work.log = base.work.log
  backtrack : m.work.backtrack.toList = below

theorem restored_of_guarded {base : Machine} {alternative : Nat} {g : Frame}
    (h : Guarded base.work calls symbols log below (base.frame alternative) m.work)
    (inside : base.work.log.Inside) (last : m.work.backtrack.size = below.length + 1)
    (top : m.work.backtrack.back? = some g) :
    Restored base calls symbols log below (m.popFrame.restore g) := by
  have hframes := h.top_eq last
  obtain ⟨rest, hrest⟩ := Array.back?_eq_some_iff.1 top
  rw [hrest, Array.toList_push] at hframes
  obtain ⟨hbelow, hg⟩ := List.append_inj' hframes rfl
  obtain rfl : g = base.frame alternative := List.head_eq_of_cons_eq hg
  refine ⟨rfl, shrink_of_begins h.marks, fun hc => shrink_of_begins (h.calls hc),
    fun hs => shrink_of_begins (h.symbols hs), fun hl => NodeLog.truncate_of_begins (h.log hl) inside, ?_⟩
  simp only [Machine.restore, Machine.popFrame, Stacks.restore, hrest, Array.pop_push]
  exact hbelow

/-- The step that restores the guarded frame puts back what it guards. -/
theorem restored_of_restores {base : Machine} {alternative : Nat}
    (h : Guarded base.work calls symbols log below (base.frame alternative) m.work)
    (inside : base.work.log.Inside) (restores : s.Restores below.length m)
    (hstep : s.step m = .running m') : Restored base calls symbols log below m' := by
  obtain ⟨i, code, ⟨m₁, hfail, last⟩ | ⟨⟨target, rfl⟩, last⟩⟩ := restores
  · simp only [step, code, dispatch_eq, hfail] at hstep
    obtain ⟨g, top, rfl⟩ := settle_fail hstep
    -- `failTwice` has dropped the frame above, so the guarded frame is on top in either case.
    have hm₁ : Guarded base.work calls symbols log below (base.frame alternative) m₁.work := by
      rcases perform_eq_fail hfail with rfl | ⟨-, rfl, -⟩
      · exact h
      · have hsize : m.popFrame.work.backtrack.size = m.work.backtrack.size - 1 := Array.size_pop
        exact h.pop (by omega)
    have back := restored_of_guarded hm₁ inside last top
    exact ⟨back.pos, back.marks, back.calls, back.symbols, back.log, back.backtrack⟩
  · obtain ⟨i, hi, hmove⟩ := move_of_step hstep
    obtain rfl : i = .backCommit target := Option.some.inj (hi.symm.trans code)
    cases hmove with
    | consumed _ _ looks => cases looks
    | failed _ _ fails => cases fails
    | wentBack _ g top =>
      have back := restored_of_guarded h inside last top
      exact ⟨back.pos, back.marks, back.calls, back.symbols, back.log, back.backtrack⟩

/-- **Backtracking restores exactly.** In every run, let a `choice` or a `partialCommit` save the frame `f`
    at index `d`, let it stay there unrefreshed, and let a later step restore it. Then cursor, marks and
    the frames below are again what they were when `f` was saved; so are the call stack, the symbol
    table and the node log with the places of its opened nodes, each if no instruction in between
    reached into it below `f`. -/
theorem restore_exact {s : Setting} {t : Nat → Machine} {pc pos : Nat} {pool : Pool} {i j d : Nat}
    {f : Frame} (first : t 0 = .start pc pos pool) (run : s.Trace t (j + 1)) (order : i < j)
    (saves : s.Saves (t i) d f) (stays : ∀ k, i < k → k ≤ j → s.Keeps d (t k))
    (restores : s.Restores d (t j)) :
    (t (j + 1)).pos = (t i).pos ∧
    (t (j + 1)).work.marks = (t i).work.marks ∧
    ((∀ k, i < k → k < j → s.ReturnsAbove f.callDepth (t k)) →
      (t (j + 1)).work.calls = (t i).work.calls) ∧
    ((∀ k, i < k → k < j → s.EndsScopeAbove f.symbolDepth (t k)) →
      (t (j + 1)).work.symbols = (t i).work.symbols) ∧
    ((∀ k, i < k → k < j → s.ClosesAbove f.logLength (t k)) →
      (t (j + 1)).work.log = (t i).work.log) ∧
    (t (j + 1)).work.backtrack.toList = (t i).work.backtrack.toList.take d := by
  have hexact : (t i).work.log.Exact := exact_of_reaches (first ▸ run.reaches i (by omega))
  have guarded := guarded_of_trace (n := j - (i + 1)) run hexact saves stays (by omega)
  rw [show i + 1 + (j - (i + 1)) = j by omega] at guarded
  obtain ⟨alternative, rfl⟩ := saves.eq_frame
  have hlen : ((t i).work.backtrack.toList.take d).length = d := by
    rw [List.length_take, Array.length_toList]
    exact Nat.min_eq_left saves.le_size
  have restored := restored_of_restores guarded hexact.inside (hlen.symm ▸ restores) (run j (by omega))
  exact ⟨restored.pos, restored.marks, restored.calls, restored.symbols, restored.log, restored.backtrack⟩

/-- A called rule marks, saves a frame, calls a rule that consumes a byte, defines a text from the mark
    below the frame, opens a node and fails. -/
def sample : Setting where
  program := .ofList [.exit, .call 3, .exit, .mark, .choice 9, .call 10, .define "t", .nodeOpen, .fail, .ret,
    .any, .ret]
  input := #[97]
  config := {}

theorem restore_exact_sample :
    let t := sample.states (.start 1 0 .empty)
    ((t 8).pos = 1 ∧ (t 8).work.symbols.size = 1 ∧ (t 8).work.log.opens = #[0]) ∧
    (t 9).pos = (t 2).pos ∧ (t 9).work.marks = (t 2).work.marks ∧ (t 9).work.calls = (t 2).work.calls ∧
    (t 9).work.symbols = (t 2).work.symbols ∧ (t 9).work.log = (t 2).work.log := by
  intro t
  have run : sample.Trace t 9 := by
    intro k hk
    interval_cases k <;> rfl
  have stays : ∀ k, 2 < k → k ≤ 8 → sample.Keeps 0 (t k) := by
    intro k h2 h8
    interval_cases k <;> exact ⟨by decide, nofun⟩
  have restores : sample.Restores 0 (t 8) := ⟨.fail, rfl, .inl ⟨t 8, rfl, rfl⟩⟩
  have returns : ∀ k, 2 < k → k < 8 → sample.ReturnsAbove 1 (t k) := by
    intro k h2 h8
    interval_cases k
    · exact nofun
    · exact nofun
    · exact fun _ _ _ => by decide
    · exact nofun
    · exact nofun
  have scopes : ∀ k, 2 < k → k < 8 → sample.EndsScopeAbove 0 (t k) :=
    fun _ _ _ _ _ _ => Nat.zero_le _
  have closes : ∀ k, 2 < k → k < 8 → sample.ClosesAbove 0 (t k) :=
    fun _ _ _ _ _ _ _ => Nat.zero_le _
  obtain ⟨hpos, hmarks, hcalls, hsymbols, hlog, -⟩ :=
    restore_exact rfl run (by decide) (.pushed 9 rfl) stays restores
  exact ⟨by decide, hpos, hmarks, hcalls returns, hsymbols scopes, hlog closes⟩

end Setting

end PegMachine
