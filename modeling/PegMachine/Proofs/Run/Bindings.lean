import PegMachine.Proofs.Run.Cursor
import PegMachine.Proofs.Run.Marks
import PegMachine.Proofs.Run.Restoration
/-!
  Bound texts are stretches of the input.

  A definition binds the text from the last mark to the cursor. The cursor goes back with every backtrack, and
  marks that a frame counts stay when they are used, so it is not plain that the mark lies behind the cursor.
  What is proved:
    1. `Machine.Behind`, `behind_of_move`: all marks lie behind the cursor, and those that a frame counts behind
       the position that the frame has saved. A backtrack leaves the marks that the frame counts and goes to this
       position;
    2. `markedText_of_behind`, `binds_of_move`: so a definition finds a stretch of the input, and nothing else is
       ever bound;
    3. `bindings_real`: all of this for the runs of any context, and that the marks which a frame counts are those
       there were when it was saved.
-/
namespace PegMachine

namespace Input

/-- The text is a stretch of the input. -/
def Holds (input : Input) (text : Bytes) : Prop :=
  ∃ start stop, start ≤ stop ∧ stop ≤ input.size ∧ text = (input.extract start stop).toList

theorem slice?_eq_some {input : Input} {start stop : Nat} (order : start ≤ stop) (inside : stop ≤ input.size) :
    input.slice? start stop = some (input.extract start stop).toList := if_pos ⟨order, inside⟩

end Input

/-- All marks lie behind the cursor, and those that a frame counts behind the position that it saved. -/
structure Machine.Behind (m : Machine) : Prop where
  marks : ∀ mark ∈ m.work.marks, mark ≤ m.pos
  frames : ∀ f ∈ m.work.backtrack, ∀ mark ∈ m.work.marks.toList.take f.markDepth, mark ≤ f.pos

namespace Machine.Behind

variable {m x : Machine} {f : Frame}

theorem of_start (pc pos : Nat) (pool : Pool) : (Machine.start pc pos pool).Behind := ⟨nofun, nofun⟩

/-- Only marks, frames and cursor matter, and the cursor may have gone forward. -/
theorem forward (h : m.Behind) (backtrack : x.work.backtrack = m.work.backtrack) (marks : x.work.marks = m.work.marks)
    (forward : m.pos ≤ x.pos) : x.Behind where
  marks mark hmark := Nat.le_trans (h.marks mark (marks ▸ hmark)) forward
  frames f hf mark hmark := h.frames f (backtrack ▸ hf) mark (marks ▸ hmark)

theorem popFrame (h : m.Behind) : m.popFrame.Behind :=
  ⟨h.marks, fun f hf => h.frames f (mem_of_mem_pop hf)⟩

/-- A frame that is saved now counts all marks and saves the cursor. -/
theorem pushFrame (h : m.Behind) (alternative : Nat) : (m.pushFrame (m.frame alternative)).Behind where
  marks := h.marks
  frames f hf mark hmark := by
    rcases Array.mem_push.1 hf with old | rfl
    · exact h.frames f old mark hmark
    · exact h.marks mark (Array.mem_toList_iff.1 (List.mem_of_mem_take hmark))

/-- A restored frame leaves the marks that it counts, and puts the cursor where it was saved. -/
theorem restore (h : m.Behind) (top : m.work.backtrack.back? = some f) : (m.popFrame.restore f).Behind where
  marks mark hmark := by
    refine h.frames f (Array.mem_of_back? top) mark ?_
    rw [← Array.toList_shrink]
    exact Array.mem_toList_iff.2 hmark
  frames g hg mark hmark := by
    refine h.frames g (mem_of_mem_pop hg) mark ?_
    have hmarks : (m.popFrame.restore f).work.marks.toList = m.work.marks.toList.take f.markDepth :=
      Array.toList_shrink
    rw [hmarks, List.take_take] at hmark
    exact List.take_subset_take_left _ (Nat.min_le_left ..) hmark

theorem pushMark (h : m.Behind) (layered : m.work.Layered) : m.pushMark.Behind where
  marks mark hmark := by
    rcases Array.mem_push.1 hmark with old | rfl
    · exact h.marks mark old
    · exact Nat.le_refl _
  frames f hf mark hmark := by
    have counted : f.markDepth ≤ m.work.marks.toList.length := layered.counted f hf
    have hmarks : m.pushMark.work.marks.toList = m.work.marks.toList ++ [m.pos] := Array.toList_push
    rw [hmarks, List.take_append_of_le_length counted] at hmark
    exact h.frames f hf mark hmark

theorem useMark (h : m.Behind) : m.useMark.Behind := by
  by_cases free : m.work.pinnedMarks < m.work.marks.size
  · have used : m.work.useMark = { m.work with marks := m.work.marks.pop } := if_pos free
    rw [Machine.useMark, used]
    refine ⟨fun mark hmark => h.marks mark (mem_of_mem_pop hmark), fun f hf mark hmark => ?_⟩
    refine h.frames f hf mark ?_
    rw [Array.toList_pop, List.dropLast_eq_take, List.take_take] at hmark
    exact List.take_subset_take_left _ (Nat.min_le_left ..) hmark
  · have kept : m.work.useMark = m.work := if_neg free
    rw [Machine.useMark, kept]
    exact h

end Machine.Behind

namespace Setting

variable {s : Setting} {m m' : Machine} {i : Instruction} {start : Nat}

theorem behind_of_move (inside : m.pos ≤ s.input.size) (layered : m.work.Layered) (h : s.Move m i m')
    (hm : m.Behind) : m'.Behind := by
  have going {x y : Machine} (hx : x.Behind) (backtrack : y.work.backtrack = x.work.backtrack)
      (marks : y.work.marks = x.work.marks) (pos : y.pos = x.pos) : y.Behind :=
    hx.forward backtrack marks (Nat.le_of_eq pos.symm)
  cases h with
  | consumed i count looks done => exact hm.forward rfl rfl (pos_le_of_consumes inside looks done).1
  | jumped | switched | called | returned | opened | closed | tagged | valued | scopeBegun | scopeEnded =>
    exact going hm rfl rfl rfl
  | marked => exact going (hm.pushMark layered) rfl rfl rfl
  | defined => exact going hm.useMark rfl rfl rfl
  | chose alternative => exact going (hm.pushFrame alternative) rfl rfl rfl
  | committed => exact going hm.popFrame rfl rfl rfl
  | refreshed target f => exact going (hm.popFrame.pushFrame f.alternative) rfl rfl rfl
  | wentBack target f top => exact going (hm.restore top) rfl rfl rfl
  | failed i f fails done top => exact going (hm.restore top) rfl rfl rfl
  | failedTwice f g top next => exact going (hm.popFrame.restore next) rfl rfl rfl

/-! ## Definitions -/

/-- A definition finds the text from its mark to the cursor in the input. -/
theorem markedText_of_behind (inside : m.pos ≤ s.input.size) (hm : m.Behind) {mark : Nat}
    (top : m.work.marks.back? = some mark) :
    mark ≤ m.pos ∧ s.input.slice? mark m.pos = some (s.input.extract mark m.pos).toList ∧
      s.markedText m mark = (s.input.extract mark m.pos).toList := by
  have order := hm.marks mark (Array.mem_of_back? top)
  have found := Input.slice?_eq_some order inside
  exact ⟨order, found, by rw [markedText, found, Option.getD_some]⟩

/-- What a definition that succeeds takes and binds. -/
theorem perform_define_eq_next {table : String} (h : s.perform (.define table) m = .next m') :
    ∃ mark, m.work.marks.back? = some mark ∧
      m' = m.useMark.pushSymbol (.binding table (s.markedText m mark)) := by
  simp only [perform] at h
  split at h
  · cases h
  · next mark top =>
    split at h
    · exact ⟨mark, top, (Effect.next.inj h).symm⟩
    · cases h

/-- Every text in the symbol table is a stretch of the input. -/
def Binds (s : Setting) (m : Machine) : Prop :=
  ∀ table text, SymbolEntry.binding table text ∈ m.work.symbols → s.input.Holds text

theorem binds_of_move (inside : m.pos ≤ s.input.size) (behind : m.Behind) (h : s.Move m i m') (hm : s.Binds m) :
    s.Binds m' := by
  cases h with
  | defined table mark top =>
    obtain ⟨order, -, hmarked⟩ := markedText_of_behind inside behind top
    intro table' text hmem
    rcases Array.mem_push.1 hmem with old | new
    · exact hm table' text (m.useMark_symbols ▸ old)
    · obtain ⟨rfl, rfl⟩ := SymbolEntry.binding.inj new
      exact ⟨mark, m.pos, order, inside, hmarked⟩
  | scopeBegun =>
    intro table text hmem
    rcases Array.mem_push.1 hmem with old | new
    · exact hm table text old
    · cases new
  | scopeEnded | wentBack | failed | failedTwice =>
    exact fun table text hmem => hm table text (mem_of_mem_shrink hmem)
  | _ => exact hm

/-! ## Runs -/

/-- What every move keeps of marks and bindings, in a run that began at `start`. -/
structure Records (s : Setting) (start : Nat) (m : Machine) : Prop where
  within : m.Within start s.input.size
  layered : m.work.Layered
  behind : m.Behind
  binds : s.Binds m

theorem records_of_move (h : s.Move m i m') (hm : s.Records start m) : s.Records start m' where
  within := within_of_move h hm.within
  layered := layered_of_move h hm.layered
  behind := behind_of_move hm.within.pos_le_size hm.layered h hm.behind
  binds := binds_of_move hm.within.pos_le_size hm.behind h hm.binds

/-! ## The frames in a run -/

/-- A frame that is there after a step was saved by it, or was there before and the step did not refresh it. -/
theorem saves_or_keeps {d : Nat} (h : s.step m = .running m') (there : d < m'.work.backtrack.size) :
    (∃ f, s.Saves m d f) ∨ s.Keeps d m := by
  obtain ⟨i, code, move⟩ := move_of_step h
  have keeps (hd : d < m.work.backtrack.size) (other : ∀ target, i ≠ .partialCommit target) : s.Keeps d m :=
    ⟨hd, fun target hcode => absurd (Option.some.inj (code.symm.trans hcode)) (other target)⟩
  have popped {xs : Array Frame} (hd : d < xs.pop.size) : d < xs.size := by
    rw [Array.size_pop] at hd
    omega
  cases move with
  | chose alternative =>
    rcases Nat.lt_or_ge d m.work.backtrack.size with old | new
    · exact .inr (keeps old nofun)
    · have hd : d < (m.work.backtrack.push (m.frame alternative)).size := there
      rw [Array.size_push] at hd
      obtain rfl : d = m.work.backtrack.size := by omega
      exact .inl ⟨_, .pushed alternative code⟩
  | refreshed target f top =>
    have hd : d < (m.work.backtrack.pop.push (m.frame f.alternative)).size := there
    rw [Array.size_push, Array.size_pop] at hd
    rcases Nat.lt_or_ge (d + 1) m.work.backtrack.size with old | new
    · exact .inr ⟨by omega, fun _ _ => old⟩
    · obtain rfl : d = m.work.backtrack.size - 1 := by omega
      exact .inl ⟨_, .refreshed target f code top⟩
  | consumed i count looks => exact .inr (keeps there (by rintro target rfl; cases looks))
  | failed i f fails => exact .inr (keeps (popped there) (by rintro target rfl; cases fails))
  | committed | wentBack => exact .inr (keeps (popped there) nofun)
  | failedTwice => exact .inr (keeps (popped (popped there)) nofun)
  | defined => exact .inr (keeps (m.useMark_backtrack ▸ there) nofun)
  | _ => exact .inr (keeps there nofun)

/-- Every frame was saved by some step of the run and has not been refreshed since. -/
theorem saved_of_trace {t : Nat → Machine} {n d j : Nat} (fresh : (t 0).work.backtrack = #[]) (run : s.Trace t n)
    (hn : j ≤ n) (there : d < (t j).work.backtrack.size) :
    ∃ k < j, (∃ f, s.Saves (t k) d f) ∧ ∀ l, k < l → l < j → s.Keeps d (t l) := by
  induction j with
  | zero =>
    rw [fresh] at there
    cases there
  | succ j ih =>
    rcases saves_or_keeps (run j hn) there with saves | keeps
    · exact ⟨j, Nat.lt_succ_self j, saves, fun l hl hl' => by omega⟩
    · obtain ⟨k, hk, saves, stays⟩ := ih (by omega) keeps.1
      refine ⟨k, Nat.lt_succ_of_lt hk, saves, fun l hl hl' => ?_⟩
      rcases Nat.lt_succ_iff_lt_or_eq.1 hl' with hlt | rfl
      · exact stays l hl hlt
      · exact keeps

/-- The marks that a frame counts stay what they were when it was saved, for as long as it stays. -/
theorem marks_of_stays {t : Nat → Machine} {n d j k : Nat} {f : Frame} (exact : (t k).work.log.Exact)
    (run : s.Trace t n) (order : k < j) (hn : j ≤ n) (saves : s.Saves (t k) d f)
    (stays : ∀ l, k < l → l < j → s.Keeps d (t l)) (there : d < (t j).work.backtrack.size) :
    (t j).work.backtrack[d]? = some f ∧ (t j).work.marks.toList.take f.markDepth = (t k).work.marks.toList := by
  obtain ⟨count, rfl⟩ : ∃ count, j = k + 1 + count := ⟨j - (k + 1), by omega⟩
  have guarded : Guarded (t k).work False False False ((t k).work.backtrack.toList.take d) f
      (t (k + 1 + count)).work :=
    guarded_of_stays (fun l hl => run l (by omega)) exact saves stays there nofun nofun nofun
  obtain ⟨above, hframes, -⟩ := guarded.frames
  obtain ⟨alternative, rfl⟩ := saves.eq_frame
  have hlen : ((t k).work.backtrack.toList.take d).length = d := by
    rw [List.length_take, Array.length_toList]
    exact Nat.min_eq_left saves.le_size
  constructor
  · rw [← Array.getElem?_toList, hframes, List.getElem?_append_right (Nat.le_of_eq hlen), hlen, Nat.sub_self,
      List.getElem?_cons_zero]
  · rw [← Array.toList_shrink]
    exact congrArg Array.toList (shrink_of_begins guarded.marks)

/-- Every frame was saved by some step of the run, and the marks that it counts have been the same since. -/
theorem marks_of_trace {t : Nat → Machine} {n d j : Nat} {f : Frame} (fresh : (t 0).work = .empty) (run : s.Trace t n)
    (hn : j ≤ n) (there : (t j).work.backtrack[d]? = some f) :
    ∃ k < j, s.Saves (t k) d f ∧ f.markDepth = (t k).work.marks.size ∧
      ∀ l, k < l → l ≤ j → (t l).work.backtrack[d]? = some f ∧
        (t l).work.marks.toList.take f.markDepth = (t k).work.marks.toList := by
  have hd : d < (t j).work.backtrack.size := (Array.getElem?_eq_some_iff.1 there).1
  obtain ⟨k, hk, ⟨g, saves⟩, stays⟩ := saved_of_trace (congrArg Stacks.backtrack fresh) run hn hd
  have exact : (t k).work.log.Exact :=
    invariant_of_reaches (fun _ _ _ _ => exact_of_move) (run.reaches k (by omega)) (fresh.symm ▸ .empty)
  have kept (l : Nat) (hl : k < l) (hlj : l ≤ j) : (t l).work.backtrack[d]? = some g ∧
      (t l).work.marks.toList.take g.markDepth = (t k).work.marks.toList := by
    refine marks_of_stays exact run hl (by omega) saves (fun l' hk' hl' => stays l' hk' (by omega)) ?_
    rcases Nat.lt_or_eq_of_le hlj with hlt | rfl
    · exact (stays l hl hlt).1
    · exact hd
  obtain rfl : g = f := Option.some.inj ((kept j hk (Nat.le_refl j)).1.symm.trans there)
  have counts : g.markDepth = (t k).work.marks.size := by
    obtain ⟨alternative, rfl⟩ := saves.eq_frame
    rfl
  exact ⟨k, hk, saves, counts, kept⟩

end Setting

/-! ## Contexts -/

namespace Context

variable {c : Context} {program : Program}

theorem records_of_reaches {m : Machine} (h : (c.setting program).Reaches c.machine m) :
    (c.setting program).Records c.startPos m :=
  Setting.invariant_of_reaches (fun _ _ _ _ => Setting.records_of_move) h
    ⟨c.within_start, .empty, .of_start .., nofun⟩

/-- **Bindings hold real input.** In every state of every run, whatever the program:
    - no frame counts fewer marks than one below it, or more than there are; the marks that it counts lie behind
      the position that it saved, and all marks behind the cursor;
    - a definition that succeeds binds the input from the last mark to the cursor, which is a stretch of it, so
      that it never has to bind an empty text in its place;
    - every text in the symbol table is a stretch of the input.
    And every frame that is there was saved by some step, by a `choice` or as the last refresh of a `partialCommit`,
    and the marks that it counts have ever since been all the marks there were then. -/
theorem bindings_real (c : Context) (program : Program) :
    let s := c.setting program
    (∀ m, s.Reaches c.machine m →
      m.work.backtrack.toList.Pairwise (·.markDepth ≤ ·.markDepth) ∧
      (∀ f ∈ m.work.backtrack, f.markDepth ≤ m.work.marks.size ∧
        ∀ mark ∈ m.work.marks.toList.take f.markDepth, mark ≤ f.pos) ∧
      (∀ mark ∈ m.work.marks, mark ≤ m.pos) ∧
      (∀ table m', s.perform (.define table) m = .next m' →
        ∃ mark, m.work.marks.back? = some mark ∧ mark ≤ m.pos ∧ m.pos ≤ c.input.size ∧
          c.input.slice? mark m.pos = some (c.input.extract mark m.pos).toList ∧
          m' = m.useMark.pushSymbol (.binding table (c.input.extract mark m.pos).toList)) ∧
      ∀ table text, SymbolEntry.binding table text ∈ m.work.symbols → c.input.Holds text) ∧
    ∀ t n, t 0 = c.machine → s.Trace t n → ∀ j ≤ n, ∀ d f, (t j).work.backtrack[d]? = some f →
      ∃ k < j, s.Saves (t k) d f ∧ f.markDepth = (t k).work.marks.size ∧
        ∀ l, k < l → l ≤ j → (t l).work.backtrack[d]? = some f ∧
          (t l).work.marks.toList.take f.markDepth = (t k).work.marks.toList := by
  intro s
  refine ⟨fun m reached => ?_, fun t n first run j hn d f there => ?_⟩
  · have hm := records_of_reaches reached
    have inside : m.pos ≤ c.input.size := hm.within.pos_le_size
    refine ⟨hm.layered.rising, fun f hf => ⟨hm.layered.counted f hf, hm.behind.frames f hf⟩, hm.behind.marks,
      fun table m' done => ?_, hm.binds⟩
    obtain ⟨mark, top, rfl⟩ := Setting.perform_define_eq_next done
    obtain ⟨order, found, hmarked⟩ := Setting.markedText_of_behind (s := s) inside hm.behind top
    exact ⟨mark, top, order, inside, found, by rw [hmarked]; rfl⟩
  · exact Setting.marks_of_trace (by rw [first]; rfl) run hn there

/-- Marks, consumes a byte, and saves a frame that counts the mark. Binds the byte, marks again, consumes another
    byte, and fails; the alternative binds again. -/
def rebinding : Program :=
  .ofList [.exit, .mark, .any, .choice 8, .define "T", .mark, .any, .fail, .any, .define "T", .exit]

def rebindingContext : Context := { new {} with input := #[97, 98, 99], startPoint := 1 }

theorem bindings_real_rebinding :
    let s := rebindingContext.setting rebinding
    let t := s.states rebindingContext.machine
    (t 6).work.marks = #[0, 1] ∧
    (∃ k < 6, ∃ f, s.Saves (t k) 0 f ∧ (t 6).work.marks.toList.take f.markDepth = (t k).work.marks.toList) ∧
    (t 8).work.marks = #[0] ∧ (t 8).pos = 2 ∧
    ∃ m', s.perform (.define "T") (t 8) = .next m' ∧ m'.work.symbols = #[.binding "T" [97, 98]] := by
  intro s t
  obtain ⟨states, frames⟩ := bindings_real rebindingContext rebinding
  have run : s.Trace t 6 := Setting.trace_of_goesOn (by decide +kernel)
  obtain ⟨f, hf⟩ : ∃ f, (t 6).work.backtrack[0]? = some f := Option.isSome_iff_exists.1 (by decide +kernel)
  obtain ⟨k, hk, saves, -, kept⟩ := frames t 6 rfl run 6 (Nat.le_refl 6) 0 f hf
  obtain ⟨-, -, -, binds, -⟩ := states (t 8) (Setting.reaches_states s _ 8)
  have pending : (t 8).work.marks.back? = some 0 := by decide +kernel
  have room : (t 8).work.symbols.size < s.config.maxSymbols := by decide +kernel
  obtain ⟨m', done⟩ : ∃ m', s.perform (.define "T") (t 8) = .next m' :=
    ⟨_, by simp only [Setting.perform, pending, if_pos room]; rfl⟩
  obtain ⟨mark, top, -, -, -, rfl⟩ := binds "T" m' done
  obtain rfl : mark = 0 := Option.some.inj (top.symm.trans pending)
  exact ⟨by decide +kernel, ⟨k, hk, f, saves, (kept 6 hk (Nat.le_refl 6)).2⟩, by decide +kernel, by decide +kernel,
    _, done, by decide +kernel⟩

end Context

end PegMachine
