import Mathlib.Order.Bounds.Basic
import PegMachine.Proofs.Run.Contexts
import PegMachine.Proofs.Run.Lookahead
/-!
  The cursor stays inside the input.

  Matchers, and look-ups of bound texts, move the cursor on by what they have found in the input; backtracks
  move it to where it was when a frame was saved. So it is never before the start of the run and never past
  the end of the input, and neither is any saved position. What is proved:
    1. `pos_le_of_consumes`: an instruction consumes no more bytes than there are from the cursor on;
    2. `Within`, `within_of_move`: the bounds on the cursor, the furthest cursor and the frames, which every
       move keeps;
    3. `isGreatest_furthest`: the furthest cursor is the greatest that the run had after any instruction,
       before a backtrack took it back;
    4. `cursor_inside`: all of this for the runs of any context that can come about.
-/
namespace PegMachine

/-! ## What is found in the input -/

namespace Machine

variable {m m' : Machine} {test : Bool} {count : Nat}

theorem take_eq_next (h : m.take test count = .next m') : test = true ∧ m' = m.advance count := by
  cases test with
  | true => exact ⟨rfl, (Effect.next.inj h).symm⟩
  | false => cases h

theorem skip_eq_next (h : m.skip test count = .next m') : test = true ∧ m' = m.advance count ∨ m' = m := by
  cases test with
  | true => exact .inl ⟨rfl, (Effect.next.inj h).symm⟩
  | false => exact .inr (Effect.next.inj h).symm

theorem refuse_eq_next (h : m.refuse test = .next m') : m' = m := by
  cases test with
  | true => cases h
  | false => exact (Effect.next.inj h).symm

theorem takeText_eq_next {text? : Option Bytes} (h : m.takeText text? = .next m') :
    ∃ text, text? = some text ∧ m' = m.advance text.length := by
  cases text? with
  | some text => exact ⟨text, rfl, (Effect.next.inj h).symm⟩
  | none => cases h

end Machine

namespace Setting

variable {s : Setting} {m m' : Machine} {i : Instruction}

theorem lt_of_sees {p : UInt8 → Bool} (h : s.sees m p = true) : m.pos < s.input.size := by
  rw [sees, next?] at h
  cases hbyte : s.input[m.pos]? with
  | some b => exact (Array.getElem?_eq_some_iff.1 hbyte).1
  | none =>
    rw [hbyte] at h
    cases h

/-- An instruction that consumes bytes leaves the cursor between where it was and the end of the input. -/
theorem pos_le_of_consumes (inside : m.pos ≤ s.input.size) (h : i.consumes = true)
    (done : s.perform i m = .next m') : m.pos ≤ m'.pos ∧ m'.pos ≤ s.input.size := by
  have forward {count : Nat} (hcount : m.pos + count ≤ s.input.size) :
      m.pos ≤ (m.advance count).pos ∧ (m.advance count).pos ≤ s.input.size :=
    ⟨Nat.le_add_right m.pos count, hcount⟩
  have literal {text : Bytes} (ht : s.seesLiteral m text = true) : m.pos + text.length ≤ s.input.size :=
    Input.add_length_le_of_hasAt inside ht
  cases i with
  | any | charRange | charSet =>
    obtain ⟨seen, rfl⟩ := Machine.take_eq_next done
    exact forward (lt_of_sees seen)
  | string =>
    obtain ⟨seen, rfl⟩ := Machine.take_eq_next done
    exact forward (literal seen)
  | notCharSet | notString =>
    obtain rfl := Machine.refuse_eq_next done
    exact ⟨Nat.le_refl _, inside⟩
  | optionalCharSet =>
    obtain ⟨seen, rfl⟩ | rfl := Machine.skip_eq_next done
    · exact forward (lt_of_sees seen)
    · exact ⟨Nat.le_refl _, inside⟩
  | optionalString =>
    obtain ⟨seen, rfl⟩ | rfl := Machine.skip_eq_next done
    · exact forward (literal seen)
    · exact ⟨Nat.le_refl _, inside⟩
  | zeroMoreCharSet set =>
    obtain rfl := (Effect.next.inj done).symm
    have := Input.skipWhile_le set.contains inside
    exact forward (by rw [runLength]; omega)
  | is table =>
    obtain ⟨text, htext, rfl⟩ := Machine.takeText_eq_next done
    exact forward (literal (Option.filter_eq_some_iff.1 htext).2)
  | isa table =>
    obtain ⟨text, htext, rfl⟩ := Machine.takeText_eq_next done
    exact forward (literal (List.find?_some htext))
  | _ => cases h

end Setting

/-! ## The bounds -/

/-- In a run that began at `start`, over an input of this size: the cursor and the saved positions lie between
    the start and the furthest cursor, which lies inside the input. -/
structure Machine.Within (start size : Nat) (m : Machine) : Prop where
  start_le : start ≤ m.pos
  pos_le : m.pos ≤ m.furthest
  furthest_le : m.furthest ≤ size
  frames : ∀ f ∈ m.work.backtrack, start ≤ f.pos ∧ f.pos ≤ m.furthest

namespace Machine.Within

variable {start size pc : Nat} {m x : Machine} {f : Frame}

theorem of_start (h : start ≤ size) (pc : Nat) (pool : Pool) : (Machine.start pc start pool).Within start size :=
  ⟨Nat.le_refl _, Nat.le_refl _, h, nofun⟩

theorem pos_le_size (h : m.Within start size) : m.pos ≤ size := Nat.le_trans h.pos_le h.furthest_le

/-- Going on with the cursor further or where it was, and with no frames but old ones and one saved now. -/
theorem moveOn (h : m.Within start size) (hfurthest : x.furthest = m.furthest)
    (hpos : start ≤ x.pos ∧ x.pos ≤ size)
    (hframes : ∀ f ∈ x.work.backtrack, f ∈ m.work.backtrack ∨ f.pos = x.pos) :
    (x.moveOn pc).Within start size where
  start_le := hpos.1
  pos_le := Nat.le_max_right ..
  furthest_le := Nat.max_le.2 ⟨hfurthest ▸ h.furthest_le, hpos.2⟩
  frames f hf := by
    show start ≤ f.pos ∧ f.pos ≤ max x.furthest x.pos
    rcases hframes f hf with old | saved
    · have := h.frames f old
      omega
    · have := hpos.1
      omega

/-- Going on with cursor and frames as they were, but for frames that were dropped. -/
theorem stay (h : m.Within start size) (hfurthest : x.furthest = m.furthest) (hpos : x.pos = m.pos)
    (hframes : ∀ f ∈ x.work.backtrack, f ∈ m.work.backtrack) : (x.moveOn pc).Within start size :=
  h.moveOn hfurthest (hpos ▸ ⟨h.start_le, h.pos_le_size⟩) fun f hf => .inl (hframes f hf)

theorem resume (h : m.Within start size) (top : m.work.backtrack.back? = some f) :
    (m.resume f).Within start size := by
  obtain ⟨hstart, hpos⟩ := h.frames f (Array.mem_of_back? top)
  have hfurthest : (m.resume f).furthest = m.furthest := Nat.max_eq_left h.pos_le
  refine ⟨hstart, hfurthest ▸ hpos, hfurthest ▸ h.furthest_le, fun g hg => ?_⟩
  rw [hfurthest]
  exact h.frames g (mem_of_mem_pop hg)

theorem popFrame (h : m.Within start size) : m.popFrame.Within start size :=
  ⟨h.start_le, h.pos_le, h.furthest_le, fun f hf => h.frames f (mem_of_mem_pop hf)⟩

end Machine.Within

namespace Setting

variable {s : Setting} {m m' : Machine} {i : Instruction} {start : Nat}

/-- Every move keeps the bounds. -/
theorem within_of_move (h : s.Move m i m') (hm : m.Within start s.input.size) : m'.Within start s.input.size := by
  cases h with
  | consumed i count looks done =>
    obtain ⟨hle, hsize⟩ := pos_le_of_consumes hm.pos_le_size looks done
    exact hm.moveOn rfl ⟨Nat.le_trans hm.start_le hle, hsize⟩ fun f hf => .inl hf
  | chose alternative =>
    refine hm.moveOn rfl ⟨hm.start_le, hm.pos_le_size⟩ fun f hf => ?_
    refine (Array.mem_push.1 hf).imp_right ?_
    rintro rfl
    rfl
  | refreshed target old =>
    refine hm.moveOn rfl ⟨hm.start_le, hm.pos_le_size⟩ fun f hf => ?_
    refine (Array.mem_push.1 hf).imp mem_of_mem_pop ?_
    rintro rfl
    rfl
  | wentBack target f top =>
    obtain ⟨hstart, hpos⟩ := hm.frames f (Array.mem_of_back? top)
    exact hm.moveOn rfl ⟨hstart, Nat.le_trans hpos hm.furthest_le⟩ fun g hg => .inl (mem_of_mem_pop hg)
  | committed => exact hm.stay rfl rfl fun f hf => mem_of_mem_pop hf
  | failed i f fails done top => exact hm.resume top
  | failedTwice f g top next => exact hm.popFrame.resume next
  | defined => exact hm.stay rfl rfl fun f hf => m.useMark_backtrack ▸ hf
  | jumped | switched | called | returned | opened | closed | tagged | valued | marked | scopeBegun | scopeEnded =>
    exact hm.stay rfl rfl fun f hf => hf

theorem within_of_reaches (h : s.Reaches m m') (hm : m.Within start s.input.size) :
    m'.Within start s.input.size :=
  invariant_of_reaches (fun _ _ _ _ => within_of_move) h hm

/-- The machine that a failed match leaves behind is within the bounds too. -/
theorem within_of_halted {matched : Bool} (h : s.step m = .halted matched m')
    (hm : m.Within start s.input.size) : m'.Within start s.input.size := by
  have noted {x : Machine} (hx : x.Within start s.input.size) : x.noteCursor.Within start s.input.size := by
    have same : (x.moveOn x.pc).Within start s.input.size := hx.stay rfl rfl fun f hf => hf
    exact same
  obtain ⟨i, -, ⟨-, -, rfl⟩ | ⟨m₁, -, done, -, rfl⟩⟩ := step_halted h
  · exact noted hm
  · obtain rfl | ⟨-, rfl, -⟩ := perform_eq_fail done
    · exact noted hm
    · exact noted hm.popFrame

end Setting

/-! ## The furthest cursor -/

namespace Setting

variable {s : Setting} {m m' : Machine}

/-- The cursor after the next instruction, before a backtrack takes it back. -/
def cursorAfter (s : Setting) (m : Machine) : Nat :=
  match s.program.at? m.pc with
  | some i => (s.dispatch i m).machine.pos
  | none => m.pos

theorem cursorAfter_of_code {i : Instruction} (code : s.program.at? m.pc = some i) :
    s.cursorAfter m = (s.perform i m).machine.pos := by
  simp only [cursorAfter, code, dispatch_eq]

/-- A step keeps the furthest cursor up to date. -/
theorem furthest_of_step (h : s.step m = .running m') : m'.furthest = max m.furthest (s.cursorAfter m) := by
  obtain ⟨i, code, -⟩ := move_of_step h
  rw [step_of_code code] at h
  rw [cursorAfter_of_code code, ← (perform_keeps i m).2]
  cases he : s.perform i m with
  | next m₁ =>
    rw [he] at h
    rw [settle_next h]
    rfl
  | goto target m₁ =>
    rw [he] at h
    rw [settle_goto h]
    rfl
  | fail m₁ =>
    rw [he] at h
    obtain ⟨f, -, rfl⟩ := settle_fail h
    rfl
  | accept | stop =>
    rw [he] at h
    cases h

theorem furthest_of_halted {matched : Bool} (h : s.step m = .halted matched m') :
    m'.furthest = max m.furthest (s.cursorAfter m) := by
  obtain ⟨i, code, ⟨-, done, rfl⟩ | ⟨m₁, -, done, -, rfl⟩⟩ := step_halted h
  · rw [cursorAfter_of_code code, done]
    rfl
  · have kept := (perform_keeps (s := s) i m).2
    rw [done] at kept
    rw [cursorAfter_of_code code, done, ← kept]
    rfl

/-- The cursor at the start of a run and after each of its first `n` instructions. -/
def cursors (s : Setting) (m : Machine) (n : Nat) : Set Nat :=
  insert m.pos {p | ∃ k < n, s.cursorAfter (s.states m k) = p}

theorem cursors_succ (n : Nat) : s.cursors m (n + 1) = insert (s.cursorAfter (s.states m n)) (s.cursors m n) := by
  rw [cursors, cursors, Set.insert_comm]
  congr 1
  ext p
  constructor
  · rintro ⟨k, hk, rfl⟩
    rcases Nat.lt_succ_iff_lt_or_eq.1 hk with hk | rfl
    · exact .inr ⟨k, hk, rfl⟩
    · exact .inl rfl
  · rintro (rfl | ⟨k, hk, rfl⟩)
    · exact ⟨n, Nat.lt_succ_self n, rfl⟩
    · exact ⟨k, Nat.lt_succ_of_lt hk, rfl⟩

/-- In every state of a run the furthest cursor is the greatest there has been. -/
theorem isGreatest_furthest (fresh : m.furthest = m.pos) {n : Nat} (trace : s.Trace (s.states m) n) :
    IsGreatest (s.cursors m n) (s.states m n).furthest := by
  induction n with
  | zero =>
    have hnone : {p | ∃ k < 0, s.cursorAfter (s.states m k) = p} = ∅ := by simp
    rw [cursors, hnone, insert_empty_eq, states, fresh]
    exact isGreatest_singleton
  | succ n ih =>
    rw [cursors_succ, furthest_of_step (trace n (Nat.lt_succ_self n)), max_comm]
    exact (ih fun k hk => trace k (by omega)).insert _

end Setting

/-! ## Contexts -/

namespace Context

variable {c c' : Context} {program : Program} {fuel : Nat} {outcome : Outcome}

theorem within_start (c : Context) : c.machine.Within c.startPos c.input.size :=
  .of_start (Nat.min_le_right ..) c.startPoint c.pool

/-- The machine at the end of a run is within the bounds, however the run ended. -/
theorem within_of_execute {halt : Halt} (h : (c.setting program).execute fuel c.machine = some halt) :
    halt.machine.Within c.startPos c.input.size := by
  obtain ⟨last, reached, hlast⟩ := Setting.reaches_of_execute h
  have hwithin := Setting.within_of_reaches reached c.within_start
  obtain ⟨m, result⟩ := halt
  cases result with
  | ok matched => exact Setting.within_of_halted hlast hwithin
  | error error =>
    obtain ⟨rfl, -⟩ := Setting.step_stopped hlast
    exact hwithin

theorem pos_le_of_run (h : c.run program fuel = some (outcome, c')) (inside : c.pos ≤ c.input.size) :
    c'.pos ≤ c'.input.size := by
  rcases run_cases h with ⟨-, hresult⟩ | ⟨-, halt, hexec, hresult⟩
  · cases hresult
    exact inside
  · obtain ⟨work, root, pool, hc⟩ := conclude_context c halt
    simp only [hresult] at hc
    subst hc
    exact (within_of_execute hexec).pos_le_size

theorem Reachable.pos_le (h : c.Reachable) : c.pos ≤ c.input.size := by
  induction h with
  | new | loaded => exact Nat.zero_le _
  | loadedInto _ options bytes rule? ih =>
    rw [loadInto]
    split <;> exact ih
  | used _ use ih =>
    cases use with
    | setInput | rewind => exact Nat.zero_le _
    | setPos pos => exact Nat.min_le_right ..
    | takeRoot => exact ih
    | run run => exact pos_le_of_run run ih
    | runProfiled run => exact pos_le_of_run (run_of_runProfiled run) ih

/-- **The cursor never leaves the input.** In a context that can come about the cursor is inside the input.
    During a run from there, of whatever program, it lies between where it was and the furthest cursor, which
    is inside the input, and so do all saved positions. If the run fails it reports the cursor and the
    greatest cursor that it had, at the start or after any of its instructions. -/
theorem cursor_inside (h : c.Reachable) (program : Program) :
    c.pos ≤ c.input.size ∧
    (∀ m, (c.setting program).Reaches c.machine m →
      c.pos ≤ m.pos ∧ m.pos ≤ m.furthest ∧ m.furthest ≤ c.input.size ∧
        ∀ f ∈ m.work.backtrack, c.pos ≤ f.pos ∧ f.pos ≤ c.input.size) ∧
    (∀ fuel failure c', c.run program fuel = some (.failed failure, c') →
      c.pos ≤ failure.pos ∧ failure.pos ≤ failure.furthest ∧ failure.furthest ≤ c.input.size ∧
        ∃ n left, (c.setting program).Trace ((c.setting program).states c.machine) n ∧
          (c.setting program).step ((c.setting program).states c.machine n) = .halted false left ∧
          IsGreatest ((c.setting program).cursors c.machine (n + 1)) failure.furthest) ∧
    (∀ profile profile' fuel result, c.runProfiled program profile fuel = some (profile', result) →
      c.run program fuel = some result) := by
  have inside := h.pos_le
  have hstart : c.startPos = c.pos := Nat.min_eq_left inside
  refine ⟨inside, fun m reached => ?_, fun fuel failure c' hrun => ?_, fun _ _ _ _ => run_of_runProfiled⟩
  · have hm : m.Within c.startPos c.input.size := Setting.within_of_reaches reached c.within_start
    rw [hstart] at hm
    refine ⟨hm.start_le, hm.pos_le, hm.furthest_le, fun f hf => ?_⟩
    obtain ⟨hlow, hhigh⟩ := hm.frames f hf
    exact ⟨hlow, Nat.le_trans hhigh hm.furthest_le⟩
  · rcases run_cases hrun with ⟨-, hresult⟩ | ⟨-, halt, hexec, hresult⟩
    · cases hresult
    · -- Only a run that halts without a match reports a failure.
      obtain ⟨left, rfl, rfl⟩ := halt_of_failed hresult
      have hm := within_of_execute hexec
      rw [hstart] at hm
      obtain ⟨n, trace, last⟩ := Setting.trace_of_execute hexec
      refine ⟨hm.start_le, hm.pos_le, hm.furthest_le, n, left, trace, last, ?_⟩
      rw [Setting.cursors_succ, Setting.furthest_of_halted last, max_comm]
      exact (Setting.isGreatest_furthest rfl trace).insert _

/-- Consumes a byte, then tries to consume two more, and then fails. -/
def retreating : Program := .ofList [.exit, .any, .choice 5, .any, .any, .fail]

/-- The program behind an empty header of version 0.1. -/
def retreatingBytes : Bytes :=
  [0, 1] ++ toBigEndian 4 0 ++ toBigEndian 4 0 ++ toBigEndian 4 0 ++ toBigEndian 8 6 ++
    [0, 10] ++ [4, 0, 0, 0, 5] ++ [10, 10, 8]

/-- Where it is run: behind the first of three bytes. -/
def retreatingContext : Context :=
  ((ofLoaded {} ⟨⟨⟨0, 1⟩, "", 0, #[], 6⟩, retreating, 1, 0⟩).setInput #[7, 8, 9]).setPos 1

theorem cursor_inside_retreating : retreatingContext.Reachable ∧
    (∃ c', retreatingContext.run retreating 5 = some (.failed ⟨2, 3⟩, c')) ∧
    ∃ n, IsGreatest ((retreatingContext.setting retreating).cursors retreatingContext.machine (n + 1)) 3 := by
  have loaded : load {} retreatingBytes none = .ok ⟨⟨⟨0, 1⟩, "", 0, #[], 6⟩, retreating, 1, 0⟩ := by
    decide +kernel
  have reachable : retreatingContext.Reachable := .used (.used (.loaded loaded) (.setInput _)) (.setPos 1)
  have run : retreatingContext.run retreating 5 = some (.failed ⟨2, 3⟩, _) := rfl
  obtain ⟨-, -, -, n, left, -, -, greatest⟩ := (cursor_inside reachable retreating).2.2.1 5 ⟨2, 3⟩ _ run
  exact ⟨reachable, ⟨_, run⟩, n, greatest⟩

end Context

end PegMachine
