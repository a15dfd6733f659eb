import PegMachine.Proofs.Grammar.Simulation
/-!
  What the machine decides is derived.

  The semantics gives no verdict on an expression that loops for ever. `derives_of_ends` says that these
  are the only ones: if the run that begins with the code of an expression ends within `n` steps, other than
  by an exhausted capacity, then the expression has a verdict. The proof is by induction on `n`, because
  rules and the rounds of a repetition cost a step, and for each `n` by induction on the expression.
-/
namespace PegMachine.Setting

variable {s : Setting} {P : Machine → Prop} {m m' : Machine} {n n' : Nat}

/-! ## Runs that end -/

/-- The run from the machine ends within `n` steps, and not because a capacity is exhausted. -/
def Ends (s : Setting) (n : Nat) (m : Machine) : Prop :=
  ∃ fuel ≤ n, ∃ halt, s.execute fuel m = some halt ∧
    ∀ error, halt.result = .error error → error.exhaustion = false

namespace Ends

theorem mono (h : s.Ends n m) (hle : n ≤ n') : s.Ends n' m := by
  obtain ⟨fuel, hfuel, hend⟩ := h
  exact ⟨fuel, Nat.le_trans hfuel hle, hend⟩

theorem not_exhausted {error : RunError} (h : s.Ends n m) (hstep : s.step m = .stopped error m') :
    error.exhaustion = false := by
  obtain ⟨fuel, -, halt, hrun, hend⟩ := h
  cases fuel with
  | zero => cases hrun
  | succ fuel =>
    rw [execute, hstep] at hrun
    exact hend error (by rw [← Option.some.inj hrun])

theorem of_step (h : s.Ends n m) (hstep : s.step m = .running m') : ∃ k < n, s.Ends k m' := by
  obtain ⟨fuel, hfuel, halt, hrun, hend⟩ := h
  cases fuel with
  | zero => cases hrun
  | succ fuel =>
    rw [execute, hstep] at hrun
    exact ⟨fuel, hfuel, fuel, Nat.le_refl _, halt, hrun, hend⟩

theorem step (h : s.Ends n m') (hstep : s.step m = .running m') : s.Ends (n + 1) m := by
  obtain ⟨fuel, hfuel, halt, hrun, hend⟩ := h
  exact ⟨fuel + 1, Nat.succ_le_succ hfuel, halt, by rw [execute, hstep]; exact hrun, hend⟩

/-- A run that ends comes to every machine that it leads to. -/
theorem of_leads (h : s.Ends n m) (leads : s.Leads P m) : ∃ m', P m' ∧ s.Ends n m' := by
  induction leads generalizing n with
  | here hp => exact ⟨_, hp, h⟩
  | exhausted hstep full =>
    rw [h.not_exhausted hstep] at full
    cases full
  | step hstep _ ih =>
    obtain ⟨k, hk, hends⟩ := h.of_step hstep
    exact ih (hends.mono (Nat.le_of_lt hk))

/-- A run that ends has room for the frame of a `choice`. -/
theorem choice {alternative : Nat} (h : s.Ends n m)
    (code : s.program.at? m.pc = some (.choice alternative)) :
    m.work.backtrack.size < s.config.maxStackLength ∧ ∃ k < n, s.Ends k (m.attempt alternative) := by
  by_cases room : m.work.backtrack.size < s.config.maxStackLength
  · exact ⟨room, h.of_step (step_choice code room)⟩
  · cases h.not_exhausted (step_choice_full code room)

theorem call {target : Nat} (h : s.Ends n m) (code : s.program.at? m.pc = some (.call target)) :
    ∃ k < n, s.Ends k ((m.pushCall (m.pc + 1)).moveOn target) := by
  by_cases room : m.work.calls.size < s.config.maxStackLength
  · exact h.of_step (step_call code room)
  · cases h.not_exhausted (step_call_full code room)

end Ends

/-! ## Verdicts of runs that end -/

variable {ρ : Type} {g : Grammar ρ} {address : ρ → Nat} {a b e : Expr ρ}

/-- An expression has a verdict if its code is at the front of a run that ends within `n` steps. -/
def Decides (s : Setting) (g : Grammar ρ) (address : ρ → Nat) (n : Nat) (e : Expr ρ) : Prop :=
  ∀ m : Machine, s.program.Holds m.pc (e.code address m.pc) → m.work.log.Inside → s.Ends n m →
    ∃ v, Derives g s.input e m.pos v

theorem decides_matcher (mt : Matcher) : s.Decides g address n (.matcher mt) := by
  intro m _ _ _
  cases h : mt.length? (s.input.toList.drop m.pos) with
  | some count => exact ⟨_, .consumes h⟩
  | none => exact ⟨_, .refuses h⟩

theorem decides_seq (laid : g.LaidOut address s.program) (ha : s.Decides g address n a)
    (hb : s.Decides g address n b) : s.Decides g address n (.seq a b) := by
  intro m code inside hends
  obtain ⟨hcodea, hcodeb⟩ := Program.holds_code.1 code
  obtain ⟨v, hv⟩ := ha m hcodea inside hends
  cases v with
  | refused => exact ⟨_, .seqFirst hv⟩
  | matched q ts =>
    obtain ⟨m₁, h₁, hends₁⟩ := hends.of_leads (runs_of_derives laid hv m hcodea rfl inside)
    have h₁ : m.Matched (m.pc + a.size) q ts m₁ := h₁
    obtain ⟨w, hw⟩ := hb m₁ (h₁.pc ▸ hcodeb) (h₁.inside inside) hends₁
    rw [h₁.pos] at hw
    cases w with
    | refused => exact ⟨_, .seqSecond hv hw⟩
    | matched => exact ⟨_, .seq hv hw⟩

/-- The expression under the frame of a `choice` has a verdict. -/
theorem Decides.attempt {alternative : Nat} (ha : s.Decides g address n a)
    (hchoice : s.program.at? m.pc = some (.choice alternative))
    (code : s.program.Holds (m.pc + 1) (a.code address (m.pc + 1))) (inside : m.work.log.Inside)
    (hends : s.Ends n m) : ∃ v, Derives g s.input a m.pos v := by
  obtain ⟨-, k, hk, hends₁⟩ := hends.choice hchoice
  exact ha (m.attempt alternative) code inside (hends₁.mono (Nat.le_of_lt hk))

theorem decides_choice (laid : g.LaidOut address s.program) (ha : s.Decides g address n a)
    (hb : s.Decides g address n b) : s.Decides g address n (.choice a b) := by
  intro m ⟨hchoice, code⟩ inside hends
  obtain ⟨hcodea, -, hcodeb⟩ := Program.holds_code.1 code
  obtain ⟨v, hv⟩ := ha.attempt hchoice hcodea inside hends
  cases v with
  | matched q ts => exact ⟨_, .first hv⟩
  | refused =>
    -- The same run goes on at `b`, and ends.
    obtain ⟨-, k, hk, hends₁⟩ := hends.choice hchoice
    obtain ⟨m₁, h₁, hends₂⟩ := hends₁.of_leads (runs_of_derives laid hv (m.attempt _) hcodea rfl inside)
    obtain ⟨m₂, hstep, h₂⟩ := resumes_of_refused h₁ inside
    obtain ⟨l, hl, hends₃⟩ := hends₂.of_step hstep
    have hends₂ : s.Ends n m₂ := hends₃.mono (by omega)
    obtain ⟨w, hw⟩ := hb m₂ (by rw [h₂.pc]; exact hcodeb) (h₂.inside inside) hends₂
    rw [h₂.pos] at hw
    exact ⟨w, .second hv hw⟩

/-- The rounds of a repetition after the first are decided within fewer steps. -/
theorem decides_star (laid : g.LaidOut address s.program) (ha : s.Decides g address n a)
    (fewer : ∀ k < n, s.Decides g address k (.star a)) : s.Decides g address n (.star a) := by
  intro m ⟨hchoice, code⟩ inside hends
  obtain ⟨hcodea, hloop, -⟩ := Program.holds_code.1 code
  obtain ⟨v, hv⟩ := ha.attempt hchoice hcodea inside hends
  cases v with
  | refused => exact ⟨_, .done hv⟩
  | matched q ts =>
    obtain ⟨room, k, hk, hends₁⟩ := hends.choice hchoice
    obtain ⟨m₁, h₁, hends₂⟩ := hends₁.of_leads (runs_of_derives laid hv (m.attempt _) hcodea rfl inside)
    have h₁ : (m.attempt _).Matched _ q ts m₁ := h₁
    -- From `again` the run takes one step more, the `choice`, and is where it is now.
    let again : Machine := { m₁.popFrame with pc := m.pc }
    have round : m.Matched m.pc q ts again := matched_round h₁
    have hagain : s.step again = .running (again.attempt _) :=
      step_choice hchoice (by rw [round.backtrack]; exact room)
    obtain ⟨l, hl, hends₃⟩ := hends₂.of_step (step_partialCommit (by rw [h₁.pc]; exact hloop) h₁)
    obtain ⟨w, hw⟩ := fewer (l + 1) (by omega) again ⟨hchoice, code⟩ (round.inside inside) (hends₃.step hagain)
    rw [round.pos] at hw
    cases hw with
    | done h => exact ⟨_, .more hv (.done h)⟩
    | more h hs => exact ⟨_, .more hv (.more h hs)⟩

theorem decides_and (ha : s.Decides g address n a) : s.Decides g address n (.and a) := by
  intro m ⟨hchoice, code⟩ inside hends
  obtain ⟨v, hv⟩ := ha.attempt hchoice (Program.holds_code.1 code).1 inside hends
  cases v with
  | refused => exact ⟨_, .andRefused hv⟩
  | matched => exact ⟨_, .and hv⟩

theorem decides_not (ha : s.Decides g address n a) : s.Decides g address n (.not a) := by
  intro m ⟨hchoice, code⟩ inside hends
  obtain ⟨v, hv⟩ := ha.attempt hchoice (Program.holds_code.1 code).1 inside hends
  cases v with
  | refused => exact ⟨_, .not hv⟩
  | matched => exact ⟨_, .notRefused hv⟩

theorem decides_capture {label : String} (ha : s.Decides g address n a) :
    s.Decides g address n (.capture label a) := by
  intro m ⟨hopen, code⟩ inside hends
  obtain ⟨m₁, rfl, hends₁⟩ := hends.of_leads (leads_nodeOpen hopen (.here rfl))
  have hcodea := (Program.holds_code.1 code).1
  obtain ⟨v, hv⟩ := ha (m.openNode.moveOn (m.pc + 1)) hcodea (inside.openNode m.pos) hends₁
  cases v with
  | refused => exact ⟨_, .captureRefused hv⟩
  | matched => exact ⟨_, .capture hv⟩

theorem decides_rule {r : ρ} (laid : g.LaidOut address s.program)
    (fewer : ∀ k < n, s.Decides g address k (g r)) : s.Decides g address n (.rule r) := by
  intro m ⟨hcall, _⟩ inside hends
  obtain ⟨k, hk, hends₁⟩ := hends.call hcall
  have hbody := (Program.holds_code.1 (laid r)).1
  obtain ⟨v, hv⟩ := fewer k hk ((m.pushCall (m.pc + 1)).moveOn (address r)) hbody inside hends₁
  exact ⟨v, .rule hv⟩

theorem derives_of_ends (laid : g.LaidOut address s.program) : s.Decides g address n e := by
  -- On the steps for rules and rounds of a repetition, and inside on the expression for its parts.
  induction n using Nat.strong_induction_on generalizing e with
  | _ n fewer =>
    induction e with
    | matcher mt => exact decides_matcher mt
    | empty => exact fun _ _ _ _ => ⟨_, .empty⟩
    | seq a b iha ihb => exact decides_seq laid iha ihb
    | choice a b iha ihb => exact decides_choice laid iha ihb
    | star a iha => exact decides_star laid iha fun k hk => fewer k hk
    | and a iha => exact decides_and iha
    | not a iha => exact decides_not iha
    | capture label a iha => exact decides_capture iha
    | rule r => exact decides_rule laid fun k hk => fewer k hk

end PegMachine.Setting
