import PegMachine.Proofs.Run.Contexts
import PegMachine.Proofs.Run.Lookahead
import PegMachine.Proofs.Run.Restoration
import PegMachine.Proofs.Stacks.Scopes
/-!
  The symbol table implements nested scopes.

  A `Scoping` keeps scopes through a run, and with every frame the scopes there were when it was saved, which
  a backtrack brings back as they were. It is told the instructions, the defined texts and the failures of the run,
  and nothing about the symbol table or the lengths to which frames cut it. What is proved:
    1. `Recalls`, `Machine.Nests`: the table holds the scopes, and cut to the length that a frame saved it holds
       those that were saved with the frame;
    2. `nests_of_move`: every move keeps this, unless a `scopeEnd` takes away a marker that a frame counts;
    3. `perform_is_iff`, `perform_isa_iff`: which text a look-up consumes;
    4. `scopes_refined`: so look-ups and ends of scopes do in a run what the scopes say.
-/
namespace PegMachine

/-! ## Scopes along a run -/

/-- The scopes of a run, and those that backtracks bring back, the next one first. -/
structure Scoping where
  scopes : Scopes
  saved : List Scopes
  deriving DecidableEq, Repr

namespace Scoping

def empty : Scoping := ⟨.empty, []⟩

def save (r : Scoping) : Scoping := { r with saved := r.scopes :: r.saved }

/-- Forgets the scopes saved last. -/
def drop (r : Scoping) : Scoping := { r with saved := r.saved.tail }

/-- Brings back the scopes saved last. -/
def restore (r : Scoping) : Scoping :=
  match r.saved with
  | scopes :: saved => ⟨scopes, saved⟩
  | [] => r

end Scoping

namespace Setting

/-- The scopes after an instruction, before anything is done about its failure. -/
def scopesAfter (s : Setting) (m : Machine) (r : Scoping) : Instruction → Scoping
  | .choice _ => r.save
  | .commit _ | .failTwice => r.drop
  | .partialCommit _ => r.drop.save
  | .backCommit _ => r.restore
  | .define table =>
    match m.work.marks.back? with
    | some mark => { r with scopes := r.scopes.bind table (s.markedText m mark) }
    | none => r
  | .scopeBegin => { r with scopes := r.scopes.enter }
  | .scopeEnd => { r with scopes := r.scopes.leave }
  | _ => r

/-- The scopes after the next instruction, and after the backtrack if the instruction fails. -/
def scope (s : Setting) (m : Machine) (r : Scoping) : Scoping :=
  match s.program.at? m.pc with
  | none => r
  | some i => if (s.dispatch i m).fails then (s.scopesAfter m r i).restore else s.scopesAfter m r i

/-- The scopes beside the machines of a run. -/
def scoping (s : Setting) (m : Machine) : Nat → Scoping
  | 0 => .empty
  | n + 1 =>
    match s.step (s.states m n) with
    | .running _ => s.scope (s.states m n) (s.scoping m n)
    | _ => s.scoping m n

variable {s : Setting} {m m' : Machine} {i : Instruction} {r : Scoping}

theorem scope_of_fails (code : s.program.at? m.pc = some i) (fails : (s.perform i m).fails = true) (r : Scoping) :
    s.scope m r = (s.scopesAfter m r i).restore := by
  simp only [scope, code, dispatch_eq, fails, if_true]

theorem scope_of_goesOn (code : s.program.at? m.pc = some i) (goesOn : (s.perform i m).fails = false) (r : Scoping) :
    s.scope m r = s.scopesAfter m r i := by
  simp only [scope, code, dispatch_eq, goesOn, Bool.false_eq_true, if_false]

/-- An instruction that only looks at the input leaves the scopes alone. -/
theorem scopesAfter_of_fails (h : i.fails = true) (m : Machine) (r : Scoping) : s.scopesAfter m r i = r := by
  cases i with
  | choice | commit | partialCommit | backCommit | failTwice | define | scopeBegin | scopeEnd => cases h
  | _ => rfl

end Setting

/-! ## The table and the scopes -/

/-- Cut to the length that a frame saved, the table holds the scopes that were saved with it. The lengths of the
    frames fall from the top frame, which comes first, to the bottom. -/
inductive Recalls : (table : List SymbolEntry) → List Frame → List Scopes → Prop where
  | nil (table : List SymbolEntry) : Recalls table [] []
  | cons {table : List SymbolEntry} {f : Frame} {frames : List Frame} {scopes : Scopes} {saved : List Scopes}
    (inside : f.symbolDepth ≤ table.length) (holds : (table.take f.symbolDepth).reverse = scopes.entries)
    (below : Recalls (table.take f.symbolDepth) frames saved) : Recalls table (f :: frames) (scopes :: saved)

namespace Recalls

variable {table table' : List SymbolEntry} {frames : List Frame} {saved : List Scopes} {place : Nat}

theorem depth_le (h : Recalls table frames saved) : ∀ f ∈ frames, f.symbolDepth ≤ table.length := by
  induction h with
  | nil => exact nofun
  | @cons table f frames scopes saved inside holds below ih =>
    intro g hg
    rcases List.mem_cons.1 hg with rfl | hmem
    · exact inside
    · exact Nat.le_trans (ih g hmem) (List.length_take_le' ..)

/-- Only the entries below the lengths that frames saved matter. -/
theorem of_take_eq (h : Recalls table frames saved)
    (same : ∀ f ∈ frames, f.symbolDepth ≤ table'.length ∧ table'.take f.symbolDepth = table.take f.symbolDepth) :
    Recalls table' frames saved := by
  cases h with
  | nil => exact .nil table'
  | cons inside holds below =>
    obtain ⟨inside', htake⟩ := same _ List.mem_cons_self
    exact .cons inside' (htake ▸ holds) (htake ▸ below)

theorem append (h : Recalls table frames saved) (more : List SymbolEntry) : Recalls (table ++ more) frames saved := by
  refine h.of_take_eq fun f hf => ⟨?_, List.take_append_of_le_length (h.depth_le f hf)⟩
  have := h.depth_le f hf
  rw [List.length_append]
  omega

/-- The table can be cut back as far as no frame has saved a greater length. -/
theorem take (h : Recalls table frames saved) (above : ∀ f ∈ frames, f.symbolDepth ≤ place) :
    Recalls (table.take place) frames saved := by
  refine h.of_take_eq fun f hf => ⟨?_, ?_⟩
  · rw [List.length_take]
    exact Nat.le_min.2 ⟨above f hf, h.depth_le f hf⟩
  · rw [List.take_take, Nat.min_eq_left (above f hf)]

theorem of_take (h : Recalls (table.take place) frames saved) : Recalls table frames saved := by
  have := h.append (table.drop place)
  rwa [List.take_append_drop] at this

end Recalls

/-- The symbol table holds the scopes, and what the frames leave of it those that were saved. -/
structure Machine.Nests (m : Machine) (r : Scoping) : Prop where
  table : m.work.symbols.toList.reverse = r.scopes.entries
  saved : Recalls m.work.symbols.toList m.work.backtrack.toList.reverse r.saved

namespace Machine.Nests

variable {m x : Machine} {r : Scoping} {f : Frame} {place : Nat}

theorem of_start (pc pos : Nat) (pool : Pool) : (Machine.start pc pos pool).Nests .empty := ⟨rfl, .nil []⟩

/-- Only the table and the frames matter. -/
theorem of_eq (h : m.Nests r) (symbols : x.work.symbols = m.work.symbols)
    (backtrack : x.work.backtrack = m.work.backtrack) : x.Nests r :=
  ⟨symbols ▸ h.table, symbols ▸ backtrack ▸ h.saved⟩

theorem push (h : m.Nests r) {entry : SymbolEntry} {scopes : Scopes}
    (entries : scopes.entries = entry :: r.scopes.entries) : (m.pushSymbol entry).Nests { r with scopes } where
  table := by
    show (m.work.symbols.push entry).toList.reverse = scopes.entries
    rw [Array.toList_push, List.reverse_append, h.table, entries]
    rfl
  saved := by
    show Recalls (m.work.symbols.push entry).toList _ _
    rw [Array.toList_push]
    exact h.saved.append [entry]

theorem leave (h : m.Nests r) (latest : SymbolEntry.lastScope? m.work.symbols = some place)
    (above : ∀ f ∈ m.work.backtrack, f.symbolDepth ≤ place) :
    Machine.Nests { m with work.symbols := m.work.symbols.shrink place } { r with scopes := r.scopes.leave } where
  table := by
    have begun : r.scopes.begun ≠ [] := by
      intro unbegun
      rw [Scopes.lastScope?_eq_none h.table unbegun] at latest
      cases latest
    obtain ⟨place', latest', hleave⟩ := Scopes.shrink_lastScope? h.table begun
    obtain rfl : place' = place := Option.some.inj (latest'.symm.trans latest)
    exact hleave
  saved := by
    show Recalls (m.work.symbols.shrink place).toList _ _
    rw [Array.toList_shrink]
    exact h.saved.take fun f hf => above f (Array.mem_toList_iff.1 (List.mem_reverse.1 hf))

theorem save (h : m.Nests r) (alternative : Nat) : (m.pushFrame (m.frame alternative)).Nests r.save where
  table := h.table
  saved := by
    have depth : (m.frame alternative).symbolDepth = m.work.symbols.toList.length := rfl
    have whole : m.work.symbols.toList.take (m.frame alternative).symbolDepth = m.work.symbols.toList := by
      rw [depth, List.take_length]
    show Recalls _ (m.work.backtrack.push (m.frame alternative)).toList.reverse (r.scopes :: r.saved)
    rw [Array.toList_push, List.reverse_append]
    exact .cons (Nat.le_of_eq depth) (whole.symm ▸ h.table) (whole.symm ▸ h.saved)

/-- What is saved with the top frame, and with the frames below it. -/
theorem saved_of_top (h : m.Nests r) (top : m.work.backtrack.back? = some f) :
    ∃ scopes saved, r.saved = scopes :: saved ∧ (m.work.symbols.toList.take f.symbolDepth).reverse = scopes.entries ∧
      Recalls (m.work.symbols.toList.take f.symbolDepth) m.popFrame.work.backtrack.toList.reverse saved := by
  obtain ⟨below, hbelow⟩ := Array.back?_eq_some_iff.1 top
  have hpop : m.popFrame.work.backtrack = below := by
    show m.work.backtrack.pop = below
    rw [hbelow, Array.pop_push]
  have saved := h.saved
  rw [hbelow, Array.toList_push, List.reverse_append] at saved
  rw [hpop]
  generalize hsaved : r.saved = all at saved
  cases saved with
  | cons inside holds below => exact ⟨_, _, rfl, holds, below⟩

theorem drop (h : m.Nests r) (top : m.work.backtrack.back? = some f) : m.popFrame.Nests r.drop where
  table := h.table
  saved := by
    obtain ⟨scopes, saved, hsaved, -, below⟩ := h.saved_of_top top
    rw [Scoping.drop, hsaved]
    exact below.of_take

theorem restore (h : m.Nests r) (top : m.work.backtrack.back? = some f) :
    (m.popFrame.restore f).Nests r.restore := by
  obtain ⟨scopes, saved, hsaved, holds, below⟩ := h.saved_of_top top
  have symbols : (m.popFrame.restore f).work.symbols.toList = m.work.symbols.toList.take f.symbolDepth :=
    Array.toList_shrink
  rw [Scoping.restore, hsaved]
  exact ⟨symbols ▸ holds, symbols ▸ below⟩

end Machine.Nests

namespace Setting

variable {s : Setting} {m m' : Machine} {i : Instruction} {r : Scoping}

/-- Every move of the machine is what becomes of the scopes, if no marker is removed that a frame counts. -/
theorem nests_of_move (code : s.program.at? m.pc = some i) (h : s.Move m i m')
    (above : ∀ f ∈ m.work.backtrack, s.EndsScopeAbove f.symbolDepth m) (hm : m.Nests r) : m'.Nests (s.scope m r) := by
  have goesOn (never : i.fails = false) (notTwice : i ≠ .failTwice) : s.scope m r = s.scopesAfter m r i :=
    scope_of_goesOn code (fails_of_not_fails never notTwice) r
  cases h with
  | consumed i count looks done =>
    rw [scope_of_goesOn code (by rw [done]; rfl), scopesAfter_of_fails (Instruction.fails_of_consumes looks)]
    exact hm.of_eq rfl rfl
  | switched table b target byte entry =>
    rw [scope_of_goesOn code (by simp only [perform, byte, Option.bind_some, entry]; rfl)]
    exact hm.of_eq rfl rfl
  | failed i f fails done top =>
    rw [scope_of_fails code (by rw [done]; rfl), scopesAfter_of_fails fails]
    exact (hm.restore top).of_eq rfl rfl
  | failedTwice f g top next =>
    rw [scope_of_fails code (by rw [perform, top]; rfl)]
    exact ((hm.drop top).restore next).of_eq rfl rfl
  | jumped | called | returned | opened | closed | tagged | valued | marked =>
    rw [goesOn rfl Instruction.noConfusion]
    exact hm.of_eq rfl rfl
  | chose alternative =>
    rw [goesOn rfl Instruction.noConfusion]
    exact (hm.save alternative).of_eq rfl rfl
  | committed target f top =>
    rw [goesOn rfl Instruction.noConfusion]
    exact (hm.drop top).of_eq rfl rfl
  | refreshed target f top =>
    rw [goesOn rfl Instruction.noConfusion]
    exact ((hm.drop top).save f.alternative).of_eq rfl rfl
  | wentBack target f top =>
    rw [goesOn rfl Instruction.noConfusion]
    exact (hm.restore top).of_eq rfl rfl
  | defined table mark top =>
    rw [goesOn rfl Instruction.noConfusion]
    simp only [scopesAfter, top]
    have used : m.useMark.Nests r := hm.of_eq m.useMark_symbols m.useMark_backtrack
    exact (used.push (Scopes.entries_bind ..)).of_eq rfl rfl
  | scopeBegun =>
    rw [goesOn rfl Instruction.noConfusion]
    exact (hm.push (Scopes.entries_enter _)).of_eq rfl rfl
  | scopeEnded place latest =>
    rw [goesOn rfl Instruction.noConfusion]
    exact (hm.leave latest fun f hf => above f hf code place latest).of_eq rfl rfl

/-- In every state of a run the table holds the scopes, if no marker was removed that a frame counted. -/
theorem nests_of_states {pc pos : Nat} {pool : Pool} {n : Nat}
    (above : ∀ k < n, ∀ f ∈ (s.states (.start pc pos pool) k).work.backtrack,
      s.EndsScopeAbove f.symbolDepth (s.states (.start pc pos pool) k)) :
    (s.states (.start pc pos pool) n).Nests (s.scoping (.start pc pos pool) n) := by
  induction n with
  | zero => exact .of_start pc pos pool
  | succ n ih =>
    have before := ih fun k hk => above k (by omega)
    rw [states, scoping]
    cases hstep : s.step (s.states (.start pc pos pool) n) with
    | running m' =>
      obtain ⟨i, code, move⟩ := move_of_step hstep
      exact nests_of_move code move (above n (Nat.lt_succ_self n)) before
    | halted | stopped => exact before

/-! ## Look-ups -/

theorem seesLiteral_iff {text : Bytes} : s.seesLiteral m text = true ↔ text <+: s.input.toList.drop m.pos := by
  rw [seesLiteral, Input.hasAt_eq, List.isPrefixOf_iff_prefix]

theorem takeText_eq_next_iff {text? : Option Bytes} :
    m.takeText text? = .next m' ↔ ∃ text, text? = some text ∧ m' = m.advance text.length := by
  cases text? with
  | none => simp [Machine.takeText]
  | some text => simp [Machine.takeText, eq_comm]

theorem takeText_fails_iff {text? : Option Bytes} : (m.takeText text?).fails = true ↔ text? = none := by
  cases text? with
  | none => simp [Machine.takeText, Effect.fails]
  | some text => simp [Machine.takeText, Effect.fails]

/-- `is` consumes the latest text of its table, if the input goes on with it. -/
theorem perform_is_iff {table : String} : s.perform (.is table) m = .next m' ↔
    ∃ text, (SymbolEntry.bindings m.work.symbols table).head? = some text ∧
      text <+: s.input.toList.drop m.pos ∧ m' = m.advance text.length := by
  rw [perform, takeText_eq_next_iff]
  simp only [latestText?, Option.filter_eq_some_iff, seesLiteral_iff, and_assoc]

theorem perform_is_fails_iff {table : String} : (s.perform (.is table) m).fails = true ↔
    ∀ text, (SymbolEntry.bindings m.work.symbols table).head? = some text → ¬ text <+: s.input.toList.drop m.pos := by
  rw [perform, takeText_fails_iff]
  simp only [latestText?, Option.filter_eq_none_iff, seesLiteral_iff]

/-- `isa` consumes the latest of the texts of its table with which the input goes on. -/
theorem perform_isa_iff {table : String} : s.perform (.isa table) m = .next m' ↔
    ∃ newer text older, SymbolEntry.bindings m.work.symbols table = newer ++ text :: older ∧
      (∀ other ∈ newer, ¬ other <+: s.input.toList.drop m.pos) ∧ text <+: s.input.toList.drop m.pos ∧
      m' = m.advance text.length := by
  have unseen {other : Bytes} : (!s.seesLiteral m other) = true ↔ ¬ other <+: s.input.toList.drop m.pos := by
    rw [Bool.not_eq_true', ← Bool.not_eq_true, seesLiteral_iff]
  rw [perform, takeText_eq_next_iff]
  simp only [anyText?, List.find?_eq_some_iff_append, seesLiteral_iff, unseen]
  constructor
  · rintro ⟨text, ⟨comes, newer, older, found, others⟩, next⟩
    exact ⟨newer, text, older, found, others, comes, next⟩
  · rintro ⟨newer, text, older, found, others, comes, next⟩
    exact ⟨text, ⟨comes, newer, older, found, others⟩, next⟩

theorem perform_isa_fails_iff {table : String} : (s.perform (.isa table) m).fails = true ↔
    ∀ text ∈ SymbolEntry.bindings m.work.symbols table, ¬ text <+: s.input.toList.drop m.pos := by
  rw [perform, takeText_fails_iff]
  simp only [anyText?, List.find?_eq_none, seesLiteral_iff]

theorem perform_scopeEnd_iff :
    (∃ m', s.perform .scopeEnd m = .stop (.stackUnderflow .symbol m.pc) m') ↔
      SymbolEntry.lastScope? m.work.symbols = none := by
  rw [perform]
  cases SymbolEntry.lastScope? m.work.symbols with
  | none => simp
  | some place => simp

end Setting

/-! ## Contexts -/

namespace Context

/-- **The symbol table implements nested scopes.** A run may only end scopes whose markers none of its frames count.
    Then in every state
    - the table holds the scopes of the run;
    - `is` consumes the latest text of its table that can be seen, if the input goes on with it, and otherwise fails;
    - `isa` consumes the latest of the texts of its table that can be seen with which the input goes on, and fails
      if there is none;
    - `scopeEnd` stops the run if and only if no scope was begun that has not ended. -/
theorem scopes_refined (c : Context) (program : Program) :
    let s := c.setting program
    ∀ n, (∀ k < n, ∀ f ∈ (s.states c.machine k).work.backtrack,
        s.EndsScopeAbove f.symbolDepth (s.states c.machine k)) →
      let m := s.states c.machine n
      let scopes := (s.scoping c.machine n).scopes
      let comes (text : Bytes) := text <+: c.input.toList.drop m.pos
      m.work.symbols.toList.reverse = scopes.entries ∧
      (∀ table m', s.perform (.is table) m = .next m' ↔
        ∃ text, (scopes.visible table).head? = some text ∧ comes text ∧ m' = m.advance text.length) ∧
      (∀ table, (s.perform (.is table) m).fails = true ↔
        ∀ text, (scopes.visible table).head? = some text → ¬ comes text) ∧
      (∀ table m', s.perform (.isa table) m = .next m' ↔
        ∃ newer text older, scopes.visible table = newer ++ text :: older ∧ (∀ other ∈ newer, ¬ comes other) ∧
          comes text ∧ m' = m.advance text.length) ∧
      (∀ table, (s.perform (.isa table) m).fails = true ↔ ∀ text ∈ scopes.visible table, ¬ comes text) ∧
      ((∃ m', s.perform .scopeEnd m = .stop (.stackUnderflow .symbol m.pc) m') ↔ scopes.begun = []) := by
  intro s n above m scopes comes
  have table : m.work.symbols.toList.reverse = scopes.entries := (Setting.nests_of_states above).table
  have seen (name : String) : SymbolEntry.bindings m.work.symbols name = scopes.visible name :=
    Scopes.bindings_eq_visible table name
  refine ⟨table, fun name m' => ?_, fun name => ?_, fun name m' => ?_, fun name => ?_, ?_⟩
  · rw [Setting.perform_is_iff, seen]
    rfl
  · rw [Setting.perform_is_fails_iff, seen]
    rfl
  · rw [Setting.perform_isa_iff, seen]
    rfl
  · rw [Setting.perform_isa_fails_iff, seen]
    rfl
  · rw [Setting.perform_scopeEnd_iff]
    refine ⟨fun unmarked => Classical.byContradiction fun begun => ?_, Scopes.lastScope?_eq_none table⟩
    obtain ⟨place, latest, -⟩ := Scopes.shrink_lastScope? table begun
    rw [unmarked] at latest
    cases latest

/-- Below a frame, binds "a", begins a scope and binds "b" in it. Saves a frame, begins a scope inside, binds "ac"
    there and fails, which abandons that scope. Ends the scope that is left and looks "a" up again. -/
def shadowing : Program :=
  .ofList [.exit, .choice 19, .mark, .any, .define "T", .scopeBegin, .mark, .any, .define "T", .choice 16,
    .scopeBegin, .mark, .any, .any, .define "T", .fail, .scopeEnd, .is "T", .commit 19, .exit]

def shadowingContext : Context := { new {} with input := #[97, 98, 97, 99], startPoint := 1 }

theorem scopes_refined_shadowing :
    let s := shadowingContext.setting shadowing
    let m := s.states shadowingContext.machine
    (s.scoping shadowingContext.machine 15).scopes = ⟨[[("T", [98])]], [("T", [97])]⟩ ∧
    (s.perform (.is "T") (m 15)).fails = true ∧
    s.perform (.isa "T") (m 15) = .next ((m 15).advance 1) ∧
    (m 16).work.symbols = #[.binding "T" [97]] ∧ (m 16).work.backtrack.size = 1 ∧
    s.perform (.is "T") (m 16) = .next ((m 16).advance 1) ∧
    ∃ m', s.perform .scopeEnd (m 16) = .stop (.stackUnderflow .symbol 17) m' := by
  intro s m
  have counted : ∀ k < 16, ∀ f ∈ (m k).work.backtrack, s.program.at? (m k).pc = some .scopeEnd →
      f.symbolDepth = 0 := by decide +kernel
  have above (k : Nat) (hk : k < 16) (f : Frame) (hf : f ∈ (m k).work.backtrack) :
      s.EndsScopeAbove f.symbolDepth (m k) := fun code place _ => counted k hk f hf code ▸ Nat.zero_le place
  obtain ⟨-, -, hidden, visible, -, -⟩ :=
    scopes_refined shadowingContext shadowing 15 fun k hk => above k (by omega)
  obtain ⟨-, again, -, -, -, ends⟩ := scopes_refined shadowingContext shadowing 16 above
  refine ⟨by decide +kernel, (hidden "T").2 (by decide +kernel), (visible "T" _).2 ?_, by decide +kernel,
    by decide +kernel, (again "T" _).2 ?_, ends.2 (by decide +kernel)⟩
  · exact ⟨[[98]], [97], [], by decide +kernel, by decide +kernel, by decide +kernel, rfl⟩
  · exact ⟨[97], by decide +kernel, by decide +kernel, rfl⟩

end Context

end PegMachine
