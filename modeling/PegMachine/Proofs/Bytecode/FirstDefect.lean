import PegMachine.Proofs.Bytecode.ReadingOrder
/-!
  The first defect.

  Bytecode can be wrong in several places. `Defect` says which of them a load is about: the first one in reading
  order; only if everything can be read the first target outside the program, and only if there is none the start
  point. What is proved:
    1. `strayTarget?_eq_some_iff`: the stray target that is found is the first one of the first instruction that has
       one;
    2. `load_eq_error_iff`: a load that fails was stopped by its read, or by one of the two checks after all of it
       was read;
    3. `load_error_iff_defect`: so the error of a load is the one for the first defect, and a load without a defect
       succeeds.
-/
namespace PegMachine

/-! ## The first stray target -/

theorem strayTarget?_eq_some_iff {code : Array Instruction} {error : LoadError} :
    strayTarget? code = some error ↔ ∃ before i after ts t us, code.toList = before ++ i :: after ∧
      (∀ j ∈ before, ∀ t ∈ j.targets, t < code.size) ∧ i.targets = ts ++ t :: us ∧ (∀ t ∈ ts, t < code.size) ∧
      code.size ≤ t ∧ error = .targetOutOfRange before.length i.opcode t code.size := by
  rw [strayTarget?, List.findSome?_eq_some_iff]
  constructor
  · intro h'
    obtain ⟨front, ⟨i, index⟩, back, hsplit, hfind, hfront⟩ := h'
    obtain ⟨before, rest, hcode, rfl, hrest⟩ := List.zipIdx_eq_append_iff.1 hsplit
    obtain ⟨_, after, rfl, hi, -⟩ := List.zipIdx_eq_cons_iff.1 hrest.symm
    obtain ⟨rfl, rfl⟩ := Prod.mk.inj hi
    obtain ⟨t, ht, rfl⟩ := Option.map_eq_some_iff.1 hfind
    obtain ⟨outside, ts, us, htargets, inside⟩ := List.find?_eq_some_iff_append.1 ht
    refine ⟨before, i, after, ts, t, us, hcode, fun j hj => ?_, htargets, by simpa using inside, by simpa using outside,
      by rw [Nat.zero_add]⟩
    rw [← List.zipIdx_map_fst 0 before, List.mem_map] at hj
    obtain ⟨x, hx, rfl⟩ := hj
    simpa [List.find?_eq_none] using hfront x hx
  · intro h'
    obtain ⟨before, i, after, ts, t, us, hcode, clean, htargets, inside, outside, rfl⟩ := h'
    refine ⟨before.zipIdx, (i, before.length), after.zipIdx (before.length + 1), ?_, ?_, ?_⟩
    · simp [hcode, List.zipIdx_append]
    · have hfind : i.targets.find? (code.size ≤ ·) = some t :=
        List.find?_eq_some_iff_append.2 ⟨by simpa using outside, ts, us, htargets, by simpa using inside⟩
      simp only [hfind, Option.map_some]
    · rintro ⟨j, index⟩ hj
      have hclean := clean j (List.fst_mem_of_mem_zipIdx hj)
      simpa [List.find?_eq_none] using hclean

/-! ## Loads that fail -/

variable {options : LoadOptions} {bytes : Bytes} {rule? : Option String}

/-- A load fails as its read does, or at one of the two checks behind it, the targets first. -/
theorem load_eq_error_iff {error : LoadError} : load options bytes rule? = .error error ↔
    (∃ after, (readProgram options).run (.ofBytes bytes) = .error error after) ∨
      ∃ header code, (∃ rest, (readProgram options).run (.ofBytes bytes) = .ok (header, code) rest) ∧
        (strayTarget? code = some error ∨ strayTarget? code = none ∧ code.size ≤ (header.startPoint rule?).toNat ∧
          error = .startOutOfRange (header.startPoint rule?).toNat code.size) := by
  rw [load]
  split
  · next hrun => simp [hrun]
  · next header code rest hrun =>
    have hchecks : ∀ result : Loaded, (do
        checkTargets code
        checkStart (header.startPoint rule?).toNat code.size
        pure result : Except LoadError Loaded) = .error error ↔
        strayTarget? code = some error ∨ strayTarget? code = none ∧ code.size ≤ (header.startPoint rule?).toNat ∧
          error = .startOutOfRange (header.startPoint rule?).toNat code.size := by
      intro result
      rw [checkTargets, checkStart]
      cases strayTarget? code with
      | some error => simp [bind, Except.bind]
      | none =>
        by_cases hstart : (header.startPoint rule?).toNat < code.size
        · simp [hstart, Nat.not_le_of_lt hstart, bind, Except.bind, pure, Except.pure]
        · simp [hstart, bind, Except.bind, eq_comm, Nat.le_of_not_lt hstart]
    rw [hchecks]
    simp [hrun]

/-! ## Defects -/

/-- The error is the one for the first defect of the bytes. Wherever a defect is in an instruction, the header is
    complete and in a version that the options let through, and every instruction before it is complete. -/
inductive Defect (options : LoadOptions) (rule? : Option String) : Bytes → LoadError → Prop where
  /-- The next field in reading order needs more bytes than are left. -/
  | truncated {front back : Bytes} {wanted : String} {width : Nat} (next : ProgramField options front wanted width)
    (short : back.length < width) :
    Defect options rule? (front ++ back) (.truncated (front ++ back).length wanted)
  /-- Strict options, and a complete header of another version. What follows it does not matter. -/
  | unsupportedVersion (p : Preamble) (count : UInt64) (back : Bytes) (strict : options.strictVersion = true)
    (other : p.version ≠ .current) :
    Defect options rule? (p.bytes ++ toBigEndian 8 count.toNat ++ back)
      (.unsupportedVersion p.version.major p.version.minor)
  /-- A byte that stands for no opcode where an instruction begins. -/
  | unknownOpcode (o : Opening) (accepted : options.accepts o.version = true) (byte : UInt8) (back : Bytes)
    (past : 30 ≤ byte) :
    Defect options rule? (o.bytes ++ byte :: back) (.unknownOpcode byte o.bytes.length)
  /-- A label that is complete and not UTF-8. Its length stands behind the opcode's byte. -/
  | invalidUtf8 (o : Opening) (accepted : options.accepts o.version = true) (op : Opcode) (what : String)
    (label : op.operand = .label what) (text bytes back : Bytes) (string : IsString text bytes) (bad : NotUtf8 text) :
    Defect options rule? (o.bytes ++ op.byte :: bytes ++ back) (.invalidUtf8 what (o.bytes.length + 1))
  /-- All instructions are complete, and `t` is the first target outside the program of the first instruction that
      has one. -/
  | targetOutOfRange (l : Layout) (accepted : options.accepts l.version = true) (before after : List Instruction)
    (i : Instruction) (code : l.code = before ++ i :: after)
    (clean : ∀ j ∈ before, ∀ t ∈ j.targets, t < l.records.length) (ts us : List Nat) (t : Nat)
    (targets : i.targets = ts ++ t :: us) (inside : ∀ t ∈ ts, t < l.records.length)
    (outside : l.records.length ≤ t) :
    Defect options rule? l.bytes (.targetOutOfRange before.length i.opcode t l.records.length)
  /-- All instructions are complete and all targets inside the program, but the start point is not. -/
  | startOutOfRange (l : Layout) (accepted : options.accepts l.version = true)
    (inside : ∀ i ∈ l.code, ∀ t ∈ i.targets, t < l.records.length) (start : UInt64)
    (starts : StartsAt (l.rules.map RuleEntry.rule) rule? start) (outside : l.records.length ≤ start.toNat) :
    Defect options rule? l.bytes (.startOutOfRange start.toNat l.records.length)

theorem not_accepts_iff {version : Version} :
    options.accepts version = false ↔ options.strictVersion = true ∧ version ≠ .current := by
  rw [← Bool.not_eq_true, accepts_iff]
  exact Classical.not_imp

/-- What stops the read is a defect. -/
theorem ProgramFault.defect {front back : Bytes} {fault : Fault} (h : ProgramFault options front back fault) :
    Defect options rule? (front ++ back) (fault.error (front ++ back).length front.length) := by
  obtain ⟨wanted, width, next, short, rfl⟩ | ⟨p, count, bad, rfl, rfl⟩ | ⟨o, rest, accepted, rfl, bad⟩ := h
  · exact .truncated next short
  · obtain ⟨strict, other⟩ := not_accepts_iff.1 bad
    exact .unsupportedVersion p count back strict other
  · cases bad with
    | notOpcode byte rest past =>
      rw [List.append_nil]
      exact .unknownOpcode o accepted byte rest past
    | notText op what label text bytes rest string bad =>
      have h : Defect options rule? (o.bytes ++ op.byte :: bytes ++ rest) (.invalidUtf8 what (o.bytes.length + 1)) :=
        .invalidUtf8 o accepted op what label text bytes rest string bad
      simpa [Fault.error] using h

/-- The error of a load that fails is the one for the first defect. -/
theorem defect_of_load {error : LoadError} (h : load options bytes rule? = .error error) :
    Defect options rule? bytes error := by
  obtain hrun | ⟨header, code, hrun, hchecks⟩ := load_eq_error_iff.1 h
  · obtain ⟨front, back, fault, hfault, rfl, rfl⟩ := run_readProgram_eq_error.1 hrun
    exact hfault.defect
  · obtain ⟨l, rfl, accepted, rfl, rfl⟩ := run_readProgram_eq_ok.1 hrun
    have hsize : l.code.toArray.size = l.records.length := by simp [Layout.code]
    rw [strayTarget?_eq_some_iff, strayTarget?_eq_none_iff, hsize] at hchecks
    obtain ⟨before, i, after, ts, t, us, hcode, clean, targets, inside, outside, rfl⟩ |
      ⟨inside, outside, rfl⟩ := hchecks
    · exact .targetOutOfRange l accepted before after i hcode clean ts us t targets inside outside
    · exact .startOutOfRange l accepted inside _ (startsAt_startPoint (l.header _) rule?) outside

theorem load_of_fault (rule? : Option String) {front back : Bytes} {fault : Fault}
    (h : ProgramFault options front back fault) :
    load options (front ++ back) rule? = .error (fault.error (front ++ back).length front.length) :=
  load_eq_error_iff.2 (.inl (run_readProgram_eq_error.2 ⟨front, back, fault, h, rfl, rfl⟩))

theorem load_of_layout {l : Layout} (accepted : options.accepts l.version = true) {error : LoadError}
    (h : strayTarget? l.code.toArray = some error ∨ strayTarget? l.code.toArray = none ∧
      l.records.length ≤ ((l.header (.ofNat l.records.length)).startPoint rule?).toNat ∧
        error = .startOutOfRange ((l.header (.ofNat l.records.length)).startPoint rule?).toNat l.records.length) :
    load options l.bytes rule? = .error error := by
  have hsize : l.code.toArray.size = l.records.length := by simp [Layout.code]
  refine load_eq_error_iff.2 (.inr ⟨_, _, run_readProgram_eq_ok.2 ⟨l, rfl, accepted, rfl, rfl⟩, ?_⟩)
  rwa [hsize]

/-- Where there is a defect a load fails, and its error is the one for it. -/
theorem Defect.load {error : LoadError} (h : Defect options rule? bytes error) :
    load options bytes rule? = .error error := by
  cases h with
  | truncated next short => exact load_of_fault rule? (.inl ⟨_, _, next, short, rfl⟩)
  | unsupportedVersion p count back strict other =>
    exact load_of_fault rule? (.inr (.inl ⟨p, count, not_accepts_iff.2 ⟨strict, other⟩, rfl, rfl⟩))
  | unknownOpcode o accepted byte back past =>
    exact load_of_fault rule? (.inr (.inr ⟨o, [], accepted, (List.append_nil _).symm, .notOpcode byte back past⟩))
  | invalidUtf8 o accepted op what label text bytes back string bad =>
    have h := load_of_fault rule?
      (.inr (.inr ⟨o, [op.byte], accepted, rfl, .notText op what label text bytes back string bad⟩))
    simpa [Fault.error] using h
  | targetOutOfRange l accepted before after i code clean ts us t targets inside outside =>
    refine load_of_layout accepted (.inl (strayTarget?_eq_some_iff.2 ?_))
    have hsize : l.code.toArray.size = l.records.length := by simp [Layout.code]
    rw [hsize]
    exact ⟨before, i, after, ts, t, us, code, clean, targets, inside, outside, rfl⟩
  | startOutOfRange l accepted inside start starts outside =>
    have hstart : (l.header (.ofNat l.records.length)).startPoint rule? = start := startsAt_iff.1 starts
    refine load_of_layout accepted (.inr ⟨strayTarget?_eq_none_iff.2 ?_, ?_⟩)
    · simpa [Layout.code] using inside
    · rw [hstart]
      exact ⟨outside, rfl⟩

/-- **A load error names the first defect.** A load fails exactly if the bytes have a defect, and its error is the
    one for the first of them. The targets of a table are looked at in the order of their bytes. -/
theorem load_error_iff_defect :
    (∀ options bytes rule? error, load options bytes rule? = .error error ↔ Defect options rule? bytes error) ∧
    ∀ table : JumpTable, (Instruction.mappedChoice table).targets = table.entries.map (fun e => e.2.toNat) ∧
      table.entries.Pairwise fun e e' => e.1 < e'.1 := by
  refine ⟨fun options bytes rule? error => ?_, fun table => ?_⟩
  · constructor
    · exact defect_of_load
    · exact Defect.load
  · exact ⟨rfl, table.pairwise_entries⟩

/-- A jump to outside the program, a tag that is not UTF-8, and a byte that is no opcode in place of the third
    instruction. -/
def threeDefects : Bytes :=
  [0, 1] ++ toBigEndian 4 0 ++ toBigEndian 4 0 ++ toBigEndian 4 0 ++ toBigEndian 8 3 ++
    Opcode.jump.byte :: toBigEndian 4 9 ++ Opcode.tag.byte :: toBigEndian 4 1 ++ [255] ++ [200]

theorem load_error_iff_threeDefects :
    ∀ error, Defect {} none threeDefects error ↔ error = .invalidUtf8 "tag" 28 := by
  intro error
  have h : load {} threeDefects none = .error (.invalidUtf8 "tag" 28) := by decide +kernel
  rw [← load_error_iff_defect.1, h, Except.error.injEq, eq_comm]

end PegMachine
