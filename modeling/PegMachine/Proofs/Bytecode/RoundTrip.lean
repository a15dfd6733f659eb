import PegMachine.Bytecode.Assembly
import PegMachine.Proofs.Bytecode.Acceptance
/-!
  The loader undoes the writer.

  `Writes w big form` says when a write fails and what it writes otherwise. What is proved:
    1. one lemma for each way to put writes together, and from them what the operands, the instructions and
       the rules are written as (`writes_operands`, `writes_instruction`, `writes_rule`);
    2. `writes_assembly`: an assembly is written as a layout of its own header and code, unless something in
       it is too long or too far away for 32 bits (`Assembly.Oversized`);
    3. `encode_load`: so the loader finds in the written bytes what was written, and nothing else.
-/
namespace PegMachine

/-! ## Writing -/

/-- The write fails exactly in the case `big`, and what it writes otherwise has the form. -/
structure Writes (w : Except EncodeError Bytes) (big : Prop) (form : Bytes → Prop) : Prop where
  fails : (∃ error, w = .error error) ↔ big
  writes : ∀ bytes, w = .ok bytes → form bytes

namespace Writes

variable {w : Except EncodeError Bytes} {big big' : Prop} {form form' : Bytes → Prop}

theorem ok {bytes : Bytes} (h : form bytes) : Writes (.ok bytes) False form where
  fails := by simp
  writes := by
    rintro _ ⟨⟩
    exact h

theorem congr (h : Writes w big form) (hbig : big ↔ big') (hform : ∀ bytes, form bytes → form' bytes) :
    Writes w big' form' :=
  ⟨h.fails.trans hbig, fun bytes hw => hform bytes (h.writes bytes hw)⟩

theorem bind {k : Bytes → Except EncodeError Bytes} (h : Writes w big form)
    (hk : ∀ bytes, form bytes → Writes (k bytes) big' form') : Writes (w >>= k) (big ∨ big') form' := by
  cases w with
  | error e =>
    have hbig : big := h.fails.1 ⟨e, rfl⟩
    exact ⟨⟨fun _ => .inl hbig, fun _ => ⟨e, rfl⟩⟩, nofun⟩
  | ok bytes =>
    have hbig : ¬ big := fun hb => by
      obtain ⟨_, ⟨⟩⟩ := h.fails.2 hb
    have hnext := hk bytes (h.writes bytes rfl)
    exact ⟨hnext.fails.trans (or_iff_right hbig).symm, hnext.writes⟩

theorem map {φ : Bytes → Bytes} (h : Writes w big form) (hform : ∀ bytes, form bytes → form' (φ bytes)) :
    Writes (w.map φ) big form' := by
  cases w with
  | error e => exact ⟨⟨fun _ => h.fails.1 ⟨e, rfl⟩, fun _ => ⟨e, rfl⟩⟩, nofun⟩
  | ok bytes =>
    have hbig : ¬ big := fun hb => by
      obtain ⟨_, ⟨⟩⟩ := h.fails.2 hb
    refine ⟨⟨nofun, fun hb => absurd hb hbig⟩, ?_⟩
    rintro _ ⟨⟩
    exact hform bytes (h.writes bytes rfl)

theorem encodeAll_cons {α : Type} (write : α → Except EncodeError Bytes) (x : α) (xs : List α) :
    Assembly.encodeAll write (x :: xs) =
      write x >>= fun bytes => (Assembly.encodeAll write xs).map (bytes ++ ·) := by
  rw [Assembly.encodeAll, Assembly.encodeAll, List.mapM_cons]
  cases write x with
  | error => rfl
  | ok bytes => cases xs.mapM write <;> rfl

/-- Several items, each written as the form of some `y` that stands for it. -/
theorem all {α β : Type} {write : α → Except EncodeError Bytes} {big : α → Prop} {φ : β → α}
    {form : β → Bytes} (h : ∀ x, Writes (write x) (big x) fun bytes => ∃ y, φ y = x ∧ form y = bytes) (xs : List α) :
    Writes (Assembly.encodeAll write xs) (∃ x ∈ xs, big x) fun bytes =>
      ∃ ys : List β, ys.map φ = xs ∧ ys.flatMap form = bytes := by
  induction xs with
  | nil => exact (Writes.ok ⟨[], rfl, rfl⟩).congr (by simp) fun _ => id
  | cons x xs ih =>
    rw [encodeAll_cons]
    refine ((h x).bind fun bytes hx => ih.map fun rest hxs => ?_).congr (by simp) fun _ => id
    obtain ⟨y, rfl, rfl⟩ := hx
    obtain ⟨ys, rfl, rfl⟩ := hxs
    exact ⟨y :: ys, rfl, rfl⟩

end Writes

theorem writes_word (what : String) (n : Nat) :
    Writes (encodeWord what n) (UInt32.size ≤ n) fun bytes => n < UInt32.size ∧ bytes = toBigEndian 4 n := by
  rw [encodeWord]
  split
  · next h => exact (Writes.ok ⟨h, rfl⟩).congr (by simp [h]) fun _ => id
  · next h => exact ⟨⟨fun _ => Nat.le_of_not_lt h, fun _ => ⟨_, rfl⟩⟩, nofun⟩

theorem writes_string (what : String) (w : Bytes) :
    Writes (encodeString what w) (UInt32.size ≤ w.length) (IsString w) := by
  refine (writes_word what w.length).map fun bytes h => ?_
  obtain ⟨hlt, rfl⟩ := h
  exact ⟨hlt, rfl⟩

namespace Instruction

/-- A length or a target of the instruction does not fit in 32 bits. -/
def Oversized : Instruction → Prop
  | jump t | call t | choice t | commit t | partialCommit t | backCommit t => UInt32.size ≤ t
  | string w | notString w | optionalString w => UInt32.size ≤ w.length
  | tag label | value label | define label | is label | isa label => UInt32.size ≤ (Text.encode label).length
  | _ => False

theorem writes_operands (i : Instruction) : Writes i.encodeOperands i.Oversized i.HasOperands := by
  cases i with
  | jump t | call t | choice t | commit t | partialCommit t | backCommit t => exact writes_word _ t
  | charRange | exit | ret | fail | failTwice | any | nodeOpen | nodeClose | mark | scopeBegin | scopeEnd =>
    exact .ok rfl
  | charSet set | notCharSet set | optionalCharSet set | zeroMoreCharSet set => exact .ok set.hasBitmap_encode
  | string w | notString w | optionalString w => exact writes_string _ w
  | mappedChoice table => exact .ok ⟨table.entries, table.length_entries_lt, table.lists_entries, rfl⟩
  | tag label | value label | define label | is label | isa label => exact writes_string _ _

theorem writes_instruction (i : Instruction) :
    Writes i.encode i.Oversized fun bytes => ∃ r : Record, r.instruction = i ∧ r.bytes = bytes :=
  i.writes_operands.map fun operands h => ⟨⟨i, operands, h⟩, rfl, rfl⟩

end Instruction

/-! ## Assemblies -/

theorem writes_rule (r : Rule) : Writes (Assembly.encodeRule r) (UInt32.size ≤ (Text.encode r.name).length)
    fun bytes => ∃ e : RuleEntry, e.rule = r ∧ e.bytes = bytes := by
  refine (writes_string _ _).map fun bytes h => ?_
  obtain ⟨fits, rfl⟩ := h
  refine ⟨⟨⟨Text.encode r.name, fits⟩, r.start⟩, ?_, rfl⟩
  rw [RuleEntry.rule, Text.decodeLossy_encode]

namespace Assembly

/-- Something in the assembly does not fit in the 32 bits in which its length or target is written. -/
inductive Oversized (a : Assembly) : Prop where
  | fileName (h : UInt32.size ≤ (Text.encode a.fileName).length)
  | ruleCount (h : UInt32.size ≤ a.rules.size)
  | ruleName (r : Rule) (mem : r ∈ a.rules.toList) (h : UInt32.size ≤ (Text.encode r.name).length)
  | operand (i : Instruction) (mem : i ∈ a.code.toList) (h : i.Oversized)

/-- The header of the written assembly. -/
def header (a : Assembly) : Header :=
  ⟨a.version, a.fileName, a.poolSizeHint, a.rules, .ofNat a.code.size⟩

/-- The layout is that of the assembly. -/
structure IsLaidOutAs (a : Assembly) (l : Layout) : Prop where
  header : l.header (.ofNat l.records.length) = a.header
  code : l.code = a.code.toList
  trailing : l.trailing = []

/-- An assembly is written as its layout, unless something in it is oversized. -/
theorem writes_assembly (a : Assembly) (fits : a.code.size < UInt64.size) :
    Writes a.encode a.Oversized fun bytes => ∃ l : Layout, a.IsLaidOutAs l ∧ l.bytes = bytes := by
  rw [encode]
  refine ((writes_string _ _).bind fun fileName hname => (writes_word _ _).bind fun count hcount =>
    (Writes.all writes_rule _).bind fun rules hrules =>
    (Writes.all Instruction.writes_instruction _).bind fun code hcode => Writes.ok ?_).congr ?_ fun _ => id
  · obtain ⟨nameFits, rfl⟩ := hname
    obtain ⟨countFits, rfl⟩ := hcount
    obtain ⟨entries, hentries, rfl⟩ := hrules
    obtain ⟨records, hrecords, rfl⟩ := hcode
    have hruleCount : entries.length = a.rules.size := by simpa using congrArg List.length hentries
    have hsize : records.length = a.code.size := by simpa using congrArg List.length hrecords
    -- The layout has room for the lengths because writing them did not fail.
    let p : Preamble :=
      ⟨a.version, ⟨Text.encode a.fileName, nameFits⟩, a.poolSizeHint, entries, hruleCount ▸ countFits⟩
    refine ⟨⟨p, records, hsize ▸ fits, []⟩, ⟨?_, hrecords, rfl⟩, ?_⟩
    · simp [p, Preamble.header, Text.decodeLossy_encode, hentries, header, hsize]
    · simp [p, Layout.bytes, Preamble.bytes, ShortBytes.form, hruleCount, hsize]
  -- The cases of `Oversized` come in the order in which the fields are written.
  · constructor
    · rintro (h | h | ⟨r, mem, h⟩ | ⟨i, mem, h⟩ | h)
      · exact .fileName h
      · exact .ruleCount h
      · exact .ruleName r mem h
      · exact .operand i mem h
      · exact h.elim
    · rintro (h | h | ⟨r, mem, h⟩ | ⟨i, mem, h⟩)
      · exact .inl h
      · exact .inr (.inl h)
      · exact .inr (.inr (.inl ⟨r, mem, h⟩))
      · exact .inr (.inr (.inr (.inl ⟨i, mem, h⟩)))

/-! ## Loading what was written -/

/-- Runs from the named rule start at `start`, and no target leads outside the assembly. -/
structure Loads (a : Assembly) (rule? : Option String) (start : UInt64) : Prop where
  starts : StartsAt a.rules.toList rule? start
  startInside : start.toNat < a.code.size
  targetsInside : ∀ i ∈ a.code.toList, ∀ t ∈ i.targets, t < a.code.size

variable {a : Assembly} {l : Layout}

theorem IsLaidOutAs.length_records (h : a.IsLaidOutAs l) : l.records.length = a.code.size := by
  simpa [Layout.code] using congrArg List.length h.code

theorem IsLaidOutAs.loads_iff (h : a.IsLaidOutAs l) {rule? : Option String} {start : UInt64} :
    l.Loads rule? start ↔ a.Loads rule? start := by
  have hrules : l.rules.map RuleEntry.rule = a.rules.toList := congrArg (fun h => h.rules.toList) h.header
  have hsize := h.length_records
  refine ⟨fun h' => ?_, fun h' => ?_⟩
  · obtain ⟨starts, startInside, targetsInside⟩ := h'
    exact ⟨hrules ▸ starts, hsize ▸ startInside, by rwa [h.code, hsize] at targetsInside⟩
  · obtain ⟨starts, startInside, targetsInside⟩ := h'
    exact ⟨hrules ▸ starts, hsize ▸ startInside, by rwa [h.code, hsize]⟩

/-- The bytes of an assembly's layout load as the assembly, if they load. -/
theorem IsLaidOutAs.load_eq_ok (h : a.IsLaidOutAs l) {options : LoadOptions}
    (lenient : options.strictVersion = false) (rule? : Option String) (loaded : Loaded) :
    load options l.bytes rule? = .ok loaded ↔
      ∃ start, a.Loads rule? start ∧ loaded = ⟨a.header, ⟨a.code⟩, start.toNat, 0⟩ := by
  have hloaded (start : UInt64) : l.loaded start = ⟨a.header, ⟨a.code⟩, start.toNat, 0⟩ := by
    simp [Layout.loaded, h.header, h.code, h.trailing, Program.ofList]
  rw [PegMachine.load_eq_ok]
  refine ⟨fun h' => ?_, fun h' => ?_⟩
  · obtain ⟨l', start, hbytes, -, hloads, rfl⟩ := h'
    obtain rfl := Layout.bytes_injective hbytes
    exact ⟨start, h.loads_iff.1 hloads, hloaded start⟩
  · obtain ⟨start, hloads, rfl⟩ := h'
    exact ⟨l, start, rfl, accepts_iff.2 (by simp [lenient]), h.loads_iff.2 hloads, hloaded start⟩

theorem IsLaidOutAs.read_header (h : a.IsLaidOutAs l) :
    ∃ rest, Header.read.run (.ofBytes l.bytes) = .ok a.header rest := by
  have hcount : (UInt64.ofNat l.records.length).toNat = l.records.length :=
    UInt64.toNat_ofNat_of_lt' l.recordsFit
  refine ⟨⟨0 + _, l.records.flatMap Record.bytes ++ l.trailing⟩, (reads_header _ _ _).2
    ⟨_, ⟨l.toPreamble, .ofNat l.records.length, h.header, rfl⟩, ?_, rfl⟩⟩
  simp [Reader.ofBytes, Layout.bytes, hcount]

/-- **The loader undoes the writer.** Writing an assembly fails exactly if something in it is oversized.
    From the written bytes the header is read as it was, and lenient options load them exactly if every
    target and the start point are inside the program; then the program is the assembly's code, and the
    context holds the start point, the number of instructions and the hint. The number of instructions is
    a machine word, as the length of a vector always is. -/
theorem encode_load (a : Assembly) (fits : a.code.size < UInt64.size) :
    ((∃ error, a.encode = .error error) ↔ a.Oversized) ∧
    ∀ bytes, a.encode = .ok bytes →
      (∃ rest, Header.read.run (.ofBytes bytes) = .ok a.header rest) ∧
      ∀ (c : Context) (options : LoadOptions) (rule? : Option String), options.strictVersion = false →
        ((∃ program, (c.loadInto options bytes rule?).1 = .ok program) ↔ ∃ start, a.Loads rule? start) ∧
        ∀ program c', c.loadInto options bytes rule? = (.ok program, c') →
          program = ⟨a.code⟩ ∧ c'.instructionCount = a.code.size ∧ c'.poolSizeHint = a.poolSizeHint.toNat ∧
            ∃ start, StartsAt a.rules.toList rule? start ∧ c'.startPoint = start.toNat := by
  have written := a.writes_assembly fits
  refine ⟨written.fails, fun bytes hbytes => ?_⟩
  obtain ⟨l, h, rfl⟩ := written.writes bytes hbytes
  refine ⟨h.read_header, fun c options rule? lenient => ?_⟩
  have hload := h.load_eq_ok lenient rule?
  rw [Context.loadInto]
  cases hresult : load options l.bytes rule? with
  | error error =>
    refine ⟨⟨nofun, ?_⟩, nofun⟩
    intro h'
    obtain ⟨start, hloads⟩ := h'
    rw [(hload _).2 ⟨start, hloads, rfl⟩] at hresult
    cases hresult
  | ok loaded =>
    obtain ⟨start, hloads, rfl⟩ := (hload loaded).1 hresult
    refine ⟨⟨fun _ => ⟨start, hloads⟩, fun _ => ⟨_, rfl⟩⟩, ?_⟩
    rintro _ _ ⟨⟩
    exact ⟨rfl, rfl, rfl, start, hloads.starts, rfl⟩

/-- A rule that consumes one byte, behind the reserved instruction. -/
def oneByte : Assembly := ((new "one.peg").addRule "byte" 1).extend [.any, .ret]

theorem encode_load_oneByte : ∃ bytes program c', oneByte.encode = .ok bytes ∧
    (∃ rest, Header.read.run (.ofBytes bytes) = .ok oneByte.header rest) ∧
    (Context.new {}).loadInto {} bytes (some "byte") = (.ok program, c') ∧
    program = .ofList [.exit, .any, .ret] ∧ c'.instructionCount = 3 := by
  obtain ⟨bytes, hbytes⟩ : ∃ bytes, oneByte.encode = .ok bytes := ⟨_, rfl⟩
  obtain ⟨hheader, hload⟩ := (encode_load oneByte (by decide)).2 bytes hbytes
  obtain ⟨hloads, hloaded⟩ := hload (.new {}) {} (some "byte") rfl
  have loads : oneByte.Loads (some "byte") 1 :=
    ⟨.named [] [] "byte" 1 (by simp) (by decide), by decide, by decide⟩
  obtain ⟨program, hprogram⟩ := hloads.2 ⟨1, loads⟩
  have hinto : (Context.new {}).loadInto {} bytes (some "byte") =
      (.ok program, ((Context.new {}).loadInto {} bytes (some "byte")).2) := Prod.ext hprogram rfl
  obtain ⟨rfl, hcount, -⟩ := hloaded _ _ hinto
  exact ⟨bytes, _, _, hbytes, hheader, hinto, rfl, hcount⟩

end Assembly

end PegMachine
