import PegMachine.Bytecode.Header
import PegMachine.Proofs.Bytecode.Reading
/-!
  Where a read fails.

  `Reads` says on which bytes a read succeeds. `Fails` says why and where it fails on all others: behind a front of
  complete fields there is a fault, and the error of the read is the one for that fault at that place. What is
  proved:
    1. one lemma for each way to put reads together (`pure`, `bind`, `map`, `inspect`, `times`). A read put together
       of two fails as the first does, or as the second does behind what the first has read. Where bytes can only be
       missing, the fields of the parts make up those of the whole (`lack_bind`, `lack_times`);
    2. one lemma for each primitive read: a field is missing if it needs more bytes than are left.
-/
namespace PegMachine

/-! ## Faults -/

/-- What can be wrong at a place of the bytes. -/
inductive Fault where
  /-- The next field needs more bytes than are left. -/
  | missing (wanted : String)
  | notOpcode (byte : UInt8)
  /-- The text whose length stands here is not UTF-8. -/
  | notText (what : String)
  /-- What was read so far is a header in a version that is refused. -/
  | refused (version : Version)

/-- The error for a fault at an offset of bytes that end at `stop`. -/
def Fault.error (stop offset : Nat) : Fault → LoadError
  | missing wanted => .truncated stop wanted
  | notOpcode byte => .unknownOpcode byte offset
  | notText what => .invalidUtf8 what offset
  | refused version => .unsupportedVersion version.major version.minor

/-- The fields of a form in reading order: behind these bytes, which are complete fields, the field of that name and
    width comes next. -/
abbrev Fields := Bytes → String → Nat → Prop

namespace Fields

/-- One field. -/
def one (name : String) (size : Nat) : Fields := fun front wanted width =>
  front = [] ∧ wanted = name ∧ width = size

/-- The fields of one form, and behind it those of the next. -/
def seq {α : Type} (fields : Fields) (f : α → Bytes → Prop) (next : α → Fields) : Fields := fun front wanted width =>
  fields front wanted width ∨ ∃ a read rest, f a read ∧ front = read ++ rest ∧ next a rest wanted width

/-- The fields of as many forms, one after the other. -/
def times {β : Type} (fields : Fields) (form : β → Bytes) (count : Nat) : Fields := fun front wanted width =>
  ∃ (xs : List β) (rest : Bytes), xs.length < count ∧ front = xs.flatMap form ++ rest ∧ fields rest wanted width

/-- Behind the front, the next field needs more bytes than are left. -/
def Lack (fields : Fields) (front back : Bytes) (fault : Fault) : Prop :=
  ∃ wanted width, fields front wanted width ∧ back.length < width ∧ fault = .missing wanted

end Fields

variable {α β γ : Type} {r : Read α} {f : α → Bytes → Prop} {g g' : Bytes → Bytes → Fault → Prop}
variable {fields fields' : Fields}

/-- The read fails exactly if there is a fault in the bytes, and says what it is and where. -/
def Fails (r : Read α) (g : Bytes → Bytes → Fault → Prop) : Prop :=
  ∀ before error, (∃ after, r.run before = .error error after) ↔
    ∃ front back fault, g front back fault ∧ before.rest = front ++ back ∧
      error = fault.error before.stop (before.pos + front.length)

namespace Fails

theorem congr (h : Fails r g) (hg : ∀ front back fault, g front back fault ↔ g' front back fault) : Fails r g' := by
  intro before error
  rw [h before error]
  simp only [hg]

/-! ## Putting reads together -/

theorem pure (a : α) : Fails (pure a) fun _ _ _ => False := by
  intro before error
  constructor
  · intro h'
    obtain ⟨after, h⟩ := h'
    cases h
  · intro h'
    obtain ⟨_, _, _, ⟨⟩, _⟩ := h'

/-- A refusal of what was read so far. Its error does not say where. -/
theorem throw (fault : Fault) {error : LoadError} (h : ∀ stop offset, fault.error stop offset = error) :
    Fails (throw error : Read α) fun front _ fault' => front = [] ∧ fault' = fault := by
  intro before error'
  constructor
  · intro h'
    obtain ⟨after, hrun⟩ := h'
    cases hrun
    exact ⟨[], before.rest, fault, ⟨rfl, rfl⟩, rfl, (h _ _).symm⟩
  · intro h'
    obtain ⟨_, _, _, ⟨rfl, rfl⟩, -, rfl⟩ := h'
    exact ⟨before, by rw [h]; rfl⟩

theorem exists_error_bind {k : α → Read β} {before : Reader} {error : LoadError} :
    (∃ after, (r >>= k).run before = .error error after) ↔
      (∃ after, r.run before = .error error after) ∨
        ∃ a mid, r.run before = .ok a mid ∧ ∃ after, (k a).run mid = .error error after := by
  rw [EStateM.run_bind]
  cases r.run before with
  | ok a mid => simp
  | error => simp

/-- Behind what one read has read the next one fails exactly if there is a fault there. -/
theorem behind {next : Read β} (reads : Reads r f) (h : Fails next g) (a : α) (before : Reader) (error : LoadError) :
    (∃ mid, r.run before = .ok a mid ∧ ∃ after, next.run mid = .error error after) ↔
      ∃ read rest back fault, f a read ∧ g rest back fault ∧ before.rest = read ++ rest ++ back ∧
        error = fault.error before.stop (before.pos + (read ++ rest).length) := by
  constructor
  · intro h'
    obtain ⟨mid, ok, fails⟩ := h'
    obtain ⟨read, hread, hrest, hpos⟩ := (reads a before mid).1 ok
    obtain ⟨rest, back, fault, hg, hmid, rfl⟩ := (h mid error).1 fails
    refine ⟨read, rest, back, fault, hread, hg, ?_, ?_⟩
    · rw [hrest, hmid, List.append_assoc]
    · rw [reads.stop_eq ok, hpos, List.length_append, Nat.add_assoc]
  · intro h'
    obtain ⟨read, rest, back, fault, hread, hg, hrest, rfl⟩ := h'
    have ok : r.run before = .ok a ⟨before.pos + read.length, rest ++ back⟩ :=
      (reads a _ _).2 ⟨read, hread, by rw [hrest, List.append_assoc], rfl⟩
    refine ⟨_, ok, (h _ _).2 ⟨rest, back, fault, hg, rfl, ?_⟩⟩
    rw [reads.stop_eq ok, List.length_append, Nat.add_assoc]

theorem bind {k : α → Read β} {gk : α → Bytes → Bytes → Fault → Prop} (reads : Reads r f) (h : Fails r g)
    (hk : ∀ a, Fails (k a) (gk a)) :
    Fails (r >>= k) fun front back fault =>
      g front back fault ∨ ∃ a read rest, f a read ∧ front = read ++ rest ∧ gk a rest back fault := by
  intro before error
  rw [exists_error_bind, h before error]
  simp only [behind reads (hk _)]
  constructor
  · intro h'
    obtain ⟨front, back, fault, hg, hrest, rfl⟩ | ⟨a, read, rest, back, fault, hread, hg, hrest, rfl⟩ := h'
    · exact ⟨front, back, fault, .inl hg, hrest, rfl⟩
    · exact ⟨read ++ rest, back, fault, .inr ⟨a, read, rest, hread, rfl, hg⟩, hrest, rfl⟩
  · intro h'
    obtain ⟨front, back, fault, hg | ⟨a, read, rest, hread, rfl, hg⟩, hrest, rfl⟩ := h'
    · exact .inl ⟨front, back, fault, hg, hrest, rfl⟩
    · exact .inr ⟨a, read, rest, back, fault, hread, hg, hrest, rfl⟩

theorem map {φ : α → β} (reads : Reads r f) (h : Fails r g) : Fails (φ <$> r) g := by
  rw [map_eq_pure_bind]
  exact (h.bind reads fun a => .pure (φ a)).congr fun front back fault => by simp

/-- A read that goes by what another has read, and may refuse it. The refusal says where that read began. -/
theorem inspect {c : α → Option γ} {k : Reader → α → Read β} {q : γ → Bytes → Bytes → Fault → Prop} {φ : α → Fault}
    (reads : Reads r f) (h : Fails r g) (accepted : ∀ s a b, c a = some b → Fails (k s a) (q b))
    (refused : ∀ s a, c a = none → k s a = MonadExcept.throw ((φ a).error s.stop s.pos)) :
    Fails (get >>= fun s => r >>= k s) fun front back fault =>
      g front back fault ∨
        (front = [] ∧ ∃ a read rest, f a read ∧ c a = none ∧ back = read ++ rest ∧ fault = φ a) ∨
        ∃ a b read rest, f a read ∧ c a = some b ∧ front = read ++ rest ∧ q b rest back fault := by
  intro before error
  show (∃ after, (r >>= k before).run before = .error error after) ↔ _
  rw [exists_error_bind, h before error]
  constructor
  · intro h'
    obtain ⟨front, back, fault, hg, hrest, rfl⟩ | ⟨a, mid, ok, fails⟩ := h'
    · exact ⟨front, back, fault, .inl hg, hrest, rfl⟩
    · cases hc : c a with
      | none =>
        -- The fault is where the first read began, so what was read is behind it.
        rw [refused before a hc] at fails
        obtain ⟨after, ⟨⟩⟩ := fails
        obtain ⟨read, hread, hrest, -⟩ := (reads a before mid).1 ok
        exact ⟨[], before.rest, φ a, .inr (.inl ⟨rfl, a, read, mid.rest, hread, hc, hrest, rfl⟩), rfl, rfl⟩
      | some b =>
        obtain ⟨read, rest, back, fault, hread, hg, hrest, rfl⟩ :=
          (behind reads (accepted before a b hc) a before error).1 ⟨mid, ok, fails⟩
        exact ⟨read ++ rest, back, fault, .inr (.inr ⟨a, b, read, rest, hread, hc, rfl, hg⟩), hrest, rfl⟩
  · intro h'
    obtain ⟨front, back, fault, hg | ⟨rfl, a, read, rest, hread, hc, rfl, rfl⟩ | ⟨a, b, read, rest, hread, hc, rfl, hg⟩,
        hrest, rfl⟩ := h'
    · exact .inl ⟨front, back, fault, hg, hrest, rfl⟩
    · refine .inr ⟨a, ⟨before.pos + read.length, rest⟩, (reads a _ _).2 ⟨read, hread, hrest, rfl⟩, ?_⟩
      rw [refused before a hc]
      exact ⟨_, rfl⟩
    · obtain ⟨mid, ok, fails⟩ :=
        (behind reads (accepted before a b hc) a before _).2 ⟨read, rest, back, fault, hread, hg, hrest, rfl⟩
      exact .inr ⟨a, mid, ok, fails⟩

/-- Several reads of one kind, added to what was read before. One of them fails behind the forms of those before
    it. -/
theorem timesFrom {φ : β → α} {form : β → Bytes} (reads : Reads r fun a bytes => ∃ x, φ x = a ∧ form x = bytes)
    (h : Fails r g) (count : Nat) (items : Array α) :
    Fails (Reader.timesFrom r count items) fun front back fault =>
      ∃ (xs : List β) (rest : Bytes), xs.length < count ∧ front = xs.flatMap form ++ rest ∧ g rest back fault := by
  induction count generalizing items with
  | zero => exact (Fails.pure items).congr fun front back fault => by simp
  | succ count ih =>
    refine (h.bind reads fun a => ih (items.push a)).congr fun front back fault => ?_
    constructor
    · intro h'
      obtain hg | ⟨_, _, _, ⟨x, rfl, rfl⟩, rfl, xs, rest, more, rfl, hg⟩ := h'
      · exact ⟨[], front, Nat.succ_pos count, rfl, hg⟩
      · exact ⟨x :: xs, rest, Nat.succ_lt_succ more, by simp, hg⟩
    · intro h'
      obtain ⟨xs, rest, more, rfl, hg⟩ := h'
      cases xs with
      | nil => exact .inl hg
      | cons x xs =>
        exact .inr ⟨φ x, form x, _, ⟨x, rfl, rfl⟩, by simp, xs, rest, Nat.lt_of_succ_lt_succ more, rfl, hg⟩

theorem times {φ : β → α} {form : β → Bytes} (reads : Reads r fun a bytes => ∃ x, φ x = a ∧ form x = bytes)
    (h : Fails r g) (count : Nat) :
    Fails (Reader.times count r) fun front back fault =>
      ∃ (xs : List β) (rest : Bytes), xs.length < count ∧ front = xs.flatMap form ++ rest ∧ g rest back fault :=
  h.timesFrom reads count #[]

/-! ## Reads that can only lack bytes -/

theorem lack_congr (h : Fails r fields.Lack)
    (hfields : ∀ front wanted width, fields front wanted width ↔ fields' front wanted width) :
    Fails r fields'.Lack :=
  h.congr fun front back fault => by simp only [Fields.Lack, hfields]

theorem lack_pure (a : α) : Fails (Pure.pure a) (Fields.Lack fun _ _ _ => False) :=
  (Fails.pure a).congr fun front back fault => by simp [Fields.Lack]

theorem lack_bind {k : α → Read β} {next : α → Fields} (reads : Reads r f) (h : Fails r fields.Lack)
    (hk : ∀ a, Fails (k a) (next a).Lack) : Fails (r >>= k) (fields.seq f next).Lack := by
  refine (h.bind reads hk).congr fun front back fault => ?_
  constructor
  · intro h'
    obtain ⟨wanted, width, field, short, rfl⟩ | ⟨a, read, rest, hf, rfl, wanted, width, field, short, rfl⟩ := h'
    · exact ⟨wanted, width, .inl field, short, rfl⟩
    · exact ⟨wanted, width, .inr ⟨a, read, rest, hf, rfl, field⟩, short, rfl⟩
  · intro h'
    obtain ⟨wanted, width, field | ⟨a, read, rest, hf, rfl, field⟩, short, rfl⟩ := h'
    · exact .inl ⟨wanted, width, field, short, rfl⟩
    · exact .inr ⟨a, read, rest, hf, rfl, wanted, width, field, short, rfl⟩

theorem lack_times {φ : β → α} {form : β → Bytes} (reads : Reads r fun a bytes => ∃ x, φ x = a ∧ form x = bytes)
    (h : Fails r fields.Lack) (count : Nat) : Fails (Reader.times count r) (fields.times form count).Lack := by
  refine (h.times reads count).congr fun front back fault => ?_
  constructor
  · intro h'
    obtain ⟨xs, rest, more, rfl, wanted, width, field, short, rfl⟩ := h'
    exact ⟨wanted, width, ⟨xs, rest, more, rfl, field⟩, short, rfl⟩
  · intro h'
    obtain ⟨wanted, width, ⟨xs, rest, more, rfl, field⟩, short, rfl⟩ := h'
    exact ⟨xs, rest, more, rfl, wanted, width, field, short, rfl⟩

end Fails

/-! ## Primitive reads -/

/-- The fields of a string: its length, and as many bytes. -/
inductive StringField (what : String) : Fields where
  | length : StringField what [] what 4
  | text (length : UInt32) : StringField what (toBigEndian 4 length.toNat) what length.toNat

/-- The bytes are the UTF-8 form of no text. -/
def NotUtf8 (bytes : Bytes) : Prop := ∀ text : String, Text.encode text ≠ bytes

theorem notUtf8_iff {bytes : Bytes} : NotUtf8 bytes ↔ Text.decode? bytes = none := by
  rw [Option.eq_none_iff_forall_ne_some]
  refine forall_congr' fun text => not_congr ?_
  rw [Text.decode?_eq_some_iff, eq_comm]

namespace Reader

variable {wanted : String}

theorem fails_bytes (count : Nat) : Fails (bytes count wanted) (Fields.one wanted count).Lack := by
  intro before error
  have run_bytes : (bytes count wanted).run before =
      if (before.rest.take count).length = count then
        .ok (before.rest.take count) ⟨before.pos + count, before.rest.drop count⟩
      else .error (.truncated before.stop wanted) before := rfl
  rw [run_bytes]
  constructor
  · intro h'
    obtain ⟨after, h⟩ := h'
    split at h
    · cases h
    · next short =>
      cases h
      refine ⟨[], before.rest, .missing wanted, ⟨wanted, _, ⟨rfl, rfl, rfl⟩, ?_, rfl⟩, rfl, rfl⟩
      rw [List.length_take] at short
      omega
  · intro h'
    obtain ⟨_, back, _, ⟨_, count, ⟨rfl, rfl, rfl⟩, short, rfl⟩, hrest, rfl⟩ := h'
    have missing : (before.rest.take count).length ≠ count := by
      rw [hrest, List.nil_append, List.length_take]
      omega
    exact ⟨before, if_neg missing⟩

theorem fails_number (width : Nat) : Fails (number width wanted) (Fields.one wanted width).Lack :=
  (fails_bytes width).map (reads_bytes width)

theorem fails_u8 : Fails (u8 wanted) (Fields.one wanted 1).Lack := (fails_number 1).map (reads_number 1)

theorem fails_u16 : Fails (u16 wanted) (Fields.one wanted 2).Lack := (fails_number 2).map (reads_number 2)

theorem fails_u32 : Fails (u32 wanted) (Fields.one wanted 4).Lack := (fails_number 4).map (reads_number 4)

theorem fails_u64 : Fails (u64 wanted) (Fields.one wanted 8).Lack := (fails_number 8).map (reads_number 8)

theorem fails_str : Fails (str wanted) (Fields.Lack (StringField wanted)) := by
  refine (Fails.lack_bind reads_u32 fails_u32 fun length => fails_bytes length.toNat).lack_congr ?_
  intro front name width
  constructor
  · intro h'
    obtain ⟨rfl, rfl, rfl⟩ | ⟨length, _, _, rfl, rfl, rfl, rfl, rfl⟩ := h'
    · exact .length
    · rw [List.append_nil]
      exact .text length
  · intro field
    cases field with
    | length => exact .inl ⟨rfl, rfl, rfl⟩
    | text length => exact .inr ⟨length, _, [], rfl, (List.append_nil _).symm, rfl, rfl, rfl⟩

theorem fails_utf8 : Fails (utf8 wanted) fun front back fault =>
    Fields.Lack (StringField wanted) front back fault ∨
      front = [] ∧ ∃ text bytes rest, IsString text bytes ∧ NotUtf8 text ∧ back = bytes ++ rest ∧
        fault = .notText wanted := by
  refine (Fails.inspect (c := Text.decode?) (φ := fun _ => .notText wanted) reads_str fails_str
    (q := fun _ _ _ _ => False) (fun s w text hw => ?_) fun s w hw => ?_).congr fun front back fault => ?_
  · simp only [hw]
    exact .pure text
  · simp only [hw]
    rfl
  · simp only [notUtf8_iff, and_false, exists_false, or_false]

end Reader

end PegMachine
