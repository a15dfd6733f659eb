import PegMachine.Proofs.Bytecode.Faults
/-!
  Where a reader stands.

  A reader does not keep its buffer, only how many bytes it has read and what is left of them. `standing buffer pos`
  is the reader that has read the first `pos` bytes of the buffer. Whatever is read one after the other, and whether
  it succeeds or fails, the reader stands inside its buffer and has what the buffer has behind `pos`.
  What is proved:
    1. `Takes`: a read of a fixed size gives what the next bytes write and goes behind them, or fails at the end of
       the buffer and stays (`takes_bytes`, `takes_word`);
    2. `TakesString`: a string is two such reads, and one that fails leaves the reader behind the last one that
       succeeded (`takesString_str`, `takesString_utf8`);
    3. `run_bytes_checked`: the end of raw bytes can be checked in machine words;
    4. `reads_exact`: all of this holds after any sequence of reads.
-/
namespace PegMachine

namespace Read

variable {α β : Type} {read : Read α} {k : α → Read β} {φ : α → β} {a : α} {r r' : Reader} {error : LoadError}

/-- Where the read leaves the reader, whether it succeeds or fails. -/
def leave (read : Read α) (r : Reader) : Reader :=
  match read.run r with
  | .ok _ r' => r'
  | .error _ r' => r'

theorem leave_of_ok (h : read.run r = .ok a r') : read.leave r = r' := by rw [leave, h]

theorem leave_of_error (h : read.run r = .error error r') : read.leave r = r' := by rw [leave, h]

theorem run_bind_of_ok (h : read.run r = .ok a r') : (read >>= k).run r = (k a).run r' := by
  rw [EStateM.run_bind, h]

theorem run_bind_of_error (h : read.run r = .error error r') : (read >>= k).run r = .error error r' := by
  rw [EStateM.run_bind, h]

theorem run_map_of_ok (h : read.run r = .ok a r') : (φ <$> read).run r = .ok (φ a) r' := by
  rw [map_eq_pure_bind, run_bind_of_ok h]
  rfl

theorem run_map_of_error (h : read.run r = .error error r') : (φ <$> read).run r = .error error r' := by
  rw [map_eq_pure_bind, run_bind_of_error h]

end Read

namespace Reader

variable {α : Type} {read : Read α} {form : α → Bytes} {buffer payload : Bytes} {pos width : Nat} {wanted : String}
  {length : UInt32}

/-- The reader that has read the first bytes of the buffer. -/
def standing (buffer : Bytes) (pos : Nat) : Reader := ⟨pos, buffer.drop pos⟩

theorem stop_standing (inside : pos ≤ buffer.length) : (standing buffer pos).stop = buffer.length := by
  show pos + (buffer.drop pos).length = buffer.length
  rw [List.length_drop]
  omega

/-- So many bytes of the buffer from a place on. -/
def slice (buffer : Bytes) (pos count : Nat) : Bytes := (buffer.drop pos).take count

theorem length_slice {count : Nat} (enough : pos + count ≤ buffer.length) :
    (slice buffer pos count).length = count := by
  rw [slice, List.length_take, List.length_drop]
  omega

/-! ## Reads of a fixed size -/

/-- The read gives what the next bytes are the form of and goes behind them. If they are not all there it fails at
    the end of the buffer and stays. -/
structure Takes (read : Read α) (form : α → Bytes) (buffer : Bytes) (pos width : Nat) (wanted : String) : Prop where
  complete : pos + width ≤ buffer.length → ∃ a, form a = slice buffer pos width ∧
    read.run (standing buffer pos) = .ok a (standing buffer (pos + width))
  incomplete : buffer.length < pos + width →
    read.run (standing buffer pos) = .error (.truncated buffer.length wanted) (standing buffer pos)

theorem run_bytes (count : Nat) (r : Reader) : (bytes count wanted).run r =
    if (r.rest.take count).length = count then .ok (r.rest.take count) ⟨r.pos + count, r.rest.drop count⟩
    else .error (.truncated r.stop wanted) r := rfl

theorem run_bytes_of_le {count : Nat} (enough : pos + count ≤ buffer.length) :
    (bytes count wanted).run (standing buffer pos) = .ok (slice buffer pos count) (standing buffer (pos + count)) := by
  have hlength : ((standing buffer pos).rest.take count).length = count := length_slice enough
  rw [run_bytes, if_pos hlength, standing, List.drop_drop]
  rfl

theorem takes_bytes (inside : pos ≤ buffer.length) (count : Nat) :
    Takes (bytes count wanted) id buffer pos count wanted where
  complete enough := ⟨_, rfl, run_bytes_of_le enough⟩
  incomplete short := by
    have hlength : ((standing buffer pos).rest.take count).length ≠ count := by
      rw [standing, List.length_take, List.length_drop]
      omega
    rw [run_bytes, if_neg hlength, stop_standing inside]

/-- A machine word is taken as the number that the next bytes write. -/
theorem takes_word {ofNat : Nat → α} {toNat : α → Nat} (hto : ∀ n < wordSize width, toNat (ofNat n) = n)
    (inside : pos ≤ buffer.length) :
    Takes (ofNat <$> number width wanted) (fun a => toBigEndian width (toNat a)) buffer pos width wanted where
  complete enough := by
    have hlength : (slice buffer pos width).length = width := length_slice enough
    have hlt : ofBigEndian (slice buffer pos width) < wordSize width := by
      have := ofBigEndian_lt (slice buffer pos width)
      rwa [hlength] at this
    have hform : toBigEndian width (ofBigEndian (slice buffer pos width)) = slice buffer pos width := by
      have := toBigEndian_ofBigEndian (slice buffer pos width)
      rwa [hlength] at this
    refine ⟨ofNat (ofBigEndian (slice buffer pos width)), ?_, ?_⟩
    · rw [hto _ hlt, hform]
    · exact Read.run_map_of_ok (Read.run_map_of_ok (run_bytes_of_le enough))
  incomplete short := Read.run_map_of_error (Read.run_map_of_error ((takes_bytes inside width).incomplete short))

theorem takes_u8 (inside : pos ≤ buffer.length) :
    Takes (u8 wanted) (fun b => toBigEndian 1 b.toNat) buffer pos 1 wanted :=
  takes_word (fun _ hn => UInt8.toNat_ofNat_of_lt' hn) inside

theorem takes_u16 (inside : pos ≤ buffer.length) :
    Takes (u16 wanted) (fun n => toBigEndian 2 n.toNat) buffer pos 2 wanted :=
  takes_word (fun _ hn => UInt16.toNat_ofNat_of_lt' hn) inside

theorem takes_u32 (inside : pos ≤ buffer.length) :
    Takes (u32 wanted) (fun n => toBigEndian 4 n.toNat) buffer pos 4 wanted :=
  takes_word (fun _ hn => UInt32.toNat_ofNat_of_lt' hn) inside

theorem takes_u64 (inside : pos ≤ buffer.length) :
    Takes (u64 wanted) (fun n => toBigEndian 8 n.toNat) buffer pos 8 wanted :=
  takes_word (fun _ hn => UInt64.toNat_ofNat_of_lt' hn) inside

theorem takes_set (inside : pos ≤ buffer.length) : Takes (set wanted) id buffer pos 32 wanted :=
  takes_bytes inside 32

/-- A read of a fixed size leaves the reader inside its buffer. -/
theorem Takes.leave (h : Takes read form buffer pos width wanted) (inside : pos ≤ buffer.length) :
    ∃ pos' ≤ buffer.length, read.leave (standing buffer pos) = standing buffer pos' := by
  rcases Nat.lt_or_ge buffer.length (pos + width) with short | enough
  · exact ⟨pos, inside, Read.leave_of_error (h.incomplete short)⟩
  · obtain ⟨a, -, hrun⟩ := h.complete enough
    exact ⟨_, enough, Read.leave_of_ok hrun⟩

/-! ## Machine arithmetic -/

/-- The end of the next bytes as machine words tell it: none if the sum does not fit in a word, or is behind the end
    of the buffer. -/
def checkedEnd? (size pos count : UInt64) : Option UInt64 :=
  (if pos.toNat + count.toNat < UInt64.size then some (pos + count) else none).filter (· ≤ size)

theorem checkedEnd?_of_le {size pos count : UInt64} (h : pos.toNat + count.toNat ≤ size.toNat) :
    ∃ stop, checkedEnd? size pos count = some stop ∧ stop.toNat = pos.toNat + count.toNat := by
  have fits : pos.toNat + count.toNat < UInt64.size := Nat.lt_of_le_of_lt h size.toNat_lt
  have hsum : (pos + count).toNat = pos.toNat + count.toNat := by
    rw [UInt64.toNat_add]
    exact Nat.mod_eq_of_lt fits
  have hle : pos + count ≤ size := by rwa [UInt64.le_iff_toNat_le, hsum]
  refine ⟨pos + count, ?_, hsum⟩
  rw [checkedEnd?, if_pos fits, Option.filter_some, decide_eq_true hle]
  rfl

theorem checkedEnd?_of_lt {size pos count : UInt64} (h : size.toNat < pos.toNat + count.toNat) :
    checkedEnd? size pos count = none := by
  rw [checkedEnd?]
  split
  · next fits =>
    have hsum : (pos + count).toNat = pos.toNat + count.toNat := by
      rw [UInt64.toNat_add]
      exact Nat.mod_eq_of_lt fits
    have hle : ¬ pos + count ≤ size := by
      rw [UInt64.le_iff_toNat_le, hsum]
      exact Nat.not_le_of_lt h
    rw [Option.filter_some, decide_eq_false hle]
    rfl
  · rfl

/-- However many bytes are asked for, checking the end in machine words decides as checking it in numbers does. -/
theorem run_bytes_checked {size pos count : UInt64} (hsize : size.toNat = buffer.length)
    (inside : pos.toNat ≤ buffer.length) : (bytes count.toNat wanted).run (standing buffer pos.toNat) =
      (checkedEnd? size pos count).elim (.error (.truncated buffer.length wanted) (standing buffer pos.toNat))
        fun stop => .ok (slice buffer pos.toNat count.toNat) (standing buffer stop.toNat) := by
  rcases Nat.lt_or_ge buffer.length (pos.toNat + count.toNat) with short | enough
  · have behind : size.toNat < pos.toNat + count.toNat := hsize ▸ short
    rw [(takes_bytes inside count.toNat).incomplete short, checkedEnd?_of_lt behind, Option.elim_none]
  · have before : pos.toNat + count.toNat ≤ size.toNat := hsize ▸ enough
    obtain ⟨stop, hstop, hsum⟩ := checkedEnd?_of_le before
    rw [run_bytes_of_le enough, hstop, Option.elim_some, hsum]

/-! ## Strings -/

/-- The read takes a 32-bit length and a payload of so many bytes. If the length is not all there it fails at the end
    of the buffer and stays; if the payload is not all there it fails at the end of the buffer behind the length. A
    payload that is the form of nothing is taken too, and the failure names the place of the length. -/
structure TakesString (read : Read α) (form : α → Bytes) (buffer : Bytes) (pos : Nat) (wanted : String) : Prop where
  withoutLength : buffer.length < pos + 4 →
    read.run (standing buffer pos) = .error (.truncated buffer.length wanted) (standing buffer pos)
  withLength : pos + 4 ≤ buffer.length → ∃ length : UInt32, toBigEndian 4 length.toNat = slice buffer pos 4 ∧
    (buffer.length < pos + 4 + length.toNat →
      read.run (standing buffer pos) = .error (.truncated buffer.length wanted) (standing buffer (pos + 4))) ∧
    (pos + 4 + length.toNat ≤ buffer.length →
      (∃ a, form a = slice buffer (pos + 4) length.toNat ∧
        read.run (standing buffer pos) = .ok a (standing buffer (pos + 4 + length.toNat))) ∨
      (∀ a, form a ≠ slice buffer (pos + 4) length.toNat) ∧
        read.run (standing buffer pos) = .error (.invalidUtf8 wanted pos) (standing buffer (pos + 4 + length.toNat)))

theorem takesString_str (inside : pos ≤ buffer.length) : TakesString (str wanted) id buffer pos wanted where
  withoutLength short := Read.run_bind_of_error ((takes_u32 inside).incomplete short)
  withLength enough := by
    have takesLength : Takes (u32 wanted) _ buffer pos 4 wanted := takes_u32 inside
    obtain ⟨length, hlength, hrun⟩ := takesLength.complete enough
    refine ⟨length, hlength, fun short => ?_, fun enough' => .inl ⟨_, rfl, ?_⟩⟩
    · exact (Read.run_bind_of_ok hrun).trans ((takes_bytes enough length.toNat).incomplete short)
    · exact (Read.run_bind_of_ok hrun).trans (run_bytes_of_le enough')

/-- Decodes what was read as a string. -/
def decodeAt (wanted : String) (offset : Nat) (payload : Bytes) : Read String :=
  match Text.decode? payload with
  | some text => pure text
  | none => throw (.invalidUtf8 wanted offset)

theorem run_utf8 (r : Reader) : (utf8 wanted).run r = (str wanted >>= decodeAt wanted r.pos).run r := rfl

theorem takesString_utf8 (inside : pos ≤ buffer.length) :
    TakesString (utf8 wanted) Text.encode buffer pos wanted where
  withoutLength short := (run_utf8 _).trans (Read.run_bind_of_error ((takesString_str inside).withoutLength short))
  withLength enough := by
    have takesPayload : TakesString (str wanted) id buffer pos wanted := takesString_str inside
    obtain ⟨length, hlength, incomplete, complete⟩ := takesPayload.withLength enough
    refine ⟨length, hlength, fun short => ?_, fun enough' => ?_⟩
    · exact (run_utf8 _).trans (Read.run_bind_of_error (incomplete short))
    obtain ⟨payload, hpayload, hrun⟩ | ⟨noPayload, -⟩ := complete enough'
    · have run_decode : (utf8 wanted).run (standing buffer pos) =
          (decodeAt wanted pos payload).run (standing buffer (pos + 4 + length.toNat)) :=
        (run_utf8 _).trans (Read.run_bind_of_ok hrun)
      rw [run_decode, ← hpayload, decodeAt]
      cases hdecode : Text.decode? payload with
      | some text => exact .inl ⟨text, (Text.decode?_eq_some_iff.1 hdecode).symm, rfl⟩
      | none => exact .inr ⟨notUtf8_iff.2 hdecode, rfl⟩
    · exact absurd rfl (noPayload _)

/-- A read of a string leaves the reader inside its buffer. -/
theorem TakesString.leave (h : TakesString read form buffer pos wanted) (inside : pos ≤ buffer.length) :
    ∃ pos' ≤ buffer.length, read.leave (standing buffer pos) = standing buffer pos' := by
  rcases Nat.lt_or_ge buffer.length (pos + 4) with short | enough
  · exact ⟨pos, inside, Read.leave_of_error (h.withoutLength short)⟩
  · obtain ⟨length, -, incomplete, complete⟩ := h.withLength enough
    rcases Nat.lt_or_ge buffer.length (pos + 4 + length.toNat) with short | enough'
    · exact ⟨pos + 4, enough, Read.leave_of_error (incomplete short)⟩
    · obtain ⟨a, -, hrun⟩ | ⟨-, hrun⟩ := complete enough'
      · exact ⟨_, enough', Read.leave_of_ok hrun⟩
      · exact ⟨_, enough', Read.leave_of_error hrun⟩

/-! ## Sequences of reads -/

/-- A read of a primitive kind. -/
inductive Request where
  | u8 | u16 | u32 | u64 | set | str | utf8
  | bytes (count : Nat)
  deriving DecidableEq, Repr

/-- Where the read leaves the reader. -/
def Request.leave (wanted : String) (r : Reader) : Request → Reader
  | u8 => (Reader.u8 wanted).leave r
  | u16 => (Reader.u16 wanted).leave r
  | u32 => (Reader.u32 wanted).leave r
  | u64 => (Reader.u64 wanted).leave r
  | set => (Reader.set wanted).leave r
  | str => (Reader.str wanted).leave r
  | utf8 => (Reader.utf8 wanted).leave r
  | bytes count => (Reader.bytes count wanted).leave r

/-- The reader of a buffer after reads for named fields, of which any may have failed. -/
def afterAll (buffer : Bytes) (requests : List (Request × String)) : Reader :=
  requests.foldl (fun r request => request.1.leave request.2 r) (.ofBytes buffer)

theorem standing_of_request (inside : pos ≤ buffer.length) (request : Request) :
    ∃ pos' ≤ buffer.length, request.leave wanted (standing buffer pos) = standing buffer pos' := by
  cases request with
  | u8 => exact (takes_u8 inside).leave inside
  | u16 => exact (takes_u16 inside).leave inside
  | u32 => exact (takes_u32 inside).leave inside
  | u64 => exact (takes_u64 inside).leave inside
  | set => exact (takes_set inside).leave inside
  | str => exact (takesString_str inside).leave inside
  | utf8 => exact (takesString_utf8 inside).leave inside
  | bytes count => exact (takes_bytes inside count).leave inside

theorem standing_of_requests (buffer : Bytes) (requests : List (Request × String)) :
    ∃ pos ≤ buffer.length, afterAll buffer requests = standing buffer pos := by
  induction requests using List.reverseRecOn with
  | nil => exact ⟨0, Nat.zero_le _, rfl⟩
  | append_singleton requests request ih =>
    obtain ⟨pos, inside, hstanding⟩ := ih
    have last : afterAll buffer (requests ++ [request]) = request.1.leave request.2 (afterAll buffer requests) := by
      rw [afterAll, List.foldl_append]
      rfl
    rw [last, hstanding]
    exact standing_of_request inside request.1

/-- **Reads stay inside the buffer and lose no bytes.** After any reads, of which any may have failed, the reader
    stands inside the buffer and has all that the buffer has behind that place. From there a read of a fixed size gives
    what the next bytes write, numbers with the most significant byte first, and goes behind them; if they are not all
    there it fails at the end of the buffer and stays. The end of raw bytes can be checked in machine words, however
    many of them are asked for. A string that is cut off leaves the reader before or behind its length, and one that is
    not UTF-8 leaves it behind the string and names the place of its length. -/
theorem reads_exact (buffer : Bytes) (requests : List (Request × String)) :
    let r := afterAll buffer requests
    r.pos ≤ buffer.length ∧ r.pos + r.remaining = buffer.length ∧ r = standing buffer r.pos ∧
    ∀ wanted,
      Takes (u8 wanted) (fun b => toBigEndian 1 b.toNat) buffer r.pos 1 wanted ∧
      Takes (u16 wanted) (fun n => toBigEndian 2 n.toNat) buffer r.pos 2 wanted ∧
      Takes (u32 wanted) (fun n => toBigEndian 4 n.toNat) buffer r.pos 4 wanted ∧
      Takes (u64 wanted) (fun n => toBigEndian 8 n.toNat) buffer r.pos 8 wanted ∧
      Takes (set wanted) id buffer r.pos 32 wanted ∧
      (∀ count, Takes (bytes count wanted) id buffer r.pos count wanted) ∧
      (∀ size count : UInt64, size.toNat = buffer.length → (bytes count.toNat wanted).run r =
        (checkedEnd? size (.ofNat r.pos) count).elim (.error (.truncated buffer.length wanted) r)
          fun stop => .ok (slice buffer r.pos count.toNat) (standing buffer stop.toNat)) ∧
      TakesString (str wanted) id buffer r.pos wanted ∧
      TakesString (utf8 wanted) Text.encode buffer r.pos wanted := by
  intro r
  obtain ⟨pos, inside, hstanding⟩ := standing_of_requests buffer requests
  have hr : r = standing buffer pos := hstanding
  have hpos : r.pos = pos := by rw [hr, standing]
  have hremaining : r.pos + r.remaining = buffer.length := by rw [hr, ← stop_standing inside, stop]
  rw [hpos] at hremaining ⊢
  refine ⟨inside, hremaining, hr, fun wanted => ⟨takes_u8 inside, takes_u16 inside, takes_u32 inside, takes_u64 inside,
    takes_set inside, takes_bytes inside, fun size count hsize => ?_, takesString_str inside, takesString_utf8 inside⟩⟩
  have inside' : pos ≤ size.toNat := hsize ▸ inside
  have word : (UInt64.ofNat pos).toNat = pos := UInt64.toNat_ofNat_of_lt' (Nat.lt_of_le_of_lt inside' size.toNat_lt)
  have checked : (bytes count.toNat wanted).run (standing buffer (UInt64.ofNat pos).toNat) = _ :=
    run_bytes_checked hsize (word.symm ▸ inside)
  rwa [word, ← hr] at checked

/-- A string, a string that is not UTF-8, and a length that promises more than is left. -/
def threeStrings : Bytes := [0, 0, 0, 3, 97, 98, 99, 0, 0, 0, 2, 0xff, 0xfe, 0, 0, 0, 9, 120, 121]

/-- The second string fails behind itself and names the place of its length, the third one behind its length. Then
    there are bytes left for a small number and not for a large one. -/
theorem reads_exact_threeStrings :
    (utf8 "label").run (standing threeStrings 7) = .error (.invalidUtf8 "label" 7) (standing threeStrings 13) ∧
    afterAll threeStrings [(.str, "s"), (.utf8, "label"), (.str, "long")] = standing threeStrings 17 ∧
    (∃ n, toBigEndian 2 n.toNat = [120, 121] ∧
      (u16 "pair").run (standing threeStrings 17) = .ok n (standing threeStrings 19)) ∧
    (u32 "number").run (standing threeStrings 17) = .error (.truncated 19 "number") (standing threeStrings 17) ∧
    (bytes 0xffffffffffffffff "all").run (standing threeStrings 17) =
      .error (.truncated 19 "all") (standing threeStrings 17) := by
  obtain ⟨-, -, -, behindFirst⟩ := reads_exact threeStrings [(.str, "s")]
  obtain ⟨-, -, -, behindAll⟩ := reads_exact threeStrings [(.str, "s"), (.utf8, "label"), (.str, "long")]
  obtain ⟨-, -, -, -, -, -, -, -, label⟩ := behindFirst "label"
  obtain ⟨-, pair, -⟩ := behindAll "pair"
  obtain ⟨-, -, number, -⟩ := behindAll "number"
  obtain ⟨-, -, -, -, -, -, all, -⟩ := behindAll "all"
  refine ⟨?_, rfl, pair.complete (by decide), number.incomplete (by decide), all 19 0xffffffffffffffff rfl⟩
  obtain ⟨length, hlength, -, complete⟩ := label.withLength (by decide)
  have fits : length.toNat < wordSize 4 := length.toNat_lt
  have two : length.toNat = 2 := toBigEndian_injective fits (by decide) hlength
  have noText : NotUtf8 [0xff, 0xfe] := notUtf8_iff.2 (by decide +kernel)
  rw [two] at complete
  obtain ⟨text, htext, -⟩ | ⟨-, hrun⟩ := complete (by decide)
  · exact absurd htext (noText text)
  · exact hrun

end Reader

end PegMachine
