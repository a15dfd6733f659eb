import Mathlib.Data.List.Basic
import PegMachine.Bytecode.Reader
import PegMachine.Proofs.Bytecode.Fields
/-!
  What a read reads.

  `Reads r f` relates a read to a format: the read succeeds exactly on bytes that begin with a form of some
  value, and then it gives that value and leaves what follows. The format is a relation, since one value
  may have several forms. What is proved:
    1. one lemma for each way to put reads together (`pure`, `bind`, `map`, `times`) and for each primitive
       read;
    2. `Reads.unique`: bytes begin with a form of at most one value, and with one form of it.
-/
namespace PegMachine

variable {α β : Type} {r : Read α} {f g : α → Bytes → Prop}

/-- The read succeeds exactly if the bytes begin with a form of a value; it gives the value and goes behind
    that form. -/
def Reads (r : Read α) (f : α → Bytes → Prop) : Prop :=
  ∀ a before after, r.run before = .ok a after ↔
    ∃ bytes, f a bytes ∧ before.rest = bytes ++ after.rest ∧ after.pos = before.pos + bytes.length

namespace Reads

theorem congr (h : Reads r f) (hfg : ∀ a bytes, f a bytes ↔ g a bytes) : Reads r g := by
  intro a before after
  rw [h a before after]
  exact exists_congr fun bytes => and_congr_left fun _ => hfg a bytes

/-- Bytes begin with a form of at most one value, and with one form of it. -/
theorem unique (h : Reads r f) {a b : α} {bytes bytes' rest rest' : Bytes} (ha : f a bytes) (hb : f b bytes')
    (heq : bytes ++ rest = bytes' ++ rest') : a = b ∧ bytes = bytes' ∧ rest = rest' := by
  -- Both are what one and the same run gives; the forms have one length because it ends in one place.
  have hrun := (h a ⟨0, bytes ++ rest⟩ ⟨0 + bytes.length, rest⟩).2 ⟨bytes, ha, rfl, rfl⟩
  have hrun' := (h b ⟨0, bytes ++ rest⟩ ⟨0 + bytes'.length, rest'⟩).2 ⟨bytes', hb, heq, rfl⟩
  rw [hrun] at hrun'
  injection hrun' with hab hrest
  injection hrest with hpos hrest
  exact ⟨hab, List.append_inj_left heq (by omega), hrest⟩

/-- A read does not change where the bytes end. -/
theorem stop_eq (h : Reads r f) {a : α} {before after : Reader} (ok : r.run before = .ok a after) :
    after.stop = before.stop := by
  obtain ⟨bytes, -, hrest, hpos⟩ := (h a before after).1 ok
  rw [Reader.stop, Reader.stop, Reader.remaining, Reader.remaining, hrest, hpos, List.length_append, Nat.add_assoc]

/-! ## Putting reads together -/

theorem pure (a : α) : Reads (pure a) fun b bytes => b = a ∧ bytes = [] := by
  intro b before after
  constructor
  · intro h
    cases h
    exact ⟨[], ⟨rfl, rfl⟩, rfl, rfl⟩
  · intro h
    obtain ⟨_, ⟨rfl, rfl⟩, hrest, hpos⟩ := h
    obtain ⟨pos, rest⟩ := before
    obtain ⟨pos', rest'⟩ := after
    cases hrest
    cases hpos
    rfl

theorem throw (error : LoadError) : Reads (throw error : Read α) fun _ _ => False := by
  intro b before after
  constructor
  · exact nofun
  · rintro ⟨_, ⟨⟩, _⟩

theorem bind {k : α → Read β} {g : α → β → Bytes → Prop} (h : Reads r f) (hk : ∀ a, Reads (k a) (g a)) :
    Reads (r >>= k) fun b bytes => ∃ a front back, f a front ∧ g a b back ∧ bytes = front ++ back := by
  intro b before after
  have hbind : (r >>= k).run before = .ok b after ↔
      ∃ a mid, r.run before = .ok a mid ∧ (k a).run mid = .ok b after := by
    rw [EStateM.run_bind]
    cases r.run before with
    | ok a mid => simp
    | error => simp
  rw [hbind]
  refine ⟨fun h' => ?_, fun h' => ?_⟩
  · obtain ⟨a, mid, hr, hkr⟩ := h'
    obtain ⟨front, hf, hrest, hpos⟩ := (h a before mid).1 hr
    obtain ⟨back, hg, hrest', hpos'⟩ := (hk a b mid after).1 hkr
    refine ⟨front ++ back, ⟨a, front, back, hf, hg, rfl⟩, ?_, ?_⟩
    · rw [hrest, hrest', List.append_assoc]
    · rw [hpos', hpos, List.length_append, Nat.add_assoc]
  · obtain ⟨bytes, ⟨a, front, back, hf, hg, rfl⟩, hrest, hpos⟩ := h'
    refine ⟨a, ⟨before.pos + front.length, back ++ after.rest⟩, ?_, ?_⟩
    · exact (h a _ _).2 ⟨front, hf, by rw [hrest, List.append_assoc], rfl⟩
    · refine (hk a b _ _).2 ⟨back, hg, rfl, ?_⟩
      rw [hpos, List.length_append, Nat.add_assoc]

theorem map {φ : α → β} (h : Reads r f) : Reads (φ <$> r) fun b bytes => ∃ a, f a bytes ∧ φ a = b := by
  rw [map_eq_pure_bind]
  refine (h.bind fun a => .pure (φ a)).congr fun b bytes => ?_
  refine ⟨fun h' => ?_, fun h' => ?_⟩
  · obtain ⟨a, front, back, hf, ⟨rfl, rfl⟩, rfl⟩ := h'
    exact ⟨a, by rwa [List.append_nil], rfl⟩
  · obtain ⟨a, hf, rfl⟩ := h'
    exact ⟨a, bytes, [], hf, ⟨rfl, rfl⟩, (List.append_nil _).symm⟩

/-- A read that looks where the reader stands. -/
theorem get {k : Reader → Read α} (hk : ∀ s, Reads (k s) f) : Reads (get >>= k) f :=
  fun a before after => hk before a before after

/-- Several reads of one kind, added to what was read before. Each of them reads what some `x` stands for
    from the bytes of `x`. -/
theorem timesFrom {φ : β → α} {form : β → Bytes} (h : Reads r fun a bytes => ∃ x, φ x = a ∧ form x = bytes)
    (count : Nat) (items : Array α) :
    Reads (Reader.timesFrom r count items) fun all bytes =>
      ∃ xs : List β, all.toList = items.toList ++ xs.map φ ∧ xs.length = count ∧ bytes = xs.flatMap form := by
  induction count generalizing items with
  | zero =>
    refine (Reads.pure items).congr fun all bytes => ?_
    refine ⟨fun h' => ?_, fun h' => ?_⟩
    · obtain ⟨rfl, rfl⟩ := h'
      exact ⟨[], by simp, rfl, rfl⟩
    · obtain ⟨xs, hall, hlen, rfl⟩ := h'
      obtain rfl := List.eq_nil_of_length_eq_zero hlen
      exact ⟨Array.toList_inj.1 (by simpa using hall), rfl⟩
  | succ count ih =>
    refine (h.bind fun a => ih (items.push a)).congr fun all bytes => ?_
    refine ⟨fun h' => ?_, fun h' => ?_⟩
    · obtain ⟨_, _, back, ⟨x, rfl, rfl⟩, ⟨xs, hall, hlen, rfl⟩, rfl⟩ := h'
      refine ⟨x :: xs, ?_, by simp [hlen], by simp⟩
      rw [hall, Array.toList_push, List.append_assoc, List.singleton_append, List.map_cons]
    · obtain ⟨xs, hall, hlen, rfl⟩ := h'
      obtain ⟨x, xs, rfl⟩ := List.exists_cons_of_length_eq_add_one hlen
      refine ⟨φ x, form x, xs.flatMap form, ⟨x, rfl, rfl⟩, ⟨xs, ?_, Nat.succ.inj hlen, rfl⟩, by simp⟩
      rw [hall, Array.toList_push, List.append_assoc, List.singleton_append, List.map_cons]

theorem times {φ : β → α} {form : β → Bytes} (h : Reads r fun a bytes => ∃ x, φ x = a ∧ form x = bytes)
    (count : Nat) :
    Reads (Reader.times count r) fun all bytes =>
      ∃ xs : List β, all = (xs.map φ).toArray ∧ xs.length = count ∧ bytes = xs.flatMap form := by
  refine (h.timesFrom count #[]).congr fun all bytes => exists_congr fun xs => and_congr_left fun _ => ?_
  rw [← Array.toList_inj]
  simp

end Reads

/-! ## Primitive reads -/

/-- The forms of a string: a 32-bit length and that many bytes. -/
def IsString (text bytes : Bytes) : Prop :=
  text.length < UInt32.size ∧ bytes = toBigEndian 4 text.length ++ text

namespace Reader

variable {wanted : String}

theorem reads_bytes (count : Nat) : Reads (bytes count wanted) fun w bytes => bytes = w ∧ w.length = count := by
  intro w before after
  obtain ⟨pos, rest⟩ := before
  obtain ⟨pos', rest'⟩ := after
  have hrun : (bytes count wanted).run ⟨pos, rest⟩ =
      if (rest.take count).length = count then .ok (rest.take count) ⟨pos + count, rest.drop count⟩
      else .error (.truncated (Reader.stop ⟨pos, rest⟩) wanted) ⟨pos, rest⟩ := rfl
  rw [hrun]
  split
  · next hlen =>
    constructor
    · intro h
      injection h with hw hafter
      injection hafter with hpos hrest
      subst hw hpos hrest
      exact ⟨_, ⟨rfl, hlen⟩, (List.take_append_drop ..).symm, by rw [hlen]⟩
    · intro h
      obtain ⟨_, ⟨rfl, rfl⟩, hrest, hpos⟩ := h
      simp only at hrest hpos
      simp [hrest, hpos]
  · next hlen =>
    constructor
    · exact nofun
    · intro h
      obtain ⟨_, ⟨rfl, rfl⟩, hrest, hpos⟩ := h
      simp only at hrest
      simp [hrest] at hlen

theorem reads_number (width : Nat) :
    Reads (number width wanted) fun n bytes => n < wordSize width ∧ bytes = toBigEndian width n := by
  refine (reads_bytes width).map.congr fun n bytes => ?_
  refine ⟨fun h' => ?_, fun h' => ?_⟩
  · obtain ⟨w, ⟨rfl, rfl⟩, rfl⟩ := h'
    exact ⟨ofBigEndian_lt bytes, (toBigEndian_ofBigEndian bytes).symm⟩
  · obtain ⟨hn, rfl⟩ := h'
    exact ⟨_, ⟨rfl, length_toBigEndian width n⟩, ofBigEndian_toBigEndian_of_lt hn⟩

/-- A machine word is read as the number that it writes. -/
theorem reads_word {width : Nat} {ofNat : Nat → α} {toNat : α → Nat} (hlt : ∀ a, toNat a < wordSize width)
    (hof : ∀ a, ofNat (toNat a) = a) (hto : ∀ n < wordSize width, toNat (ofNat n) = n) :
    Reads (ofNat <$> number width wanted) fun a bytes => bytes = toBigEndian width (toNat a) := by
  refine (reads_number width).map.congr fun a bytes => ?_
  refine ⟨fun h' => ?_, fun h' => ?_⟩
  · obtain ⟨n, ⟨hn, rfl⟩, rfl⟩ := h'
    rw [hto n hn]
  · obtain rfl := h'
    exact ⟨toNat a, ⟨hlt a, rfl⟩, hof a⟩

theorem reads_u8 : Reads (u8 wanted) fun b bytes => bytes = [b] := by
  have h : Reads (u8 wanted) fun b bytes => bytes = toBigEndian 1 b.toNat :=
    reads_word UInt8.toNat_lt (fun _ => UInt8.ofNat_toNat) fun _ hn => UInt8.toNat_ofNat_of_lt' hn
  refine h.congr fun b bytes => ?_
  have hb : toBigEndian 1 b.toNat = [b] := by
    simp [toBigEndian, Nat.mod_eq_of_lt b.toNat_lt]
  rw [hb]

theorem reads_u16 : Reads (u16 wanted) fun n bytes => bytes = toBigEndian 2 n.toNat :=
  reads_word UInt16.toNat_lt (fun _ => UInt16.ofNat_toNat) fun _ hn => UInt16.toNat_ofNat_of_lt' hn

theorem reads_u32 : Reads (u32 wanted) fun n bytes => bytes = toBigEndian 4 n.toNat :=
  reads_word UInt32.toNat_lt (fun _ => UInt32.ofNat_toNat) fun _ hn => UInt32.toNat_ofNat_of_lt' hn

theorem reads_u64 : Reads (u64 wanted) fun n bytes => bytes = toBigEndian 8 n.toNat :=
  reads_word UInt64.toNat_lt (fun _ => UInt64.ofNat_toNat) fun _ hn => UInt64.toNat_ofNat_of_lt' hn

theorem reads_str : Reads (str wanted) IsString := by
  refine (reads_u32.bind fun length => reads_bytes length.toNat).congr fun text bytes => ?_
  refine ⟨fun h' => ?_, fun h' => ?_⟩
  · obtain ⟨length, _, _, rfl, ⟨rfl, hlen⟩, rfl⟩ := h'
    rw [IsString, hlen]
    exact ⟨length.toNat_lt, rfl⟩
  · obtain ⟨hlt, rfl⟩ := h'
    have hlen : (UInt32.ofNat text.length).toNat = text.length := UInt32.toNat_ofNat_of_lt' hlt
    exact ⟨.ofNat text.length, _, _, rfl, ⟨rfl, hlen.symm⟩, by rw [hlen]⟩

theorem reads_utf8 : Reads (utf8 wanted) fun text bytes => IsString (Text.encode text) bytes := by
  refine .get fun s => ?_
  refine (reads_str.bind (g := fun w text bytes => w = Text.encode text ∧ bytes = []) fun w => ?_).congr
    fun text bytes => ?_
  · cases h : Text.decode? w with
    | some text =>
      refine (Reads.pure text).congr fun text' bytes => and_congr_left fun _ => ?_
      rw [← Text.decode?_eq_some_iff, h, Option.some.injEq, eq_comm]
    | none =>
      refine (Reads.throw _).congr fun text' bytes => ?_
      rw [← Text.decode?_eq_some_iff, h]
      simp
  · constructor
    · intro h
      obtain ⟨w, front, back, hw, ⟨rfl, rfl⟩, rfl⟩ := h
      rwa [List.append_nil]
    · intro h
      exact ⟨_, bytes, [], h, ⟨rfl, rfl⟩, (List.append_nil _).symm⟩

end Reader

end PegMachine
