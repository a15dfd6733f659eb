import Mathlib.Data.List.Nodup
import Mathlib.Data.List.Pairwise
import Mathlib.Data.List.Perm.Subperm
import Mathlib.Tactic.Choose
import PegMachine.CharSet.Ranges
/-!
  The range form of a set is canonical.

  Ranges are a range form of a set if they cover it, none is empty, they come in increasing order, and a byte is
  missing between any two of them (`CharSet.IsRangeForm`). What is proved:
    1. `closes_closeRanges`, `isRangeForm_ranges`: what is made of the members is a range form. The number of
       members seen is compared as a byte, and it never gets too large for that (`continues_iff`);
    2. `IsRangeForm.eq_of_meets`: a range that stays inside the set meets one range of a range form only;
    3. `IsRangeForm.length_le`, `IsRangeForm.perm`: so no cover is shorter than a range form, and a cover that is
       as short consists of the same ranges;
    4. `ranges_canonical`: all of this of the ranges that a set is given by, and back from ranges to the set.
-/
namespace PegMachine

/-- A byte is missing between the two ranges. -/
def ByteRange.Before (r q : ByteRange) : Prop := r.hi.toNat + 1 < q.lo.toNat

instance : DecidableRel ByteRange.Before :=
  fun r q => inferInstanceAs (Decidable (r.hi.toNat + 1 < q.lo.toNat))

namespace CharSet

/-- The ranges have the bytes of the set in them, and no others. -/
def CoveredBy (s : CharSet) (ranges : List ByteRange) : Prop :=
  ∀ b, (∃ r ∈ ranges, r.lo ≤ b ∧ b ≤ r.hi) ↔ s.contains b = true

/-- The ranges are the set written as ranges: nothing empty, in increasing order and with a byte missing between
    any two. That byte is not in the set, because the ranges cover it. -/
structure IsRangeForm (s : CharSet) (ranges : List ByteRange) : Prop where
  covers : s.CoveredBy ranges
  valid : ∀ r ∈ ranges, r.lo ≤ r.hi
  apart : ranges.Pairwise ByteRange.Before

/-! ## Closing ranges -/

/-- The ranges are those of the bytes from `pivot` to `last` and of the bytes that follow. -/
structure Closes (pivot last : UInt8) (following : Bytes) (ranges : List ByteRange) : Prop where
  covers : ∀ x, (∃ r ∈ ranges, r.lo ≤ x ∧ x ≤ r.hi) ↔ pivot ≤ x ∧ x ≤ last ∨ x ∈ following
  valid : ∀ r ∈ ranges, pivot ≤ r.lo ∧ r.lo ≤ r.hi
  apart : ranges.Pairwise ByteRange.Before

section Closing

variable {pivot last b : UInt8} {count : Nat} {following : Bytes} {ranges : List ByteRange}

/-- The number of members seen is the distance of the next one exactly if that comes right after the latest. Up
    to there both are below 256, so nothing is lost by comparing bytes. -/
theorem continues_iff (counted : pivot.toNat + count = last.toNat + 1) (next : last < b) :
    some (UInt8.ofNat count) = distance? pivot b ↔ b.toNat = last.toNat + 1 := by
  have hb : b.toNat < 256 := b.toNat_lt
  rw [UInt8.lt_iff_toNat_lt] at next
  have hcount : count < 256 := by omega
  have hpivot : pivot ≤ b := by
    rw [UInt8.le_iff_toNat_le]
    omega
  rw [distance?, if_pos hpivot, Option.some.injEq, ← UInt8.toNat_inj, UInt8.toNat_ofNat_of_lt' hcount,
    UInt8.toNat_sub_of_le _ _ hpivot]
  omega

theorem Closes.single (h : pivot ≤ last) : Closes pivot last [] [⟨pivot, last⟩] where
  covers x := by simp
  valid r hr := by
    obtain rfl := List.mem_singleton.1 hr
    exact ⟨UInt8.le_refl pivot, h⟩
  apart := List.pairwise_singleton _ _

/-- The member right after the latest belongs to the same range. -/
theorem Closes.extend (h : Closes pivot b following ranges) (adjacent : b.toNat = last.toNat + 1)
    (started : pivot ≤ last) : Closes pivot last (b :: following) ranges where
  covers x := by
    rw [UInt8.le_iff_toNat_le] at started
    rw [h.covers x, List.mem_cons, ← UInt8.toNat_inj, UInt8.le_iff_toNat_le, UInt8.le_iff_toNat_le,
      UInt8.le_iff_toNat_le]
    constructor
    · rintro (⟨hpivot, hb⟩ | hx)
      · omega
      · exact .inr (.inr hx)
    · rintro (⟨hpivot, hlast⟩ | hx | hx)
      · exact .inl (by omega)
      · exact .inl (by omega)
      · exact .inr hx
  valid := h.valid
  apart := h.apart

/-- A member further on begins another range, and the one under way is closed. -/
theorem Closes.close (h : Closes b b following ranges) (gap : last.toNat + 1 < b.toNat) (started : pivot ≤ last) :
    Closes pivot last (b :: following) (⟨pivot, last⟩ :: ranges) where
  covers x := by
    have single : b ≤ x ∧ x ≤ b ↔ x = b := and_comm.trans UInt8.le_antisymm_iff.symm
    rw [List.exists_mem_cons_iff, h.covers x, List.mem_cons, single]
  valid r hr := by
    rw [UInt8.le_iff_toNat_le] at started
    rcases List.mem_cons.1 hr with rfl | hr
    · exact ⟨UInt8.le_refl pivot, started⟩
    · obtain ⟨hlo, hhi⟩ := h.valid r hr
      rw [UInt8.le_iff_toNat_le] at hlo
      refine ⟨?_, hhi⟩
      rw [UInt8.le_iff_toNat_le]
      omega
  apart := by
    refine List.pairwise_cons.2 ⟨fun r hr => ?_, h.apart⟩
    have hlo := (h.valid r hr).1
    rw [UInt8.le_iff_toNat_le] at hlo
    show last.toNat + 1 < r.lo.toNat
    omega

/-- Induction on the members still to come. What is kept is that `count` members lead from `pivot` to `last`. -/
theorem closes_closeRanges (counted : pivot.toNat + count = last.toNat + 1) (started : pivot ≤ last)
    (increasing : (last :: following).Pairwise (· < ·)) :
    Closes pivot last following (closeRanges pivot count last following) := by
  induction following generalizing pivot count last with
  | nil => exact .single started
  | cons b following ih =>
    obtain ⟨hlast, hrest⟩ := List.pairwise_cons.1 increasing
    have next : last < b := hlast b List.mem_cons_self
    have hcontinues := continues_iff counted next
    rw [UInt8.lt_iff_toNat_lt] at next
    rw [closeRanges]
    split
    · next hcount =>
      have adjacent := hcontinues.1 hcount
      refine (ih (by omega) ?_ hrest).extend adjacent started
      rw [UInt8.le_iff_toNat_le] at started ⊢
      omega
    · next hcount =>
      have gap : b.toNat ≠ last.toNat + 1 := fun h => hcount (hcontinues.2 h)
      exact (ih rfl (UInt8.le_refl b) hrest).close (by omega) started

end Closing

variable {s : CharSet} {rs qs : List ByteRange} {r r' q : ByteRange} {x y : UInt8}

theorem mem_members : x ∈ s.members ↔ s.contains x = true := by
  rw [members, List.mem_filter]
  exact and_iff_right (mem_allBytes x)

theorem isRangeForm_ranges (s : CharSet) : s.IsRangeForm s.ranges := by
  have increasing : s.members.Pairwise (· < ·) := pairwise_allBytes.filter _
  have hmem (x : UInt8) : x ∈ s.members ↔ s.contains x = true := mem_members
  rw [ranges]
  cases hs : s.members with
  | nil =>
    rw [hs] at hmem
    exact ⟨fun b => by simpa using hmem b, fun r hr => absurd hr List.not_mem_nil, .nil⟩
  | cons b following =>
    rw [hs] at hmem increasing
    have h := closes_closeRanges rfl (UInt8.le_refl b) increasing
    refine ⟨fun x => ?_, fun r hr => (h.valid r hr).2, h.apart⟩
    have single : b ≤ x ∧ x ≤ b ↔ x = b := and_comm.trans UInt8.le_antisymm_iff.symm
    rw [h.covers x, ← hmem x, List.mem_cons, single]

/-! ## Ranges inside the set -/

theorem CoveredBy.contains (h : s.CoveredBy rs) (hr : r ∈ rs) (hlo : r.lo ≤ x) (hhi : x ≤ r.hi) :
    s.contains x = true :=
  (h x).1 ⟨r, hr, hlo, hhi⟩

namespace IsRangeForm

theorem toNat_le (h : s.IsRangeForm rs) (hr : r ∈ rs) : r.lo.toNat ≤ r.hi.toNat :=
  UInt8.le_iff_toNat_le.1 (h.valid r hr)

theorem before_or_before (h : s.IsRangeForm rs) (hr : r ∈ rs) (hr' : r' ∈ rs) (ne : r ≠ r') :
    r.Before r' ∨ r'.Before r := by
  have symm : Std.Symm fun r r' : ByteRange => r.Before r' ∨ r'.Before r := ⟨fun _ _ => Or.symm⟩
  have apart : rs.Pairwise fun r r' => r.Before r' ∨ r'.Before r := h.apart.imp Or.inl
  exact apart.forall hr hr' ne

/-- The byte after a range is not in the set. -/
theorem not_contains_after (h : s.IsRangeForm rs) (hr : r ∈ rs) (hx : x.toNat = r.hi.toNat + 1) :
    ¬ s.contains x = true := by
  intro hcontains
  obtain ⟨r', hr', hlo, hhi⟩ := (h.covers x).2 hcontains
  rw [UInt8.le_iff_toNat_le] at hlo hhi
  have hvalid := h.toNat_le hr
  have ne : r ≠ r' := by
    rintro rfl
    omega
  rcases h.before_or_before hr hr' ne with before | before
  · rw [ByteRange.Before] at before
    omega
  · rw [ByteRange.Before] at before
    omega

/-- If all bytes from one range to another are in the set, the second does not come after the first. -/
theorem not_before_of_joined (h : s.IsRangeForm rs) (hr : r ∈ rs) (hx : x ≤ r.hi) (hy : r'.lo ≤ y)
    (joined : ∀ z, x ≤ z → z ≤ y → s.contains z = true) : ¬ r.Before r' := by
  intro before
  rw [ByteRange.Before] at before
  rw [UInt8.le_iff_toNat_le] at hx hy
  have hlt : r.hi.toNat + 1 < 256 := by
    have := r'.lo.toNat_lt
    omega
  have hz : (UInt8.ofNat (r.hi.toNat + 1)).toNat = r.hi.toNat + 1 := UInt8.toNat_ofNat_of_lt' hlt
  apply h.not_contains_after hr hz
  apply joined
  · rw [UInt8.le_iff_toNat_le]
    omega
  · rw [UInt8.le_iff_toNat_le]
    omega

/-- A range that stays inside the set meets one range of the range form only. -/
theorem eq_of_meets (h : s.IsRangeForm rs) (inside : ∀ z, q.lo ≤ z → z ≤ q.hi → s.contains z = true)
    (hr : r ∈ rs) (hr' : r' ∈ rs) (hx : q.lo ≤ x ∧ x ≤ q.hi) (hxr : r.lo ≤ x ∧ x ≤ r.hi)
    (hy : q.lo ≤ y ∧ y ≤ q.hi) (hyr : r'.lo ≤ y ∧ y ≤ r'.hi) : r = r' := by
  by_contra ne
  rcases h.before_or_before hr hr' ne with before | before
  · refine h.not_before_of_joined hr hxr.2 hyr.1 (fun z hxz hzy => ?_) before
    exact inside z (UInt8.le_trans hx.1 hxz) (UInt8.le_trans hzy hy.2)
  · refine h.not_before_of_joined hr' hyr.2 hxr.1 (fun z hyz hzx => ?_) before
    exact inside z (UInt8.le_trans hy.1 hyz) (UInt8.le_trans hzx hx.2)

/-! ## Covers -/

theorem nodup (h : s.IsRangeForm rs) : rs.Nodup := by
  refine h.apart.imp_of_mem fun {r r'} hr _ before => ?_
  rintro rfl
  have hvalid := h.toNat_le hr
  rw [ByteRange.Before] at before
  omega

/-- In a cover of the set each range of the range form meets one at its first byte, and no two meet the same. -/
theorem exists_meeting (h : s.IsRangeForm rs) (cover : s.CoveredBy qs) :
    ∃ f : ByteRange → ByteRange, (∀ r ∈ rs, (f r).lo ≤ r.lo ∧ r.lo ≤ (f r).hi) ∧ (rs.map f).Subperm qs := by
  have meets : ∀ r ∈ rs, ∃ q ∈ qs, q.lo ≤ r.lo ∧ r.lo ≤ q.hi := fun r hr =>
    (cover r.lo).2 (h.covers.contains hr (UInt8.le_refl _) (h.valid r hr))
  choose! f hf hlo using meets
  have injective : ∀ r ∈ rs, ∀ r' ∈ rs, f r = f r' → r = r' := by
    intro r hr r' hr' heq
    refine h.eq_of_meets (q := f r) (fun z => cover.contains (hf r hr)) hr hr' (hlo r hr)
      ⟨UInt8.le_refl _, h.valid r hr⟩ ?_ ⟨UInt8.le_refl _, h.valid r' hr'⟩
    rw [heq]
    exact hlo r' hr'
  refine ⟨f, hlo, List.Nodup.subperm (List.Nodup.map_on injective h.nodup) fun q hq => ?_⟩
  obtain ⟨r, hr, rfl⟩ := List.mem_map.1 hq
  exact hf r hr

/-- No cover is shorter than a range form. -/
theorem length_le (h : s.IsRangeForm rs) (cover : s.CoveredBy qs) : rs.length ≤ qs.length := by
  obtain ⟨f, -, sub⟩ := h.exists_meeting cover
  simpa using sub.length_le

/-- A cover that is as short as a range form consists of its ranges. -/
theorem perm (h : s.IsRangeForm rs) (cover : s.CoveredBy qs) (short : qs.length = rs.length) : qs.Perm rs := by
  obtain ⟨f, hlo, sub⟩ := h.exists_meeting cover
  have hperm : (rs.map f).Perm qs := sub.perm_of_length_le (by simp [short])
  have mem (r : ByteRange) (hr : r ∈ rs) : f r ∈ qs := hperm.subset (List.mem_map_of_mem hr)
  have same : ∀ r ∈ rs, f r = r := by
    intro r hr
    have inside (r' : ByteRange) (hr' : r' ∈ rs) (z : UInt8) := cover.contains (mem r' hr') (x := z)
    have hvalid := h.valid r hr
    -- Whatever the range of the cover has in it, the range of the form has too.
    have within : ∀ x, (f r).lo ≤ x → x ≤ (f r).hi → r.lo ≤ x ∧ x ≤ r.hi := by
      intro x hx hx'
      obtain ⟨r', hr', hxr'⟩ := (h.covers x).2 (inside r hr x hx hx')
      obtain rfl := h.eq_of_meets (inside r hr) hr hr' (hlo r hr) ⟨UInt8.le_refl _, hvalid⟩ ⟨hx, hx'⟩ hxr'
      exact hxr'
    -- Every range of the cover meets one of the form, so the last byte is in the same range as the first.
    obtain ⟨q, hq, hqlo, hqhi⟩ := (cover r.hi).2 (h.covers.contains hr hvalid (UInt8.le_refl _))
    obtain ⟨r', hr', rfl⟩ := List.mem_map.1 (hperm.mem_iff.2 hq)
    obtain rfl := h.eq_of_meets (inside r' hr') hr hr' ⟨hqlo, hqhi⟩ ⟨hvalid, UInt8.le_refl _⟩ (hlo r' hr')
      ⟨UInt8.le_refl _, h.valid r' hr'⟩
    have hfirst := hlo r hr
    have hmeets := UInt8.le_trans hfirst.1 hfirst.2
    have hlower := UInt8.le_antisymm hfirst.1 (within _ (UInt8.le_refl _) hmeets).1
    have hupper := UInt8.le_antisymm (within _ hmeets (UInt8.le_refl _)).2 hqhi
    calc
      f r = ⟨(f r).lo, (f r).hi⟩ := rfl
      _ = ⟨r.lo, r.hi⟩ := by rw [hlower, hupper]
  rw [List.map_congr_left same, List.map_id'] at hperm
  exact hperm.symm

/-- The ranges begin in increasing order. -/
theorem increasing (h : s.IsRangeForm rs) : rs.Pairwise fun r q => r.lo ≤ q.lo := by
  refine h.apart.imp_of_mem fun {r q} hr _ before => ?_
  have hvalid := h.toNat_le hr
  rw [ByteRange.Before] at before
  rw [UInt8.le_iff_toNat_le]
  omega

/-- A cover in increasing order that is as short as a range form is that range form. -/
theorem eq_of_increasing (h : s.IsRangeForm rs) (cover : s.CoveredBy qs) (short : qs.length = rs.length)
    (ordered : qs.Pairwise fun r q => r.lo ≤ q.lo) : qs = rs := by
  have hperm := h.perm cover short
  refine hperm.eq_of_pairwise (fun r r' hr hr' hle hle' => ?_) ordered h.increasing
  have hmem : r ∈ rs := hperm.subset hr
  have hfirst : r.lo ≤ r.lo ∧ r.lo ≤ r.hi := ⟨UInt8.le_refl _, h.valid r hmem⟩
  refine h.eq_of_meets (q := r) (fun z => h.covers.contains hmem) hmem hr' hfirst hfirst hfirst ?_
  rw [UInt8.le_antisymm hle hle']
  exact ⟨UInt8.le_refl _, h.valid r' hr'⟩

/-- A set has one range form. -/
theorem unique (h : s.IsRangeForm rs) (h' : s.IsRangeForm qs) : qs = rs :=
  h.eq_of_increasing h'.covers (Nat.le_antisymm (h'.length_le h.covers) (h.length_le h'.covers)) h'.increasing

end IsRangeForm

/-! ## The ranges of a set -/

theorem ofRanges_of_coveredBy (h : s.CoveredBy rs) : ofRanges rs = s := by
  apply ext_contains
  intro b
  rw [Bool.eq_iff_iff, contains_ofRanges]
  exact h b

/-- **Range form is the canonical form of a set.** The ranges of a set cover it, none is empty, they come in
    increasing order with a byte missing between any two, and the set is made of them again. No other list is such
    a range form. A list of ranges that covers the set is at least as long, and if it is as long it consists of
    the same ranges, in increasing order in the same order. Whatever ranges a set is made of, it contains exactly
    the bytes that are in one of them. -/
theorem ranges_canonical (s : CharSet) :
    s.IsRangeForm s.ranges ∧ ofRanges s.ranges = s ∧ (∀ rs, s.IsRangeForm rs → rs = s.ranges) ∧
    (∀ rs, s.CoveredBy rs → s.ranges.length ≤ rs.length ∧ (rs.length = s.ranges.length →
      rs.Perm s.ranges ∧ (rs.Pairwise (fun r q => r.lo ≤ q.lo) → rs = s.ranges))) ∧
    ∀ (rs : List ByteRange) (b : UInt8), (ofRanges rs).contains b = true ↔ ∃ r ∈ rs, r.lo ≤ b ∧ b ≤ r.hi := by
  have form := s.isRangeForm_ranges
  refine ⟨form, ofRanges_of_coveredBy form.covers, fun rs h => form.unique h, fun rs cover => ?_,
    fun rs b => contains_ofRanges⟩
  exact ⟨form.length_le cover, fun short => ⟨form.perm cover short, form.eq_of_increasing cover short⟩⟩

/-- Bytes at both ends and on both sides of a multiple of 64, out of order, with an overlap and an empty range. -/
def edges : List ByteRange := [⟨64, 64⟩, ⟨200, 100⟩, ⟨0, 1⟩, ⟨1, 1⟩, ⟨63, 63⟩, ⟨255, 255⟩]

theorem ranges_canonical_edges :
    (ofRanges edges).IsRangeForm [⟨0, 1⟩, ⟨63, 64⟩, ⟨255, 255⟩] ∧
    (ofRanges edges).ranges = [⟨0, 1⟩, ⟨63, 64⟩, ⟨255, 255⟩] ∧
    (ofRanges edges).CoveredBy edges ∧ (ofRanges edges).ranges.length ≤ edges.length := by
  have form : (ofRanges edges).IsRangeForm [⟨0, 1⟩, ⟨63, 64⟩, ⟨255, 255⟩] := by
    refine ⟨fun b => ?_, by decide, by decide⟩
    have hb : b.toNat < 256 := b.toNat_lt
    rw [contains_ofRanges]
    simp only [edges, List.mem_cons, List.not_mem_nil, or_false, exists_eq_or_imp, exists_eq_left,
      UInt8.le_iff_toNat_le, UInt8.reduceToNat]
    omega
  have cover : (ofRanges edges).CoveredBy edges := fun b => contains_ofRanges.symm
  obtain ⟨-, -, unique, shortest, -⟩ := ranges_canonical (ofRanges edges)
  exact ⟨form, (unique _ form).symm, cover, (shortest edges cover).1⟩

end CharSet

end PegMachine
