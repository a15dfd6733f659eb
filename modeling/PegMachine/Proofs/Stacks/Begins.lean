import Mathlib.Data.List.DropRight
import PegMachine.Machine.Stacks
/-!
  Stacks that begin with other stacks.

  A frame saves lengths only, so a restore brings back what was there as long as nothing below these
  lengths was touched. `Begins xs ys` says that of one stack: `ys` still has all of `xs` at its bottom.
  What is proved:
    1. pushing keeps a base, and so does cutting back to a length that is not below it;
    2. `shrink_of_begins`, `NodeLog.truncate_of_begins`: cutting back to the base's length gives the base;
    3. `Stacks.restore_frame`: restoring a frame over stacks that begin with those it was made from gives
       these stacks, entry by entry.
-/
namespace PegMachine

variable {α : Type}

/-- The stack `ys` has all of `xs` at its bottom. -/
def Begins (xs ys : Array α) : Prop := xs.toList <+: ys.toList

namespace Begins

variable {xs ys zs : Array α}

theorem refl (xs : Array α) : Begins xs xs := List.prefix_refl _

theorem trans (h : Begins xs ys) (h' : Begins ys zs) : Begins xs zs := List.IsPrefix.trans h h'

theorem size_le (h : Begins xs ys) : xs.size ≤ ys.size := by
  simpa using List.IsPrefix.length_le h

theorem push (h : Begins xs ys) (y : α) : Begins xs (ys.push y) := by
  rw [Begins, Array.toList_push]
  exact h.trans (List.prefix_append ..)

theorem shrink (h : Begins xs ys) {length : Nat} (hl : xs.size ≤ length) : Begins xs (ys.shrink length) := by
  rw [Begins, Array.toList_shrink, List.prefix_take_iff]
  exact ⟨h, by simpa using hl⟩

theorem pop (h : Begins xs ys) (hl : xs.size < ys.size) : Begins xs ys.pop := by
  rw [Begins, Array.toList_pop, List.dropLast_eq_take, List.prefix_take_iff]
  refine ⟨h, ?_⟩
  simp only [Array.length_toList]
  omega

end Begins

theorem shrink_of_begins {xs ys : Array α} (h : Begins xs ys) : ys.shrink xs.size = xs := by
  apply Array.toList_inj.1
  rw [Array.toList_shrink, ← Array.length_toList]
  exact (List.prefix_iff_eq_take.1 h).symm

theorem map_shrink {α β : Type} (f : α → β) (xs : Array α) (length : Nat) :
    (xs.shrink length).map f = (xs.map f).shrink length := by
  simp only [Array.shrink_eq_take, Array.take_eq_extract, Array.map_extract]

theorem mem_of_mem_shrink {xs : Array α} {x : α} {length : Nat} (h : x ∈ xs.shrink length) : x ∈ xs := by
  rw [← Array.mem_toList_iff, Array.toList_shrink] at h
  exact Array.mem_toList_iff.1 (List.mem_of_mem_take h)

theorem mem_of_mem_pop {xs : Array α} {x : α} (h : x ∈ xs.pop) : x ∈ xs := by
  rw [← Array.mem_toList_iff, Array.toList_pop] at h
  exact Array.mem_toList_iff.1 (List.dropLast_subset _ h)

/-! ## The node log -/

namespace NodeLog

variable {base mid log : NodeLog}

/-- Every opened node has its place among the entries. -/
def Inside (log : NodeLog) : Prop := ∀ place ∈ log.opens.toList, place < log.entries.size

/-- The log has all of the base at its bottom, and only nodes opened above the base besides. -/
structure Begins (base log : NodeLog) : Prop where
  entries : PegMachine.Begins base.entries log.entries
  opens : ∃ inner, log.opens.toList = base.opens.toList ++ inner ∧
    ∀ place ∈ inner, base.entries.size ≤ place

theorem toList_popWhile (p : Nat → Bool) (xs : Array Nat) : (xs.popWhile p).toList = xs.toList.rdropWhile p := by
  obtain ⟨places⟩ := xs
  rw [List.popWhile_toArray, List.rdropWhile]

/-- Popping from the top stops at the latest at the first of some entries that are to stay. -/
theorem rdropWhile_append {p : Nat → Bool} {below : List Nat} (hb : ∀ x ∈ below, p x = false)
    (inner : List Nat) : (below ++ inner).rdropWhile p = below ++ inner.rdropWhile p := by
  induction inner using List.reverseRecOn with
  | nil =>
    rw [List.append_nil, List.rdropWhile_nil, List.append_nil, List.rdropWhile_eq_self_iff]
    intro hne
    simp [hb _ (List.getLast_mem hne)]
  | append_singleton inner x ih =>
    rw [← List.append_assoc, List.rdropWhile_concat, List.rdropWhile_concat, ih]
    split <;> simp

namespace Begins

theorem refl (log : NodeLog) : log.Begins log := ⟨.refl _, [], by simp, by simp⟩

theorem trans (h : base.Begins mid) (h' : mid.Begins log) : base.Begins log := by
  obtain ⟨inner, hinner, above⟩ := h.opens
  obtain ⟨inner', hinner', above'⟩ := h'.opens
  refine ⟨h.entries.trans h'.entries, inner ++ inner', by rw [hinner', hinner, List.append_assoc], ?_⟩
  intro place hplace
  rcases List.mem_append.1 hplace with hp | hp
  · exact above place hp
  · exact Nat.le_trans h.entries.size_le (above' place hp)

theorem push (h : base.Begins log) (entry : LogEntry) : base.Begins (log.push entry) :=
  ⟨h.entries.push entry, h.opens⟩

theorem openNode (h : base.Begins log) (start : Nat) : base.Begins (log.openNode start) := by
  obtain ⟨inner, hinner, above⟩ := h.opens
  refine ⟨h.entries.push _, inner ++ [log.entries.size], ?_, ?_⟩
  · simp [NodeLog.openNode, hinner]
  · intro place hplace
    rcases List.mem_append.1 hplace with hp | hp
    · exact above place hp
    · rw [List.mem_singleton.1 hp]
      exact h.entries.size_le

/-- Cutting the log back to a length that is not below the base keeps the base. -/
theorem truncate (h : base.Begins log) (inside : base.Inside) {length : Nat}
    (hl : base.entries.size ≤ length) : base.Begins (log.truncate length) := by
  obtain ⟨inner, hinner, above⟩ := h.opens
  have stay : ∀ place ∈ base.opens.toList, decide (length ≤ place) = false := by
    intro place hp
    have := inside place hp
    rw [decide_eq_false_iff_not]
    omega
  refine ⟨h.entries.shrink hl, inner.rdropWhile (length ≤ ·), ?_, ?_⟩
  · rw [NodeLog.truncate, toList_popWhile, hinner, rdropWhile_append stay]
  · intro place hp
    exact above place ((List.rdropWhile_prefix _ inner).subset hp)

end Begins

/-- Cutting a log back to the length of its base gives the base. -/
theorem truncate_of_begins (h : base.Begins log) (inside : base.Inside) :
    log.truncate base.entries.size = base := by
  obtain ⟨inner, hinner, above⟩ := h.opens
  have stay : ∀ place ∈ base.opens.toList, decide (base.entries.size ≤ place) = false := by
    intro place hp
    rw [decide_eq_false_iff_not]
    exact Nat.not_le.2 (inside place hp)
  -- Cutting back closes the nodes opened above the base, and no other.
  have gone : inner.rdropWhile (base.entries.size ≤ ·) = [] := by
    rw [List.rdropWhile_eq_nil_iff]
    exact fun place hp => decide_eq_true (above place hp)
  have hopens : log.opens.popWhile (base.entries.size ≤ ·) = base.opens := by
    apply Array.toList_inj.1
    rw [toList_popWhile, hinner, rdropWhile_append stay, gone, List.append_nil]
  rw [truncate, shrink_of_begins h.entries, hopens]

end NodeLog

/-! ## All stacks together -/

namespace Stacks

/-- The stacks have all of the base's at their bottom; the backtrack stack is left out. -/
structure Begins (base work : Stacks) : Prop where
  log : base.log.Begins work.log
  calls : PegMachine.Begins base.calls work.calls
  symbols : PegMachine.Begins base.symbols work.symbols
  marks : PegMachine.Begins base.marks work.marks

theorem Begins.refl (work : Stacks) : work.Begins work := ⟨.refl _, .refl _, .refl _, .refl _⟩

theorem Begins.trans {base mid work : Stacks} (h : base.Begins mid) (h' : mid.Begins work) :
    base.Begins work :=
  ⟨h.log.trans h'.log, h.calls.trans h'.calls, h.symbols.trans h'.symbols, h.marks.trans h'.marks⟩

/-- A frame brings back the stacks it was made from as long as they are still there. -/
theorem restore_frame {base work : Stacks} (h : base.Begins work) (inside : base.log.Inside)
    (alternative pos : Nat) :
    work.restore (base.frame alternative pos) = { base with backtrack := work.backtrack } := by
  simp only [restore, frame, NodeLog.truncate_of_begins h.log inside, shrink_of_begins h.calls,
    shrink_of_begins h.symbols, shrink_of_begins h.marks]

end Stacks

end PegMachine
