import PegMachine.Proofs.Run.Moves
/-!
  Pending marks and the frames that count them.

  A frame remembers how many marks were pending when it was saved. A definition takes the last mark off only if
  the top frame does not count it, so what a frame counts stays below it. What is proved:
    1. `Stacks.Layered`, `layered_of_move`: from the bottom frame to the top one the counts never fall, and no
       frame counts more marks than there are;
    2. `pinnedMarks_le_of_reaches`: so in every state of a run the marks that the top frame counts are there.
-/
namespace PegMachine

/-- No frame counts fewer marks than a frame below it, or more marks than there are. -/
structure Stacks.Layered (work : Stacks) : Prop where
  rising : work.backtrack.toList.Pairwise (·.markDepth ≤ ·.markDepth)
  counted : ∀ f ∈ work.backtrack, f.markDepth ≤ work.marks.size

namespace Stacks.Layered

variable {work work' : Stacks} {f : Frame}

theorem empty : Stacks.empty.Layered := ⟨.nil, nofun⟩

/-- Only the frames and the number of marks matter. -/
theorem grow (h : work.Layered) (backtrack : work'.backtrack = work.backtrack)
    (marks : work.marks.size ≤ work'.marks.size) : work'.Layered where
  rising := backtrack ▸ h.rising
  counted f hf := Nat.le_trans (h.counted f (backtrack ▸ hf)) marks

/-- The top frame counts as many marks as any. -/
theorem le_pinnedMarks (h : work.Layered) (hf : f ∈ work.backtrack) : f.markDepth ≤ work.pinnedMarks := by
  rw [pinnedMarks]
  cases top : work.backtrack.back? with
  | none =>
    rw [Array.back?_eq_none_iff.1 top] at hf
    exact absurd hf (Array.not_mem_empty f)
  | some g =>
    obtain ⟨below, hbelow⟩ := Array.back?_eq_some_iff.1 top
    have rising := h.rising
    rw [hbelow, Array.toList_push, List.pairwise_append] at rising
    rw [hbelow] at hf
    rcases Array.mem_push.1 hf with old | rfl
    · exact rising.2.2 f (Array.mem_toList_iff.2 old) g (List.mem_singleton_self g)
    · exact Nat.le_refl _

theorem pinnedMarks_le (h : work.Layered) : work.pinnedMarks ≤ work.marks.size := by
  rw [pinnedMarks]
  split
  · next f top => exact h.counted f (Array.mem_of_back? top)
  · exact Nat.zero_le _

theorem popFrame (h : work.Layered) : Stacks.Layered { work with backtrack := work.backtrack.pop } where
  rising := by
    rw [Array.toList_pop]
    exact h.rising.sublist (List.dropLast_sublist _)
  counted f hf := h.counted f (mem_of_mem_pop hf)

/-- A frame that is saved now counts all marks. -/
theorem pushFrame (h : work.Layered) (alternative pos : Nat) :
    Stacks.Layered { work with backtrack := work.backtrack.push (work.frame alternative pos) } where
  rising := by
    rw [Array.toList_push, List.pairwise_append]
    refine ⟨h.rising, List.pairwise_singleton .., fun f hf g hg => ?_⟩
    rw [List.mem_singleton.1 hg]
    exact h.counted f (Array.mem_toList_iff.1 hf)
  counted f hf := by
    rcases Array.mem_push.1 hf with old | rfl
    · exact h.counted f old
    · exact Nat.le_refl _

/-- Going back to the top frame leaves the marks that it counts, and so those that the frames below it count. -/
theorem resume (h : work.Layered) (top : work.backtrack.back? = some f) :
    (Stacks.restore { work with backtrack := work.backtrack.pop } f).Layered where
  rising := h.popFrame.rising
  counted g hg := by
    have below := h.le_pinnedMarks (mem_of_mem_pop hg)
    have there := h.counted g (mem_of_mem_pop hg)
    rw [pinnedMarks, top] at below
    show g.markDepth ≤ (work.marks.shrink f.markDepth).size
    rw [Array.size_shrink]
    exact Nat.le_min.2 ⟨below, there⟩

/-- A mark is used up only if no frame counts it. -/
theorem useMark (h : work.Layered) : work.useMark.Layered := by
  rw [Stacks.useMark]
  split
  · next free =>
    refine ⟨h.rising, fun f hf => ?_⟩
    have := h.le_pinnedMarks hf
    show f.markDepth ≤ work.marks.pop.size
    rw [Array.size_pop]
    omega
  · exact h

end Stacks.Layered

namespace Setting

variable {s : Setting} {m m' : Machine} {i : Instruction}

theorem layered_of_move (h : s.Move m i m') (hm : m.work.Layered) : m'.work.Layered := by
  cases h with
  | consumed | jumped | switched | called | returned | opened | closed | tagged | valued | scopeBegun | scopeEnded =>
    exact hm.grow rfl (Nat.le_refl _)
  | marked =>
    refine hm.grow rfl ?_
    show m.work.marks.size ≤ (m.work.marks.push m.pos).size
    rw [Array.size_push]
    omega
  | defined => exact hm.useMark.grow rfl (Nat.le_refl _)
  | chose alternative => exact hm.pushFrame alternative m.pos
  | committed => exact hm.popFrame
  | refreshed target f => exact hm.popFrame.pushFrame f.alternative m.pos
  | wentBack target f top => exact hm.resume top
  | failed i f fails done top => exact hm.resume top
  | failedTwice f g top next => exact hm.popFrame.resume next

/-- In every state of a run the marks that the top frame counts are there. -/
theorem pinnedMarks_le_of_reaches {pc pos : Nat} {pool : Pool} (h : s.Reaches (.start pc pos pool) m) :
    m.work.pinnedMarks ≤ m.work.marks.size :=
  (invariant_of_reaches (fun _ _ _ _ => layered_of_move) h .empty : m.work.Layered).pinnedMarks_le

end Setting

end PegMachine
