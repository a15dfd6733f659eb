import PegMachine.Proofs.Stacks.Begins
/-!
  The places of the opened nodes.

  The log keeps the places of its opened entries beside it. `Exact` says that they are what they stand
  for: each place in the list is the place of an opened entry, none is missing, and they increase. Every
  operation on the log keeps this. So the innermost opened node is found whenever one is open
  (`innermost?_eq_none_iff`), nothing is open above it (`not_isOpened_above`), and there are as many places
  as opened entries (`depth_eq`).

  `map` changes entries and leaves the places as they are. It commutes with every operation on the log, as long
  as opened entries stay opened and no others become so.
-/
namespace PegMachine

def LogEntry.isOpened : LogEntry → Bool
  | opened _ => true
  | _ => false

/-- Where the node starts that the entry opens, if it opens one. -/
def LogEntry.start? : LogEntry → Option Nat
  | opened start => some start
  | _ => none

namespace NodeLog

variable {log : NodeLog} {place start : Nat}

/-- The places beside the log are those of its opened entries, in increasing order. -/
structure Exact (log : NodeLog) : Prop where
  increasing : log.opens.toList.Pairwise (· < ·)
  mem_opens : ∀ place, place ∈ log.opens.toList ↔ ∃ start, log.entries[place]? = some (.opened start)

/-- From increasing numbers, popping those that are not below a bound leaves those below it. -/
theorem rdropWhile_of_increasing {places : List Nat} (h : places.Pairwise (· < ·)) (bound : Nat) :
    places.rdropWhile (bound ≤ ·) = places.filter (· < bound) := by
  induction places using List.reverseRecOn with
  | nil => rfl
  | append_singleton places last ih =>
    obtain ⟨hp, -, below⟩ := List.pairwise_append.1 h
    rw [List.rdropWhile_concat, List.filter_append]
    -- If the last one is kept, all are: they are smaller.
    by_cases hl : bound ≤ last
    · have hn : ¬ last < bound := Nat.not_lt.2 hl
      simp [hl, hn, ih hp]
    · have all : places.filter (· < bound) = places := by
        rw [List.filter_eq_self]
        intro place hplace
        have := below place hplace last (List.mem_singleton_self last)
        rw [decide_eq_true_eq]
        omega
      have hlt : last < bound := Nat.lt_of_not_le hl
      simp [hl, hlt, all]

/-! ## The innermost opened node -/

theorem toList_entriesFrom (log : NodeLog) (place : Nat) :
    log.entriesFrom place = log.entries.toList.drop place := by
  rw [entriesFrom, Array.toList_extract, List.extract_eq_take_drop, List.take_of_length_le (by simp)]

theorem innermost?_eq_some (h : log.innermost? = some (place, start)) :
    log.opens.back? = some place ∧ log.entries[place]? = some (.opened start) := by
  rw [innermost?] at h
  split at h
  · cases h
  · next hback =>
    split at h
    · next hentry =>
      cases h
      exact ⟨hback, hentry⟩
    · cases h

/-- From its place on the log has the innermost opened node and what was added to it. -/
theorem drop_innermost (h : log.innermost? = some (place, start)) :
    log.entries.toList.drop place = .opened start :: log.entriesFrom (place + 1) := by
  obtain ⟨hlt, hentry⟩ := Array.getElem?_eq_some_iff.1 (innermost?_eq_some h).2
  rw [toList_entriesFrom, List.drop_eq_getElem_cons (by simpa using hlt), Array.getElem_toList, hentry]

/-! ## Other entries in the same places -/

/-- The log with something done to every entry. -/
def map (f : LogEntry → LogEntry) (log : NodeLog) : NodeLog := ⟨log.entries.map f, log.opens⟩

variable {f : LogEntry → LogEntry}

theorem map_push (log : NodeLog) (entry : LogEntry) : (log.push entry).map f = (log.map f).push (f entry) := by
  simp only [push, map, Array.map_push]

theorem map_openNode {start' : Nat} (h : f (.opened start) = .opened start') :
    (log.openNode start).map f = (log.map f).openNode start' := by
  simp only [openNode, map, Array.map_push, Array.size_map, h]

theorem map_truncate (log : NodeLog) (length : Nat) : (log.truncate length).map f = (log.map f).truncate length := by
  simp only [truncate, map, map_shrink]

theorem entriesFrom_map (log : NodeLog) (place : Nat) :
    (log.map f).entriesFrom place = (log.entriesFrom place).map f := by
  simp only [entriesFrom, map, Array.size_map, ← Array.map_extract, Array.toList_map]

theorem innermost?_eq (log : NodeLog) : log.innermost? =
    log.opens.back?.bind fun place => (log.entries[place]?.bind LogEntry.start?).map (Prod.mk place) := by
  rw [innermost?]
  cases log.opens.back? with
  | none => rfl
  | some place =>
    simp only [Option.bind_some]
    cases log.entries[place]? with
    | none => rfl
    | some entry => cases entry <;> rfl

/-- If opened entries stay opened and no others become opened, the same node is the innermost one. -/
theorem innermost?_map {g : Nat → Nat} (h : ∀ entry, (f entry).start? = entry.start?.map g) (log : NodeLog) :
    (log.map f).innermost? = log.innermost?.map (Prod.map id g) := by
  rw [innermost?_eq, innermost?_eq, map]
  cases log.opens.back? with
  | none => rfl
  | some place =>
    simp only [Option.bind_some, Array.getElem?_map]
    cases log.entries[place]? with
    | none => rfl
    | some entry =>
      simp only [Option.map_some, Option.bind_some, h, Option.map_map]
      rfl

/-! ## Exact places -/

namespace Exact

theorem empty : NodeLog.empty.Exact := ⟨by simp [NodeLog.empty], by simp [NodeLog.empty]⟩

theorem inside (h : log.Exact) : log.Inside := by
  intro place hplace
  obtain ⟨start, hstart⟩ := (h.mem_opens place).1 hplace
  exact (Array.getElem?_eq_some_iff.1 hstart).1

theorem openNode (h : log.Exact) (start : Nat) : (log.openNode start).Exact where
  increasing := by
    rw [NodeLog.openNode, Array.toList_push, List.pairwise_append]
    refine ⟨h.increasing, List.pairwise_singleton .., ?_⟩
    intro place hplace size hsize
    rw [List.mem_singleton.1 hsize]
    exact h.inside place hplace
  mem_opens place := by
    rw [NodeLog.openNode, Array.toList_push, List.mem_append, List.mem_singleton, h.mem_opens,
      Array.getElem?_push]
    split
    · next hp => simp [hp]
    · next hp => simp [hp]

theorem push (h : log.Exact) {entry : LogEntry} (hentry : ∀ start, entry ≠ .opened start) :
    (log.push entry).Exact where
  increasing := h.increasing
  mem_opens place := by
    have last (hp : place = log.entries.size) : log.entries[place]? = none :=
      Array.getElem?_eq_none_iff.2 (Nat.le_of_eq hp.symm)
    rw [NodeLog.push, h.mem_opens, Array.getElem?_push]
    split
    · next hp => simp [last hp, hentry]
    · rfl

theorem truncate (h : log.Exact) (length : Nat) : (log.truncate length).Exact where
  increasing := by
    rw [NodeLog.truncate, toList_popWhile, rdropWhile_of_increasing h.increasing]
    exact h.increasing.filter _
  mem_opens place := by
    rw [NodeLog.truncate, toList_popWhile, rdropWhile_of_increasing h.increasing, List.mem_filter,
      h.mem_opens, decide_eq_true_eq, ← Array.getElem?_toList, ← Array.getElem?_toList,
      Array.toList_shrink, List.getElem?_take]
    split
    · next hp => simp [hp]
    · next hp => simp [hp]

/-- A log whose places are exact has an innermost opened node unless no node is open. -/
theorem innermost?_eq_none_iff (h : log.Exact) : log.innermost? = none ↔ log.opens = #[] := by
  rw [NodeLog.innermost?]
  cases hb : log.opens.back? with
  | none => simpa using hb
  | some place =>
    obtain ⟨below, hbelow⟩ := Array.back?_eq_some_iff.1 hb
    have hmem : place ∈ log.opens.toList := by simp [hbelow]
    obtain ⟨start, hstart⟩ := (h.mem_opens place).1 hmem
    simp [hstart, hbelow]

/-- No node is open above the innermost one. -/
theorem not_isOpened_above (h : log.Exact) (hi : log.innermost? = some (place, start)) :
    ∀ entry ∈ log.entriesFrom (place + 1), entry.isOpened = false := by
  intro entry hentry
  cases entry with
  | tag | value | node => rfl
  | opened start' =>
    exfalso
    rw [toList_entriesFrom] at hentry
    obtain ⟨k, hk⟩ := List.mem_iff_getElem?.1 hentry
    rw [List.getElem?_drop, Array.getElem?_toList] at hk
    -- Its place would be among those of the opened nodes, above the last of them.
    have hmem : place + 1 + k ∈ log.opens.toList := (h.mem_opens _).2 ⟨start', hk⟩
    obtain ⟨below, hbelow⟩ := Array.back?_eq_some_iff.1 (innermost?_eq_some hi).1
    have increasing := h.increasing
    rw [hbelow, Array.toList_push] at increasing hmem
    obtain ⟨-, -, hlt⟩ := List.pairwise_append.1 increasing
    rcases List.mem_append.1 hmem with hmem | hmem
    · have := hlt _ hmem place (List.mem_singleton_self place)
      omega
    · have := List.mem_singleton.1 hmem
      omega

/-- Cutting the log back to the place of the innermost opened node closes this node and no other. -/
theorem opens_truncate (h : log.Exact) (hi : log.innermost? = some (place, start)) :
    (log.truncate place).opens = log.opens.pop := by
  obtain ⟨below, hbelow⟩ := Array.back?_eq_some_iff.1 (innermost?_eq_some hi).1
  have increasing := h.increasing
  rw [hbelow, Array.toList_push] at increasing
  obtain ⟨-, -, hlt⟩ := List.pairwise_append.1 increasing
  apply Array.toList_inj.1
  rw [NodeLog.truncate, toList_popWhile, rdropWhile_of_increasing h.increasing, hbelow, Array.pop_push,
    Array.toList_push, List.filter_append, List.filter_eq_self.2]
  · simp
  · exact fun x hx => decide_eq_true (hlt x hx place (List.mem_singleton_self place))

/-- As many nodes are open as there are opened entries. -/
theorem depth_eq (h : log.Exact) : log.depth = log.entries.toList.countP LogEntry.isOpened := by
  -- On the number of open nodes: the log below the innermost one is exact and has one less.
  induction hdepth : log.depth generalizing log with
  | zero =>
    symm
    rw [List.countP_eq_zero]
    intro entry hentry hopened
    cases entry with
    | tag | value | node => cases hopened
    | opened start =>
      obtain ⟨place, hplace⟩ := List.mem_iff_getElem?.1 hentry
      have hmem := (h.mem_opens place).2 ⟨start, Array.getElem?_toList ▸ hplace⟩
      rw [depth, Array.size_eq_zero_iff] at hdepth
      rw [hdepth] at hmem
      cases hmem
  | succ depth ih =>
    cases hi : log.innermost? with
    | none =>
      rw [NodeLog.depth, h.innermost?_eq_none_iff.1 hi] at hdepth
      cases hdepth
    | some inner =>
      obtain ⟨place, start⟩ := inner
      have hbelow : (log.truncate place).depth = depth := by
        rw [NodeLog.depth, h.opens_truncate hi, Array.size_pop]
        rw [NodeLog.depth] at hdepth
        omega
      have hcount := ih (h.truncate place) hbelow
      rw [NodeLog.truncate, Array.toList_shrink] at hcount
      rw [← List.take_append_drop place log.entries.toList, List.countP_append, ← hcount, drop_innermost hi,
        List.countP_cons_of_pos rfl, List.countP_eq_zero.2]
      intro entry hentry
      rw [h.not_isOpened_above hi entry hentry]
      exact Bool.false_ne_true
end Exact

end NodeLog

end PegMachine
