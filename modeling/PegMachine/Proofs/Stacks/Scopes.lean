import PegMachine.Machine.Stacks
/-!
  Nested scopes and the flat symbol table.

  `Scopes` are scopes inside each other, each a list of bindings. The symbol table is one list: a scope's bindings
  stand behind its marker, and those of the scopes inside it behind them. `Scopes.entries` lays scopes out in this
  way, latest entry first. For a table that is laid out so, what is proved:
    1. `filterMap_entries`: the texts found in it are those that can be seen in the scopes, in the same order;
    2. `entries_enter`, `entries_bind`: a marker at its end begins a scope, and a binding there goes into the
       innermost scope;
    3. `lastScope?_eq_none`, `shrink_lastScope?`: there is a marker if and only if a scope was begun, and cutting
       the table back to the last marker ends the innermost scope.
-/
namespace PegMachine

/-- The bindings made in a scope, latest first: the name of a table and a text. -/
abbrev Scope := List (String × Bytes)

/-- One scope is there from the start. The others were begun inside it and not ended, the innermost comes first. -/
structure Scopes where
  begun : List Scope
  outermost : Scope
  deriving DecidableEq, Repr

namespace Scopes

/-- No scope begun and nothing bound. -/
def empty : Scopes := ⟨[], []⟩

/-- Begins a scope, with nothing bound in it. -/
def enter (scopes : Scopes) : Scopes := { scopes with begun := [] :: scopes.begun }

/-- Ends the innermost of the scopes that were begun. -/
def leave (scopes : Scopes) : Scopes := { scopes with begun := scopes.begun.tail }

/-- Binds a text in the innermost scope. -/
def bind (table : String) (text : Bytes) (scopes : Scopes) : Scopes :=
  match scopes.begun with
  | [] => { scopes with outermost := (table, text) :: scopes.outermost }
  | scope :: outer => { scopes with begun := ((table, text) :: scope) :: outer }

/-- The texts of a table that can be seen, latest first: those of the innermost scope, then those of the scope
    around it, and so on. -/
def visible (scopes : Scopes) (table : String) : List Bytes :=
  ((scopes.begun ++ [scopes.outermost]).flatten.filter (·.1 = table)).map Prod.snd

/-- The bindings of a scope as entries of a symbol table. -/
def bindings (scope : Scope) : List SymbolEntry := scope.map fun binding => .binding binding.1 binding.2

/-- The entries of the symbol table that holds the scopes, latest first. The marker of a scope stands before its
    bindings. -/
def entries (scopes : Scopes) : List SymbolEntry :=
  scopes.begun.flatMap (fun scope => bindings scope ++ [.scope]) ++ bindings scopes.outermost

variable {scopes : Scopes} {symbols : Array SymbolEntry}

theorem entries_enter (scopes : Scopes) : scopes.enter.entries = .scope :: scopes.entries := rfl

theorem entries_bind (table : String) (text : Bytes) (scopes : Scopes) :
    (scopes.bind table text).entries = .binding table text :: scopes.entries := by
  obtain ⟨begun, outermost⟩ := scopes
  cases begun <;> rfl

/-- The innermost scope that was begun makes up the end of the table. -/
theorem entries_eq (h : scopes.begun ≠ []) :
    ∃ scope, scopes.entries = bindings scope ++ .scope :: scopes.leave.entries := by
  obtain ⟨begun, outermost⟩ := scopes
  cases begun with
  | nil => exact absurd rfl h
  | cons scope outer => exact ⟨scope, by simp [entries, leave]⟩

theorem not_isScope_of_bindings (scope : Scope) : ∀ entry ∈ bindings scope, entry.isScope = false := by
  intro entry hentry
  obtain ⟨binding, -, rfl⟩ := List.mem_map.1 hentry
  rfl

/-! ## Looking up -/

theorem filterMap_bindings (table : String) (scope : Scope) :
    (bindings scope).filterMap (SymbolEntry.textIn? table) = (scope.filter (·.1 = table)).map Prod.snd := by
  induction scope with
  | nil => rfl
  | cons binding scope ih =>
    obtain ⟨name, text⟩ := binding
    by_cases h : name = table
    · simp [bindings, SymbolEntry.textIn?, h, ← ih]
    · simp [bindings, SymbolEntry.textIn?, h, ← ih]

theorem filterMap_entries (table : String) (scopes : Scopes) :
    scopes.entries.filterMap (SymbolEntry.textIn? table) = scopes.visible table := by
  obtain ⟨begun, outermost⟩ := scopes
  induction begun with
  | nil => simp [entries, visible, filterMap_bindings]
  | cons scope outer ih =>
    have laid : entries ⟨scope :: outer, outermost⟩ = bindings scope ++ .scope :: entries ⟨outer, outermost⟩ := by
      simp [entries]
    have seen : visible ⟨scope :: outer, outermost⟩ table =
        (scope.filter (·.1 = table)).map Prod.snd ++ visible ⟨outer, outermost⟩ table := by
      simp [visible]
    rw [laid, seen, List.filterMap_append, filterMap_bindings, List.filterMap_cons_none rfl, ih]

/-- The texts found in the table are those that can be seen in the scopes that it holds. -/
theorem bindings_eq_visible (h : symbols.toList.reverse = scopes.entries) (table : String) :
    SymbolEntry.bindings symbols table = scopes.visible table := by
  rw [SymbolEntry.bindings, h, filterMap_entries]

/-! ## The last marker -/

theorem lastScope?_eq_none (h : symbols.toList.reverse = scopes.entries) (unbegun : scopes.begun = []) :
    SymbolEntry.lastScope? symbols = none := by
  have flat : scopes.entries = bindings scopes.outermost := by rw [entries, unbegun]; rfl
  rw [SymbolEntry.lastScope?, h, flat, List.findIdx?_eq_none_iff.2 (not_isScope_of_bindings _), Option.map_none]

/-- If a scope was begun, the table is cut back at the last marker to what was there before. -/
theorem shrink_lastScope? (h : symbols.toList.reverse = scopes.entries) (begun : scopes.begun ≠ []) :
    ∃ place, SymbolEntry.lastScope? symbols = some place ∧
      (symbols.shrink place).toList.reverse = scopes.leave.entries := by
  obtain ⟨scope, hentries⟩ := entries_eq begun
  have hsize : symbols.size = (bindings scope).length + (scopes.leave.entries.length + 1) := by
    rw [← symbols.length_toList, ← List.length_reverse, h, hentries, List.length_append, List.length_cons]
  have found : (bindings scope ++ .scope :: scopes.leave.entries).findIdx? SymbolEntry.isScope =
      some (bindings scope).length := by
    rw [List.findIdx?_append, List.findIdx?_eq_none_iff.2 (not_isScope_of_bindings scope)]
    simp [List.findIdx?_cons, SymbolEntry.isScope]
  refine ⟨scopes.leave.entries.length, ?_, ?_⟩
  · rw [SymbolEntry.lastScope?, h, hentries, found, hsize, Option.map_some]
    exact congrArg some (by omega)
  · rw [Array.toList_shrink, List.reverse_take, h, hentries, symbols.length_toList, hsize]
    have cut : (bindings scope).length + (scopes.leave.entries.length + 1) - scopes.leave.entries.length =
        (bindings scope).length + 1 := by omega
    rw [cut, List.drop_append]
    simp

end Scopes

end PegMachine
