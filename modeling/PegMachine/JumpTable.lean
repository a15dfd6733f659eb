import PegMachine.Bytes
/-!
  Jump tables: at most one target for each byte.

  Inserting replaces the target that the byte had. The entries are listed in the order of their bytes,
  so two tables with the same entries are the same table.

  Correspondence (program ↔ here):
    `MappedTable`, `new`           ↔ `JumpTable`, `empty`
    `insert`, `get`, `iter`, `len` ↔ `insert`, `get?`, `entries`, `size`
-/
namespace PegMachine

structure JumpTable where
  slots : Vector (Option UInt32) 256
  deriving DecidableEq, Repr

namespace JumpTable

def empty : JumpTable := ⟨Vector.replicate 256 none⟩

/-- The target of a byte, if it has one. -/
def get? (t : JumpTable) (b : UInt8) : Option UInt32 :=
  have h : b.toNat < 256 := b.toNat_lt
  t.slots[b.toNat]

def insert (t : JumpTable) (b : UInt8) (target : UInt32) : JumpTable :=
  ⟨t.slots.set b.toNat (some target) b.toNat_lt⟩

/-- The bytes that have a target, in increasing order, with their targets. -/
def entries (t : JumpTable) : List (UInt8 × UInt32) :=
  allBytes.filterMap fun b => (t.get? b).map (b, ·)

def size (t : JumpTable) : Nat := t.entries.length

def ofEntries (entries : List (UInt8 × UInt32)) : JumpTable :=
  entries.foldl (fun t e => t.insert e.1 e.2) empty

theorem get?_empty (b : UInt8) : empty.get? b = none := by
  simp [get?, empty]

theorem get?_insert (t : JumpTable) (b c : UInt8) (target : UInt32) :
    (t.insert b target).get? c = if c = b then some target else t.get? c := by
  by_cases h : c = b
  · simp [get?, insert, h]
  · have hn : ¬ b.toNat = c.toNat := fun e => h (UInt8.toNat_inj.1 e.symm)
    simp [get?, insert, h, hn]

theorem ext_get? {t u : JumpTable} (h : ∀ b, t.get? b = u.get? b) : t = u := by
  obtain ⟨x⟩ := t
  obtain ⟨y⟩ := u
  congr 1
  apply Vector.ext
  intro i hi
  have := h (UInt8.ofNat i)
  simpa [get?, Nat.mod_eq_of_lt hi] using this

theorem mem_entries {t : JumpTable} {b : UInt8} {target : UInt32} :
    (b, target) ∈ t.entries ↔ t.get? b = some target := by
  simp only [entries, List.mem_filterMap, Option.map_eq_some_iff, Prod.mk.injEq]
  constructor
  · rintro ⟨c, _, target', hget, rfl, rfl⟩
    exact hget
  · intro h
    exact ⟨b, mem_allBytes b, target, h, rfl, rfl⟩

end JumpTable

end PegMachine
