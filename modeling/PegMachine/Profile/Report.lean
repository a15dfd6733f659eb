import PegMachine.Profile
import PegMachine.Text.Decimal
/-!
  Profiles as text: a table of the opcodes that ran, and the pairs as comma-separated values.

  Correspondence (program ↔ here):
    the display form of `OpcodeProfile` ↔ `display`, `lines`
    `write_pairs_csv`                   ↔ `csv`
-/
namespace PegMachine.Profile

/-- The share of `total` that `count` is, in percent, as a binary fraction of double precision. -/
def percentage (count total : Nat) : Float := Float.ofNat count * 100.0 / Float.ofNat total

/-- A row of the table: the name moved to the right in its column, the count and the share. -/
def row (total : Nat) (entry : Opcode × Nat) : String :=
  let name := Text.padLeft 16 ' ' entry.1.name
  let share := Text.fixed 2 (Text.Dyadic.ofFloat (percentage entry.2 total))
  s!"{name}: {entry.2} ({share}%)"

/-- How many instructions ran, then a row for each opcode that did, the most frequent first. -/
def lines (p : Profile) : List String :=
  s!"{p.total} instructions executed" :: p.hottest.map (row p.total)

/-- The lines of the profile, each ended by a newline. -/
def display (p : Profile) : String := String.join (p.lines.map (· ++ "\n"))

/-! ## Pairs -/

/-- The line of the opcodes that ran after the given one. -/
def csvRow (p : Profile) (first : Opcode) : String :=
  ",".intercalate (first.name :: Opcode.all.map fun second => toString (p.pair first second))

/-- A line of opcode names, then a line for each opcode with how often each other ran right after it. -/
def csv (p : Profile) : String :=
  let heading := ",".intercalate ("" :: Opcode.all.map Opcode.name)
  String.join ((heading :: Opcode.all.map p.csvRow).map (· ++ "\n"))

end PegMachine.Profile
