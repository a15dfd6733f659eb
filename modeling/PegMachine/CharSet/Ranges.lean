import PegMachine.CharSet
/-!
  The range form of a set: its members as inclusive ranges, in order, with neighbouring bytes merged.

  The members are gone through in increasing order. As long as they count up one by one, the range that is
  under way has as many members as its first and its latest are apart; the member at which the two part begins
  the next range.

  Correspondence (program ↔ here):
    `members` ↔ `members`
    `ranges`  ↔ `ranges`, `closeRanges`
-/
namespace PegMachine.CharSet

/-- The bytes of the set, in increasing order. -/
def members (s : CharSet) : Bytes := allBytes.filter s.contains

/-- How far a byte is above another, unless it is below it. -/
def distance? (pivot b : UInt8) : Option UInt8 := if pivot ≤ b then some (b - pivot) else none

/-- The ranges of the members that are still to come, and of the `count` members before them of the range under
    way: `pivot` began it and `last` is the latest of them. A range is closed by the member after its last. -/
def closeRanges (pivot : UInt8) (count : Nat) (last : UInt8) : Bytes → List ByteRange
  | [] => [⟨pivot, last⟩]
  | b :: bs =>
    if some (UInt8.ofNat count) = distance? pivot b then closeRanges pivot (count + 1) b bs
    else ⟨pivot, last⟩ :: closeRanges b 1 b bs

def ranges (s : CharSet) : List ByteRange :=
  match s.members with
  | [] => []
  | b :: bs => closeRanges b 1 b bs

end PegMachine.CharSet
