/-!
  Decimal text with a fixed number of places.

  The value is given exactly, as a whole number times a power of two. It is rounded to the nearest
  decimal with the wanted places, and a value half way between two goes to the even one.

  Correspondence (program ↔ here):
    a share with two decimals ↔ `fixed`, `Dyadic.ofFloat`
    a name moved to the right ↔ `padLeft`
-/
namespace PegMachine.Text

/-- A text filled up on the left to a width. -/
def padLeft (width : Nat) (fill : Char) (text : String) : String :=
  String.ofList (text.toList.leftpad width fill)

/-- The number `mantissa * 2 ^ exponent`. -/
structure Dyadic where
  mantissa : Nat
  exponent : Int
  deriving DecidableEq, Repr

/-- The value of a finite number of double precision that is not negative. -/
def Dyadic.ofFloat (x : Float) : Dyadic :=
  let bits := x.toBits.toNat
  let fraction := bits % (1 <<< 52)
  match (bits >>> 52) % (1 <<< 11) with
  | 0 => ⟨fraction, -1074⟩
  | power => ⟨(1 <<< 52) + fraction, power - 1075⟩

/-- The whole number nearest to a quotient; of two equally near, the even one. -/
def roundDiv (n d : Nat) : Nat :=
  let q := n / d
  let r := n % d
  if 2 * r < d then q else if d < 2 * r then q + 1 else q + q % 2

/-- The value times `scale`, rounded. -/
def Dyadic.scaled (x : Dyadic) (scale : Nat) : Nat :=
  roundDiv ((x.mantissa <<< x.exponent.toNat) * scale) (1 <<< (-x.exponent).toNat)

/-- The value with the wanted number of digits after the point. -/
def fixed (places : Nat) (x : Dyadic) : String :=
  let scale := Nat.pow 10 places
  let scaled := x.scaled scale
  s!"{scaled / scale}." ++ padLeft places '0' (toString (scaled % scale))

end PegMachine.Text
