import HclToJson.Decimal.BinaryFraction

/-!
The shortest decimal for a float: among the decimals that read back as the float, one with the
fewest digits, and of those the one nearest to the float's value.
-/

namespace HclToJson

/-- The number `digits · 10 ^ exponent`. -/
structure Decimal where
  digits : Nat
  exponent : Int
  deriving DecidableEq

namespace Decimal

def width (n : Nat) : Nat := (Nat.toDigits 10 n).length

/-- The exponent of the leading digit of `numerator / denominator`, which is positive. -/
def magnitude (numerator denominator : Nat) : Int :=
  if denominator ≤ numerator then width (numerator / denominator) - 1
  else -(width ((denominator - 1) / numerator) : Int)

/-- The neighbour on the grid of multiples of `10 ^ exponent` that reads back as `x`. The numbers
that read back as `x` lie between `low` and `high` quarters of its last place; the ends belong to
them if its mantissa is even. Of two neighbours the nearer one is taken, the even one if both are
equally near. -/
def onGrid? (x : BinaryFraction) (low high : Nat) (exponent : Int) : Option Decimal :=
  let quarters := x.power - 2
  let unit := Nat.pow 10 exponent.toNat * Nat.pow 2 (-quarters).toNat
  let scale := Nat.pow 2 quarters.toNat * Nat.pow 10 (-exponent).toNat
  let value := 4 * x.mantissa * scale
  let below := value / unit
  let reaches (a b : Nat) : Bool := if x.mantissa % 2 = 0 then a ≤ b else a < b
  match reaches (low * scale) (below * unit), reaches ((below + 1) * unit) (high * scale) with
  | false, false => none
  | true, false => some ⟨below, exponent⟩
  | false, true => some ⟨below + 1, exponent⟩
  | true, true =>
      let middle := (2 * below + 1) * unit
      if 2 * value < middle ∨ 2 * value = middle ∧ below % 2 = 0 then some ⟨below, exponent⟩
      else some ⟨below + 1, exponent⟩

/-- The shortest decimal for the size of a float; seventeen digits always suffice. -/
def shortest (x : BinaryFraction) : Decimal :=
  if x.mantissa = 0 then ⟨0, 0⟩
  else
    let narrow := x.mantissa = 0x10_0000_0000_0000 ∧ -1074 < x.power
    let low := 4 * x.mantissa - if narrow then 1 else 2
    let high := 4 * x.mantissa + 2
    let top := magnitude (x.mantissa * Nat.pow 2 x.power.toNat) (Nat.pow 2 (-x.power).toNat)
    let found := (List.range 17).findSome? fun (count : Nat) => onGrid? x low high (top - count)
    found.getD ⟨0, 0⟩

end Decimal

end HclToJson
