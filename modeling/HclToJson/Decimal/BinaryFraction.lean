namespace HclToJson

/-- The number `± mantissa · 2 ^ power`. -/
structure BinaryFraction where
  negative : Bool
  mantissa : Nat
  power : Int
  deriving DecidableEq

namespace BinaryFraction

/-- The value of a float, none for an infinity and for what is not a number. -/
def ofFloat? (x : Float) : Option BinaryFraction :=
  let bits := x.toBits.toNat
  let negative := bits / 0x8000_0000_0000_0000 = 1
  let exponent : Nat := bits / 0x10_0000_0000_0000 % 2048
  let fraction := bits % 0x10_0000_0000_0000
  if exponent = 2047 then none
  else if exponent = 0 then some ⟨negative, fraction, -1074⟩
  else some ⟨negative, fraction + 0x10_0000_0000_0000, exponent - 1075⟩

def toFloat (x : BinaryFraction) : Float :=
  let size :=
    match x.power with
    | .ofNat n => Float.ofScientific (x.mantissa * Nat.pow 2 n) false 0
    | .negSucc n => Float.ofScientific (x.mantissa * Nat.pow 5 (n + 1)) true (n + 1)
  if x.negative then -size else size

def integer? (x : BinaryFraction) : Option Int :=
  let size : Option Nat :=
    match x.power with
    | .ofNat n => some (x.mantissa * Nat.pow 2 n)
    | .negSucc n =>
        let unit := Nat.pow 2 (n + 1)
        if x.mantissa % unit = 0 then some (x.mantissa / unit) else none
  size.map fun n => if x.negative then -n else n

/-- What is left of `x` after taking off `y` as often as it fits, with the sign of `x`. -/
def remainder (x y : BinaryFraction) : BinaryFraction :=
  let power := min x.power y.power
  let scaled (z : BinaryFraction) : Nat := z.mantissa * Nat.pow 2 (z.power - power).toNat
  ⟨x.negative, scaled x % scaled y, power⟩

end BinaryFraction

end HclToJson
