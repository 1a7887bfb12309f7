import HclToJson.Decimal.Shortest

namespace HclToJson.Decimal

def readNat (digits : List Char) : Nat :=
  digits.foldl (fun n c => n * 10 + (c.toNat - '0'.toNat)) 0

def ofParts (whole fraction : List Char) (exponent : Int) : Decimal :=
  ⟨readNat (whole ++ fraction), exponent - fraction.length⟩

/-- The float nearest to a decimal. Decimals far outside of the range of floats are decided by their
size alone, so a long exponent costs nothing. -/
def toFloat (x : Decimal) : Float :=
  if x.digits = 0 then 0
  else
    let leading := x.exponent + width x.digits
    if 400 < leading then 1.0 / 0.0
    else if leading < -400 then 0
    else
      match x.exponent with
      | .ofNat n => Float.ofScientific x.digits false n
      | .negSucc n => Float.ofScientific x.digits true (n + 1)

end HclToJson.Decimal
