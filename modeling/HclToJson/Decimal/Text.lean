import HclToJson.Decimal.Shortest

namespace HclToJson

structure FloatFormat where
  /-- Written before an exponent that is not negative. -/
  exponentPlus : List Char
  /-- The texts of what is not a number, and of the infinities. -/
  nan : List Char
  infinity : List Char
  negativeInfinity : List Char

namespace Decimal

def natText (n : Nat) : List Char := Nat.toDigits 10 n

def intText : Int → List Char
  | .ofNat n => natText n
  | .negSucc n => '-' :: natText (n + 1)

/-- A list of digits without the zeros at its end, of which one is kept if there is nothing else. -/
def trimZeros (digits : List Char) : List Char :=
  match (digits.reverse.dropWhile (· = '0')).reverse with
  | [] => ['0']
  | trimmed => trimmed

/-- The text of digits whose first one has the place `leading`. -/
def layout (format : FloatFormat) (digits : List Char) (leading : Int) : List Char :=
  if -5 ≤ leading ∧ leading < 0 then
    '0' :: '.' :: List.replicate (-leading - 1).toNat '0' ++ digits
  else if 0 ≤ leading ∧ leading < 16 then
    let whole := leading.toNat + 1
    if digits.length ≤ whole then
      digits ++ List.replicate (whole - digits.length) '0' ++ ['.', '0']
    else digits.take whole ++ '.' :: digits.drop whole
  else
    let mantissa :=
      match digits with
      | [] => []
      | [d] => [d]
      | d :: rest => d :: '.' :: rest
    mantissa ++ 'e' :: (if 0 ≤ leading then format.exponentPlus else []) ++ intText leading

def floatText (format : FloatFormat) (x : Float) : List Char :=
  match BinaryFraction.ofFloat? x with
  | none =>
      if x.isNaN then format.nan
      else if 0 < x then format.infinity
      else format.negativeInfinity
  | some value =>
      let decimal := shortest value
      let digits := natText decimal.digits
      let text := layout format (trimZeros digits) (digits.length - 1 + decimal.exponent)
      if value.negative then '-' :: text else text

end Decimal

end HclToJson
