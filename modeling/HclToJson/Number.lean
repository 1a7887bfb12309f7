import HclToJson.Decimal.Reading
import HclToJson.Decimal.Text

/-!
Numbers of the configuration language: integers of 64 bits, signed or unsigned, and floats.
-/

namespace HclToJson

/-- The integers that a number can be. -/
def FitsNumber (value : Int) : Prop :=
  -0x8000_0000_0000_0000 ≤ value ∧ value < 0x1_0000_0000_0000_0000

instance (value : Int) : Decidable (FitsNumber value) := inferInstanceAs (Decidable (_ ∧ _))

inductive Number
  | int (value : Int) (fits : FitsNumber value)
  | float (value : Float)

namespace Number

/-- An integer, as a float if it is out of range. -/
def ofInt (value : Int) : Number :=
  if fits : FitsNumber value then int value fits else float (Float.ofInt value)

/-- A float, as an integer if it has no fraction and is in range. -/
def ofFloat (value : Float) : Number :=
  match (BinaryFraction.ofFloat? value).bind (·.integer?) with
  | some n => if fits : FitsNumber n then int n fits else float value
  | none => float value

def toFloat : Number → Float
  | int value _ => Float.ofInt value
  | float value => value

/-- The negated number. An integer zero has no sign, and a float stays a float. -/
protected def neg : Number → Number
  | int value _ => ofInt (-value)
  | float value => float (-value)

instance : Neg Number := ⟨Number.neg⟩

def same (a b : Number) : Bool :=
  match a, b with
  | int x _, int y _ => x = y
  | a, b => a.toFloat == b.toFloat

def floatFormat : FloatFormat where
  exponentPlus := []
  nan := "NaN".toList
  infinity := "inf".toList
  negativeInfinity := "-inf".toList

def text : Number → String
  | int value _ => String.ofList (Decimal.intText value)
  | float value => String.ofList (Decimal.floatText floatFormat value)

end Number

end HclToJson
