import HclToJson.Number
import HclToJson.Value

namespace HclToJson

/-- A value of the configuration language. -/
inductive Static
  | null
  | bool (value : Bool)
  | number (value : Number)
  | string (value : String)
  | array (items : List Static)
  | object (entries : List (String × Static))

def Number.toInt64? : Number → Option Int64
  | .int value _ =>
      if -0x8000_0000_0000_0000 ≤ value ∧ value < 0x8000_0000_0000_0000 then some (Int64.ofInt value)
      else none
  | .float _ => none

def Number.toValue (n : Number) : Value :=
  Value.number n.toInt64? (some n.toFloat)

namespace Static

mutual

def toValue : Static → Value
  | null => .null
  | bool value => .boolean value
  | number value => value.toValue
  | string value => .string value
  | array items => .array (itemsToValues items)
  | object entries => .object (entriesToValues entries)

def itemsToValues : List Static → List Value
  | [] => []
  | item :: rest => item.toValue :: itemsToValues rest

def entriesToValues : List (String × Static) → List (String × Value)
  | [] => []
  | (key, value) :: rest => (key, value.toValue) :: entriesToValues rest

end

end Static

end HclToJson
