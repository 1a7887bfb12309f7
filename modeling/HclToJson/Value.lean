import HclToJson.Entries

namespace HclToJson

inductive Value
  | null
  | boolean (value : Bool)
  | integer (value : Int64)
  /-- A float, also for integers beyond the signed 64 bits. -/
  | decimal (value : Float)
  | string (value : String)
  | array (items : List Value)
  | object (entries : List (String × Value))

abbrev Object := Entries Value

namespace Value

/-- A number from the representations it has: an integer if there is one. -/
def number : Option Int64 → Option Float → Value
  | some int, _ => integer int
  | none, some float => decimal float
  | none, none => null

end Value

end HclToJson
