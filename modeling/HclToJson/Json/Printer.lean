import HclToJson.Decimal.Text
import HclToJson.Text.Quoted
import HclToJson.Value

namespace HclToJson.Json

structure Style where
  /-- Written before an element, and before the closing bracket, at a nesting level. -/
  newline : Nat → List Char
  /-- Written behind the colon of an entry. -/
  gap : List Char

def Style.compact : Style where
  newline := fun _ => []
  gap := []

def Style.pretty : Style where
  newline := fun level => '\n' :: List.replicate (2 * level) ' '
  gap := [' ']

def quoted (text : String) : List Char :=
  '"' :: text.toList.flatMap Text.escapeLower ++ ['"']

/-- Floats in JSON: a sign before each exponent, and `null` for what JSON has no number for. -/
def floatFormat : FloatFormat where
  exponentPlus := ['+']
  nan := "null".toList
  infinity := "null".toList
  negativeInfinity := "null".toList

def bracket (style : Style) (level : Nat) (opening closing : Char) (elements : List (List Char)) :
    List Char :=
  if elements.isEmpty then [opening, closing]
  else
    opening :: [','].intercalate (elements.map (style.newline (level + 1) ++ ·)) ++
      style.newline level ++ [closing]

mutual

def text (style : Style) (level : Nat) : Value → List Char
  | .null => "null".toList
  | .boolean value => (if value then "true" else "false").toList
  | .integer value => Decimal.intText value.toInt
  | .decimal value => Decimal.floatText floatFormat value
  | .string value => quoted value
  | .array items => bracket style level '[' ']' (itemTexts style (level + 1) items)
  | .object entries => bracket style level '\x7b' '\x7d' (entryTexts style (level + 1) entries)

def itemTexts (style : Style) (level : Nat) : List Value → List (List Char)
  | [] => []
  | item :: rest => text style level item :: itemTexts style level rest

def entryTexts (style : Style) (level : Nat) : List (String × Value) → List (List Char)
  | [] => []
  | (key, value) :: rest =>
      (quoted key ++ ':' :: style.gap ++ text style level value) :: entryTexts style level rest

end

def compact (value : Value) : String :=
  String.ofList (text .compact 0 value)

def pretty (value : Value) : String :=
  String.ofList (text .pretty 0 value)

end HclToJson.Json
