import HclToJson.Value
import HclToJson.Yaml.Scalar

namespace HclToJson.Yaml

def floatFormat : FloatFormat where
  exponentPlus := []
  nan := ".nan".toList
  infinity := ".inf".toList
  negativeInfinity := "-.inf".toList

/-- Pieces on lines of their own at an indent. A piece may end its last line itself. -/
def joinLines (indent : Nat) : List (List Char) → List Char
  | [] => []
  | [piece] => piece
  | piece :: rest =>
      piece ++ (if piece.getLast? = some '\n' then [] else ['\n']) ++ spaces indent ++
        joinLines indent rest

/-- A key on one line is written before a colon; it has at most 128 bytes. -/
def isSimpleKey (key : String) : Bool :=
  key.utf8ByteSize ≤ 128 && !key.toList.any isBreak

/-- An entry whose key is not simple, with the text of its value. -/
def explicitEntry (indent : Nat) (key : String) (value : List Char) : List Char :=
  joinLines indent ['?' :: ' ' :: stringText (indent + 2) key.toList, ':' :: ' ' :: value]

def isInline : Value → Bool
  | .array items => items.isEmpty
  | .object entries => entries.isEmpty
  | _ => true

mutual

def text (indent : Nat) : Value → List Char
  | .null => "null".toList
  | .boolean value => (if value then "true" else "false").toList
  | .integer value => Decimal.intText value.toInt
  | .decimal value => Decimal.floatText floatFormat value
  | .string value => stringText indent value.toList
  | .array [] => ['[', ']']
  | .array items => joinLines indent (itemTexts indent items)
  | .object [] => ['\x7b', '\x7d']
  | .object entries => joinLines indent (entryTexts indent entries)

def itemTexts (indent : Nat) : List Value → List (List Char)
  | [] => []
  | item :: rest => ('-' :: ' ' :: text (indent + 2) item) :: itemTexts indent rest

def entryTexts (indent : Nat) : List (String × Value) → List (List Char)
  | [] => []
  | (key, value) :: rest =>
      (if isSimpleKey key then
        stringText (indent + 2) key.toList ++ ':' ::
          (if isInline value then ' ' :: text (indent + 2) value
          else
            match value with
            | .array items => '\n' :: spaces indent ++ joinLines indent (itemTexts indent items)
            | value => '\n' :: spaces (indent + 2) ++ text (indent + 2) value)
      else explicitEntry indent key (text (indent + 2) value)) :: entryTexts indent rest

end

def print (value : Value) : String :=
  let text := text 0 value
  String.ofList (if text.getLast? = some '\n' then text else text ++ ['\n'])

end HclToJson.Yaml
