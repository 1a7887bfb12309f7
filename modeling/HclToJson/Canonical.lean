import HclToJson.Spelling
import HclToJson.Static

namespace HclToJson

def UnaryOp.text : UnaryOp → String
  | .neg => "-"
  | .not => "!"

def BinaryOp.text : BinaryOp → String
  | .eq => "=="
  | .ne => "!="
  | .less => "<"
  | .lessEq => "<="
  | .greater => ">"
  | .greaterEq => ">="
  | .add => "+"
  | .sub => "-"
  | .mul => "*"
  | .div => "/"
  | .mod => "%"
  | .and => "&&"
  | .or => "||"

namespace Canonical

def newline (level : Nat) : List Char := '\n' :: List.replicate (2 * level) ' '

/-- Writes a text; the state tells whether a container has been opened that no element was written
in since. -/
abbrev Writer := StateM Bool

def elementStart (level : Nat) : Writer (List Char) := do
  let opened ← get
  set false
  return (if opened then [] else [',']) ++ newline level

def entryStart (level : Nat) : Writer (List Char) := do
  set false
  return newline level

def enclose (level : Nat) (opening closing : Char) (elements : Writer (List Char)) :
    Writer (List Char) := do
  set true
  let elements ← elements
  return opening :: elements ++ (if elements.isEmpty then [] else newline level) ++ [closing]

def quoted (text : String) : List Char :=
  '"' :: (Text.doubleMarkers text.toList).flatMap Text.escapeLower ++ ['"']

/-- Whether a text holds an interpolation or a directive: the opening of one that is not doubled,
with something behind it. -/
def hasMarker : List Char → Bool
  | c :: d :: e :: rest =>
      if c = d ∧ (c = '$' ∨ c = '%') ∧ e = '\x7b' then hasMarker (e :: rest)
      else if (c = '$' ∨ c = '%') ∧ d = '\x7b' then true
      else hasMarker (d :: e :: rest)
  | _ => false

/-- A string value: quoted, but not escaped if it reads like a template. -/
def stringText (text : String) : List Char :=
  if hasMarker text.toList then '"' :: text.toList ++ ['"'] else quoted text

mutual

def valueText (level : Nat) : Static → Writer (List Char)
  | .null => return "null".toList
  | .bool value => return (if value then "true" else "false").toList
  | .number value => return value.text.toList
  | .string value => return stringText value
  | .array items => enclose level '[' ']' (itemTexts (level + 1) items)
  | .object entries => enclose level '\x7b' '\x7d' (entryTexts (level + 1) entries)
  termination_by structural value => value

def itemTexts (level : Nat) : List Static → Writer (List Char)
  | [] => return []
  | item :: rest => do
      let start ← elementStart level
      let text ← valueText level item
      return start ++ text ++ (← itemTexts level rest)
  termination_by structural items => items

def entryTexts (level : Nat) : List (String × Static) → Writer (List Char)
  | [] => return []
  | (key, value) :: rest => do
      let start ← entryStart level
      let text ← valueText level value
      return start ++ quoted key ++ " = ".toList ++ text ++ (← entryTexts level rest)
  termination_by structural entries => entries

end

def value (v : Static) : String := String.ofList ((valueText 0 v).run false).1

def loopText (loop : Loop) : List Char :=
  (match loop.key with
    | some key => (key ++ ", ").toList
    | none => []) ++ loop.value.toList

def asWritten (template : Expr) : List Char :=
  Text.decode (Spelling.exprText (template.between [] []))

mutual

def exprText (level : Nat) : Expr → Writer (List Char)
  | .null _ => return "null".toList
  | .bool _ value => return (if value then "true" else "false").toList
  | .number _ value => return value.text.toList
  | .string _ value => return quoted value
  | .var _ name => return name.toList
  | .array _ items => enclose level '[' ']' (elementTexts (level + 1) items)
  | .object _ items => enclose level '\x7b' '\x7d' (objectTexts (level + 1) items)
  | .template layout parts => return asWritten (.template layout parts)
  | .heredoc layout indented parts => return asWritten (.heredoc layout indented parts)
  | .paren _ inner => do return '(' :: (← exprText level inner) ++ [')']
  | .conditional _ condition yes no => do
      let condition ← exprText level condition
      let yes ← exprText level yes
      let no ← exprText level no
      return condition ++ " ? ".toList ++ yes ++ " : ".toList ++ no
  | .call _ name arguments spread => do
      let arguments ← exprTexts level arguments
      return name.toList ++ '(' :: [',', ' '].intercalate arguments ++
        (if spread then "...)" else ")").toList
  | .traversal _ base path => do
      let base ← exprText level base
      return base ++ (← pathText level path)
  | .unary _ op operand => do return op.text.toList ++ (← exprText level operand)
  | .binary _ op left right => do
      let left ← exprText level left
      let right ← exprText level right
      return left ++ ' ' :: op.text.toList ++ ' ' :: right
  | .comprehension _ loop collection key value grouping filter => do
      let collection ← exprText level collection
      let head := "for ".toList ++ loopText loop ++ " in ".toList ++ collection ++ " : ".toList
      let keyText ← optionalText level key
      let value ← exprText level value
      let filter ← filterText level filter
      let tail := value ++ (if grouping then "..." else "").toList ++ filter
      return if key.isSome then '\x7b' :: head ++ keyText ++ " => ".toList ++ tail ++ ['\x7d']
        else '[' :: head ++ tail ++ [']']
  termination_by structural e => e

def optionalText (level : Nat) : Option Expr → Writer (List Char)
  | none => return []
  | some e => exprText level e
  termination_by structural e => e

def filterText (level : Nat) : Option Expr → Writer (List Char)
  | none => return []
  | some filter => do return " if ".toList ++ (← exprText level filter)
  termination_by structural filter => filter

def exprTexts (level : Nat) : List Expr → Writer (List (List Char))
  | [] => return []
  | e :: rest => do
      let text ← exprText level e
      return text :: (← exprTexts level rest)
  termination_by structural items => items

def elementTexts (level : Nat) : List Expr → Writer (List Char)
  | [] => return []
  | e :: rest => do
      let start ← elementStart level
      let text ← exprText level e
      return start ++ text ++ (← elementTexts level rest)
  termination_by structural items => items

def keyText (level : Nat) : Key → Writer (List Char)
  | .ident name => return name.toList
  | .expr key => exprText level key
  termination_by structural key => key

def objectTexts (level : Nat) : List Item → Writer (List Char)
  | [] => return []
  | .mk _ key value :: rest => do
      let start ← entryStart level
      let key ← keyText level key
      let value ← exprText level value
      return start ++ key ++ " = ".toList ++ value ++ (← objectTexts level rest)
  termination_by structural items => items

def pathText (level : Nat) : List Step → Writer (List Char)
  | [] => return []
  | .attribute _ name :: rest => do return '.' :: name.toList ++ (← pathText level rest)
  | .element _ index :: rest => do
      return '.' :: Decimal.natText index ++ (← pathText level rest)
  | .index _ key :: rest => do
      let key ← exprText level key
      return '[' :: key ++ ']' :: (← pathText level rest)
  | .attributeSplat _ :: rest => do return '.' :: '*' :: (← pathText level rest)
  | .fullSplat _ :: rest => do return '[' :: '*' :: ']' :: (← pathText level rest)
  termination_by structural path => path

end

def expr (e : Expr) : String := String.ofList ((exprText 0 e).run false).1

end Canonical

end HclToJson
