import HclToJson.Decimal.Reading
import HclToJson.Decimal.Text
import HclToJson.Text.Quoted

/-!
Strings in YAML. A string is written plain where that reads back as the same string, in single
quotes where a plain one would be ambiguous, as a literal block if it has lines, and in double
quotes where only these can hold it.
-/

namespace HclToJson.Yaml

def isBreak (c : Char) : Bool :=
  c = '\n' || c = '\r' || c = '\x85' || c = '\u2028' || c = '\u2029'

def isGap : Option Char → Bool
  | none => true
  | some c => c = ' ' || c = '\t' || c = '\x00' || isBreak c

def isPrintable (c : Char) : Bool :=
  let n := c.toNat
  n = 0x0A || (0x20 ≤ n && n ≤ 0x7E) || (0xA0 ≤ n && n ≤ 0xFFFD && n ≠ 0xFEFF) || 0x10000 ≤ n

/-- The digits of a number in a base, as many as 128 bits hold. -/
def isRadixNumber (base limit : Nat) (text : List Char) : Bool :=
  let digit? (c : Char) : Option Nat :=
    let n := c.toLower.toNat
    let value := if c.isDigit then n - '0'.toNat else n - 'a'.toNat + 10
    if c.isAlphanum && value < base then some value else none
  match text.foldl (fun n c => do return (← n) * base + (← digit? c)) (some 0) with
  | some n => !text.isEmpty && n ≤ limit
  | none => false

def isRadixInteger (text : List Char) : Bool :=
  let digits (limit : Nat) : List Char → Bool
    | '0' :: 'x' :: rest => isRadixNumber 16 limit rest
    | '0' :: 'o' :: rest => isRadixNumber 8 limit rest
    | '0' :: 'b' :: rest => isRadixNumber 2 limit rest
    | _ => false
  match text with
  | '-' :: rest => digits (Nat.pow 2 127) rest
  | '+' :: rest => digits (Nat.pow 2 128 - 1) rest
  | rest => digits (Nat.pow 2 128 - 1) rest

def dropSign (text : List Char) : List Char :=
  match text with
  | '-' :: rest | '+' :: rest => rest
  | rest => rest

/-- A decimal number, with or without point and exponent, in the range of floats. -/
def isDecimalNumber (text : List Char) : Bool :=
  let text := dropSign text
  let whole := text.takeWhile Char.isDigit
  let text := text.dropWhile Char.isDigit
  let (fraction, text) :=
    match text with
    | '.' :: rest => (rest.takeWhile Char.isDigit, rest.dropWhile Char.isDigit)
    | rest => ([], rest)
  let finite (exponent : Int) : Bool := (Decimal.ofParts whole fraction exponent).toFloat.isFinite
  if whole.isEmpty && fraction.isEmpty then false
  else
    match text with
    | [] => finite 0
    | mark :: rest =>
        let digits := dropSign rest
        let size : Int := Decimal.readNat digits
        (mark = 'e' || mark = 'E') && !digits.isEmpty && digits.all Char.isDigit &&
          finite (if rest.head? = some '-' then -size else size)

def isZeroPadded (text : List Char) : Bool :=
  match dropSign text with
  | '0' :: rest => !rest.isEmpty && rest.all Char.isDigit
  | _ => false

def reservedWords : List String :=
  ["null", "Null", "NULL", "~", "true", "True", "TRUE", "false", "False", "FALSE", ".inf", ".Inf",
    ".INF", "+.inf", "+.Inf", "+.INF", "-.inf", "-.Inf", "-.INF", ".nan", ".NaN", ".NAN"]

/-- Whether a plain text reads as something else than a string. -/
def isAmbiguous (text : List Char) : Bool :=
  text.isEmpty || reservedWords.contains (String.ofList text) || isRadixInteger text ||
    isDecimalNumber text || isZeroPadded text

def hasPair (first second : Char → Bool) : List Char → Bool
  | c :: d :: rest => (first c && second d) || hasPair first second (d :: rest)
  | _ => false

def hasLaterIndicator : List Char → Bool
  | c :: d :: rest =>
      (d = ':' && isGap rest.head?) || (d = '#' && isGap (some c)) || hasLaterIndicator (d :: rest)
  | _ => false

/-- Whether a text has a mark that gives a plain scalar another meaning. -/
def hasIndicator (text : List Char) : Bool :=
  match text with
  | [] => false
  | c :: rest =>
      "---".toList.isPrefixOf text || "...".toList.isPrefixOf text ||
        "#,[]\x7b\x7d&*!|>'\"%@`".toList.contains c ||
        ((c = '?' || c = ':' || c = '-') && isGap rest.head?) || hasLaterIndicator text

inductive Style
  | plain
  | single
  | double
  | literal
  deriving DecidableEq

def hasSpecial (text : List Char) : Bool := text.any (!isPrintable ·)

def hasSpaceBreak (text : List Char) : Bool := hasPair (· = ' ') isBreak text

def allowsPlain (text : List Char) : Bool :=
  !(hasSpecial text || text.any isBreak || hasIndicator text || text.head? = some ' ' ||
    text.getLast? = some ' ')

def allowsSingle (text : List Char) : Bool :=
  !(hasSpecial text || hasSpaceBreak text || hasPair isBreak (· = ' ') text)

def allowsLiteral (text : List Char) : Bool :=
  !(hasSpecial text || hasSpaceBreak text || text.getLast? = some ' ')

def styleOf (text : List Char) : Style :=
  if text.contains '\n' then if allowsLiteral text then .literal else .double
  else if !isAmbiguous text && allowsPlain text then .plain
  else if allowsSingle text then .single
  else .double

def hexDigits : Nat → Nat → List Char
  | 0, _ => []
  | count + 1, n => hexDigits count (n / 16) ++ [Text.upperHexDigit (n % 16)]

def escapeChar (c : Char) : List Char :=
  if isPrintable c ∧ !isBreak c ∧ c ≠ '"' ∧ c ≠ '\\' then [c]
  else
    '\\' ::
      match c with
      | '\x00' => ['0']
      | '\x07' => ['a']
      | '\x08' => ['b']
      | '\t' => ['t']
      | '\n' => ['n']
      | '\x0b' => ['v']
      | '\x0c' => ['f']
      | '\r' => ['r']
      | '\x1b' => ['e']
      | '"' => ['"']
      | '\\' => ['\\']
      | '\x85' => ['N']
      | '\u2028' => ['L']
      | '\u2029' => ['P']
      | c => if c.toNat ≤ 0xFF then 'x' :: hexDigits 2 c.toNat else 'u' :: hexDigits 4 c.toNat

def spaces (count : Nat) : List Char := List.replicate count ' '

/-- The characters between single quotes, where a line goes on behind an indent. -/
def singleQuoted (indent : Nat) : Bool → List Char → List Char
  | _, [] => []
  | afterBreak, c :: rest =>
      if isBreak c then c :: singleQuoted indent true rest
      else
        (if afterBreak then spaces indent else []) ++ (if c = '\'' then ['\'', '\''] else [c]) ++
          singleQuoted indent false rest

def literalLines (indent : Nat) : Bool → List Char → List Char
  | _, [] => []
  | lineStart, c :: rest =>
      if isBreak c then c :: literalLines indent true rest
      else (if lineStart then spaces indent else []) ++ c :: literalLines indent false rest

/-- The mark of a literal block: an indent if the text does not show it, and what becomes of the
line breaks at its end. -/
def literalMark (text : List Char) : List Char :=
  let hint := if (text.head?.map fun c => c = ' ' || isBreak c) = some true then ['2'] else []
  let chomp :=
    match text.reverse with
    | [] => ['-']
    | c :: before =>
        if !isBreak c then ['-']
        else
          match before with
          | [] => ['+']
          | d :: _ => if isBreak d then ['+'] else []
  '|' :: hint ++ chomp

def stringText (indent : Nat) (text : List Char) : List Char :=
  match styleOf text with
  | .plain => text
  | .single => '\'' :: singleQuoted indent false text ++ ['\'']
  | .double => '"' :: text.flatMap escapeChar ++ ['"']
  | .literal => literalMark text ++ '\n' :: literalLines indent true text

end HclToJson.Yaml
