import HclToJson.Grammar.Blank
import HclToJson.Number
import HclToJson.Text.Identifier

namespace HclToJson.Grammar

def ident : Parser String := do
  let n := Text.identLength (← Parser.ahead)
  Parser.require (0 < n)
  return Text.ofBytes (← Parser.take n)

def digits : Parser (List Char) := do
  let n := ((← Parser.ahead).takeWhile Byte.isDigit).length
  Parser.require (0 < n)
  return Text.decode (← Parser.take n)

def fraction : Parser (List Char) := do
  Parser.byte Byte.dot
  digits

/-- Reads the exponent of a float, if there is one. An `e` without digits is an error. -/
def exponent : Parser (Option Int) := do
  let text ← Parser.ahead
  if text.head? = some 0x65 ∨ text.head? = some 0x45 then
    discard (Parser.take 1)
    let negative ← Parser.flag Byte.minus
    if !negative then discard (Parser.flag Byte.plus)
    let size : Int := Decimal.readNat (← digits)
    return some (if negative then -size else size)
  else return none

/-- Reads a number with a point or an exponent that is in the range of floats. -/
def float : Parser Number := do
  let whole ← digits
  let fraction ← Parser.optional fraction
  let exponent ← exponent
  Parser.require (fraction.isSome || exponent.isSome)
  let value := (Decimal.ofParts whole (fraction.getD []) (exponent.getD 0)).toFloat
  Parser.require value.isFinite
  return .ofFloat value

def integer : Parser Nat := do
  let value := Decimal.readNat (← digits)
  Parser.require (value < 0x1_0000_0000_0000_0000)
  return value

def integerNumber : Parser Number := do
  return .ofInt (← integer)

/-- Whether a text starts with a number whose exponent has no digits, which is an error. -/
def brokenExponent : Parser Bool := do
  let cursor ← get
  discard digits
  discard (Parser.optional fraction)
  let broken := (← Parser.optional exponent).isNone
  set cursor
  return broken

def unsigned : Parser Number := do
  if ← brokenExponent then Parser.wrong
  else Parser.either float integerNumber

def number : Parser Number := do
  if ← Parser.flag Byte.minus then
    blank
    return -(← unsigned)
  else unsigned

def hexValue? (digits : Bytes) : Option Nat :=
  digits.foldl (fun value b => do return (← value) * 16 + (← Byte.hexDigit? b)) (some 0)

def codePoint? (n : Nat) : Option Char :=
  if n.isValidChar then some (Char.ofNat n) else none

/-- The length of the escape at the start of a text, and the character it stands for. -/
def escape? : Bytes → Option (Nat × Char)
  | Byte.backslash :: b :: rest =>
      if b = Byte.quote then some (2, '"')
      else if b = Byte.backslash then some (2, '\\')
      else if b = Byte.slash then some (2, '/')
      else if b = 0x62 then some (2, '\x08')
      else if b = 0x66 then some (2, '\x0c')
      else if b = 0x6E then some (2, '\n')
      else if b = 0x72 then some (2, '\r')
      else if b = 0x74 then some (2, '\t')
      else if b = 0x75 ∧ 4 ≤ rest.length then
        ((hexValue? (rest.take 4)).bind codePoint?).map ((6, ·))
      else if b = 0x55 ∧ 8 ≤ rest.length then
        ((hexValue? (rest.take 8)).bind codePoint?).map ((10, ·))
      else none
  | _ => none

def opensMarker : Bytes → Bool
  | b :: Byte.openBrace :: _ => b = Byte.dollar || b = Byte.percent
  | _ => false

/-- The opening of a marker that is written with a doubled first byte, and so stands for itself. -/
def doubledMarker? : Bytes → Option Bytes
  | b :: c :: rest =>
      if b = c ∧ opensMarker (c :: rest) then some [c, Byte.openBrace] else none
  | _ => none

def escapesAscii : Bytes → Bool
  | _ :: b :: _ => b < 0x80
  | _ => false

/-- The length of the literal run of a quoted string at the start of a text, and the bytes it stands
for; none if there is no such run. A sequence that is no escape is an error at the start of a run;
later on it ends the run, its first two bytes are passed over and stand for nothing. Passing over a
part of a character is an error. The run has at most one piece for each byte of `fuel`. -/
def quotedRun? : Bool → Bytes → Bytes → Option (Nat × Bytes)
  | started, [], _ => if started then some (0, []) else none
  | started, _ :: fuel, text =>
      let more (n : Nat) (value : Bytes) : Option (Nat × Bytes) := do
        let (length, rest) ← quotedRun? true fuel (text.drop n)
        return (n + length, value ++ rest)
      let finish : Option (Nat × Bytes) := if started then some (0, []) else none
      match text, doubledMarker? text with
      | _, some marker => more 3 marker
      | [], none => finish
      | b :: _, none =>
          if b = Byte.quote ∨ opensMarker text then finish
          else if b = Byte.backslash then
            match escape? text with
            | some (n, c) => more n (String.utf8EncodeChar c)
            | none => if started && escapesAscii text then some (2, []) else none
          else more 1 [b]

/-- The length of the raw run at the start of a text, up to a marker or to where `stops` holds, and
the bytes it stands for. The run has at most one piece for each byte of `fuel`. -/
def rawRun (stops : Bytes → Bool) : Bytes → Bytes → Nat × Bytes
  | [], _ => (0, [])
  | _ :: fuel, text =>
      let more (n : Nat) (value : Bytes) : Nat × Bytes :=
        let (length, rest) := rawRun stops fuel (text.drop n)
        (n + length, value ++ rest)
      if stops text then (0, [])
      else
        match text, doubledMarker? text with
        | _, some marker => more 3 marker
        | [], none => (0, [])
        | b :: _, none => if opensMarker text then (0, []) else more 1 [b]

def quotedText : Parser String := do
  let text ← Parser.ahead
  match quotedRun? false text text with
  | some (n, value) =>
      discard (Parser.take n)
      return Text.ofBytes value
  | none => Parser.miss

def rawText (stops : Bytes → Bool) : Parser String := do
  let text ← Parser.ahead
  let (n, value) := rawRun stops text text
  Parser.require (0 < n)
  discard (Parser.take n)
  return Text.ofBytes value

def plainString : Parser String := do
  Parser.byte Byte.quote
  let text ← Parser.optional quotedText
  Parser.byte Byte.quote
  return text.getD ""

end HclToJson.Grammar
