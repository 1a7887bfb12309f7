import HclToJson.Static

/-!
Reading JSON text. Integers that are numbers of the configuration language are read exactly, all
other numbers as floats; of a repeated key the last value counts. A text whose brackets are nested too
deep is refused, so that reading needs a bounded stack.
-/

namespace HclToJson.Json

def skipBlank (text : List Char) : List Char :=
  text.dropWhile fun c => c = ' ' || c = '\n' || c = '\r' || c = '\t'

def hexDigit? (c : Char) : Option Nat :=
  if '0' ≤ c ∧ c ≤ '9' then some (c.toNat - '0'.toNat)
  else if 'a' ≤ c ∧ c ≤ 'f' then some (c.toNat - 'a'.toNat + 10)
  else if 'A' ≤ c ∧ c ≤ 'F' then some (c.toNat - 'A'.toNat + 10)
  else none

def readHex : List Char → Option (Nat × List Char)
  | a :: b :: c :: d :: rest => do
      let a ← hexDigit? a
      let b ← hexDigit? b
      let c ← hexDigit? c
      let d ← hexDigit? d
      return (((a * 16 + b) * 16 + c) * 16 + d, rest)
  | _ => none

/-- The character of a `\u` escape, which may be the first half of a pair of surrogates. -/
def readUnicode (text : List Char) : Option (Char × List Char) := do
  let (unit, rest) ← readHex text
  if 0xD800 ≤ unit ∧ unit < 0xDC00 then
    match rest with
    | '\\' :: 'u' :: rest =>
        let (low, rest) ← readHex rest
        if 0xDC00 ≤ low ∧ low < 0xE000 then
          return (Char.ofNat (0x10000 + (unit - 0xD800) * 0x400 + (low - 0xDC00)), rest)
        else none
    | _ => none
  else if 0xDC00 ≤ unit ∧ unit < 0xE000 then none
  else return (Char.ofNat unit, rest)

def readEscape : List Char → Option (Char × List Char)
  | '"' :: rest => some ('"', rest)
  | '\\' :: rest => some ('\\', rest)
  | '/' :: rest => some ('/', rest)
  | 'b' :: rest => some ('\x08', rest)
  | 'f' :: rest => some ('\x0c', rest)
  | 'n' :: rest => some ('\n', rest)
  | 'r' :: rest => some ('\r', rest)
  | 't' :: rest => some ('\t', rest)
  | 'u' :: rest => readUnicode rest
  | _ => none

/-- The characters of a string up to its closing quote, and what follows it. The string has at most
`fuel` characters. -/
def readString : Nat → List Char → Option (List Char × List Char)
  | 0, _ => none
  | _ + 1, [] => none
  | fuel + 1, c :: rest =>
      if c = '"' then some ([], rest)
      else if c = '\\' then do
        let (d, rest) ← readEscape rest
        let (more, rest) ← readString fuel rest
        return (d :: more, rest)
      else if c.toNat < 0x20 then none
      else do
        let (more, rest) ← readString fuel rest
        return (c :: more, rest)

def readExponent (text : List Char) : Option (Option Int × List Char) :=
  match text with
  | c :: rest =>
      if c = 'e' ∨ c = 'E' then
        let negative := rest.head? = some '-'
        let rest := if rest.head? = some '-' ∨ rest.head? = some '+' then rest.drop 1 else rest
        let digits := rest.takeWhile Char.isDigit
        if digits.isEmpty then none
        else
          let size : Int := Decimal.readNat digits
          some (some (if negative then -size else size), rest.dropWhile Char.isDigit)
      else some (none, text)
  | [] => some (none, text)

def readNumber (text : List Char) : Option (Number × List Char) := do
  let negative := text.head? = some '-'
  let text := if negative then text.drop 1 else text
  let whole := text.takeWhile Char.isDigit
  if whole.isEmpty ∨ whole.head? = some '0' ∧ 1 < whole.length then none
  let text := text.dropWhile Char.isDigit
  let (fraction, text) ←
    match text with
    | '.' :: rest =>
        let digits := rest.takeWhile Char.isDigit
        if digits.isEmpty then none else some (some digits, rest.dropWhile Char.isDigit)
    | _ => some (none, text)
  let (exponent, text) ← readExponent text
  let size := (Decimal.ofParts whole (fraction.getD []) (exponent.getD 0)).toFloat
  let float := Number.ofFloat (if negative then -size else size)
  if fraction.isNone ∧ exponent.isNone then
    let int : Int := if negative then -(Decimal.readNat whole : Int) else Decimal.readNat whole
    return (if fits : FitsNumber int then .int int fits else float, text)
  else return (float, text)

mutual

/-- A value and what follows it, with its brackets nested less than `room` deep. Each nesting level
and each element uses up one unit of `fuel`. -/
def readValue : Nat → Nat → List Char → Option (Static × List Char)
  | 0, _, _ => none
  | fuel + 1, room, text =>
      match skipBlank text with
      | 'n' :: 'u' :: 'l' :: 'l' :: rest => some (.null, rest)
      | 't' :: 'r' :: 'u' :: 'e' :: rest => some (.bool true, rest)
      | 'f' :: 'a' :: 'l' :: 's' :: 'e' :: rest => some (.bool false, rest)
      | '"' :: rest => do
          let (chars, rest) ← readString (rest.length + 1) rest
          return (.string (String.ofList chars), rest)
      | '[' :: rest =>
          if room ≤ 1 then none
          else
            match skipBlank rest with
            | ']' :: rest => some (.array [], rest)
            | rest => do
                let (items, rest) ← readItems fuel (room - 1) rest
                return (.array items, rest)
      | '\x7b' :: rest =>
          if room ≤ 1 then none
          else
            match skipBlank rest with
            | '\x7d' :: rest => some (.object [], rest)
            | rest => do
                let (members, rest) ← readMembers fuel (room - 1) rest
                return (.object (Entries.ofList members), rest)
      | rest => do
          let (number, rest) ← readNumber rest
          return (.number number, rest)

def readItems : Nat → Nat → List Char → Option (List Static × List Char)
  | 0, _, _ => none
  | fuel + 1, room, text => do
      let (item, rest) ← readValue fuel room text
      match skipBlank rest with
      | ',' :: rest =>
          let (items, rest) ← readItems fuel room rest
          return (item :: items, rest)
      | ']' :: rest => return ([item], rest)
      | _ => none

def readMembers : Nat → Nat → List Char → Option (List (String × Static) × List Char)
  | 0, _, _ => none
  | fuel + 1, room, text =>
      match skipBlank text with
      | '"' :: rest => do
          let (key, rest) ← readString (rest.length + 1) rest
          match skipBlank rest with
          | ':' :: rest =>
              let (value, rest) ← readValue fuel room rest
              match skipBlank rest with
              | ',' :: rest =>
                  let (members, rest) ← readMembers fuel room rest
                  return ((String.ofList key, value) :: members, rest)
              | '\x7d' :: rest => return ([(String.ofList key, value)], rest)
              | _ => none
          | _ => none
      | _ => none

end

def readWithin? (room : Nat) (text : String) : Option Static :=
  match readValue (text.toList.length + 1) room text.toList with
  | some (value, rest) => if (skipBlank rest).isEmpty then some value else none
  | none => none

/-- The nesting at which a text is refused. -/
def nestingLimit : Nat := 128

def read? (text : String) : Option Static :=
  readWithin? nestingLimit text

end HclToJson.Json
