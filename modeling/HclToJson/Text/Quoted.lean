namespace HclToJson.Text

/-- What is written for a character between quotes: a short escape if there is one, a `\u` escape
with the given digits for the characters that need one, and all other characters as they are. -/
def escapeChar (hexDigit : Nat → Char) (needsEscape : Char → Bool) (c : Char) : List Char :=
  if c = '"' then ['\\', '"']
  else if c = '\\' then ['\\', '\\']
  else if c = '\n' then ['\\', 'n']
  else if c = '\r' then ['\\', 'r']
  else if c = '\t' then ['\\', 't']
  else if c = '\x08' then ['\\', 'b']
  else if c = '\x0c' then ['\\', 'f']
  else if needsEscape c then
    ['\\', 'u', '0', '0', hexDigit (c.toNat / 16), hexDigit (c.toNat % 16)]
  else [c]

def isControl (c : Char) : Bool := c.toNat < 0x20

/-- A character with lower case digits in its escape; DEL has none. -/
def escapeLower : Char → List Char :=
  escapeChar Nat.digitChar isControl

def upperHexDigit (n : Nat) : Char :=
  if n < 10 then Char.ofNat (n + '0'.toNat) else Char.ofNat (n - 10 + 'A'.toNat)

def escapeUpper : Char → List Char :=
  escapeChar upperHexDigit fun c => isControl c || c = '\x7f'

def startsMarker (c : Char) : Bool := c = '$' || c = '%'

/-- A text with the openings of interpolations and directives in it doubled. After a dollar or
percent sign the next character is passed over: it opens nothing. -/
def doubleMarkersIn : List Char → List Char
  | c :: d :: rest =>
      if startsMarker c then
        if d = '\x7b' then c :: c :: d :: doubleMarkersIn rest
        else c :: d :: doubleMarkersIn rest
      else c :: doubleMarkersIn (d :: rest)
  | text => text

def doubleMarkers : List Char → List Char
  | c :: d :: rest =>
      if startsMarker c ∧ d = '\x7b' then doubleMarkersIn (c :: d :: rest)
      else c :: doubleMarkers (d :: rest)
  | text => text

end HclToJson.Text
