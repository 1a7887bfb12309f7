import HclToJson.Bytes

/-!
Identifiers. Each byte is taken as the character of the same number, so of the Unicode properties
`XID_Start` and `XID_Continue` only the first 256 code points matter.
-/

namespace HclToJson.Text

/-- A byte that an identifier may start with: `XID_Start` or an underscore. -/
def isIdentStart (b : UInt8) : Bool :=
  (0x41 ≤ b && b ≤ 0x5A) || (0x61 ≤ b && b ≤ 0x7A) || b == 0x5F || b == 0xAA || b == 0xB5 ||
    b == 0xBA || (0xC0 ≤ b && b ≤ 0xD6) || (0xD8 ≤ b && b ≤ 0xF6) || 0xF8 ≤ b

/-- A byte that an identifier may go on with: `XID_Continue` or a hyphen. -/
def isIdentContinue (b : UInt8) : Bool :=
  isIdentStart b || Byte.isDigit b || b == Byte.minus || b == 0xB7

def identLength : Bytes → Nat
  | [] => 0
  | b :: rest => if isIdentStart b then 1 + (rest.takeWhile isIdentContinue).length else 0

end HclToJson.Text
