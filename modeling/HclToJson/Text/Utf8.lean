import HclToJson.Bytes

/-!
UTF-8: the bytes of a text, and a reader for any bytes. The reader takes one byte at a time and puts
U+FFFD in the place of each longest start of a character that the bytes after it do not complete.
-/

namespace HclToJson.Text

def encode (text : String) : Bytes :=
  text.toList.flatMap String.utf8EncodeChar

/-- What is written for bytes that form no character. -/
def replacement : Char := '\uFFFD'

inductive Reading
  /-- Between characters. -/
  | ready
  /-- Inside of a character: `owed + 1` bytes are missing, the next one lies between `low` and
  `high`, and the bytes so far are worth `value`. -/
  | inside (owed : Nat) (low high : UInt8) (value : Nat)
  deriving DecidableEq

namespace Reading

def first (b : UInt8) : Reading × List Char :=
  if b ≤ 0x7F then (ready, [Char.ofNat b.toNat])
  else if b < 0xC2 then (ready, [replacement])
  else if b ≤ 0xDF then (inside 0 0x80 0xBF (b.toNat - 0xC0), [])
  else if b = 0xE0 then (inside 1 0xA0 0xBF 0, [])
  else if b = 0xED then (inside 1 0x80 0x9F 0xD, [])
  else if b ≤ 0xEF then (inside 1 0x80 0xBF (b.toNat - 0xE0), [])
  else if b = 0xF0 then (inside 2 0x90 0xBF 0, [])
  else if b ≤ 0xF3 then (inside 2 0x80 0xBF (b.toNat - 0xF0), [])
  else if b = 0xF4 then (inside 2 0x80 0x8F 4, [])
  else (ready, [replacement])

def next : Reading → UInt8 → Reading × List Char
  | ready, b => first b
  | inside owed low high value, b =>
      if low ≤ b ∧ b ≤ high then
        let value := value * 64 + (b.toNat - 0x80)
        match owed with
        | 0 => (ready, [Char.ofNat value])
        | owed + 1 => (inside owed 0x80 0xBF value, [])
      else
        let (reading, chars) := first b
        (reading, replacement :: chars)

def finish : Reading → List Char
  | ready => []
  | inside .. => [replacement]

def run : Reading → Bytes → List Char
  | reading, [] => reading.finish
  | reading, b :: rest => (reading.next b).2 ++ run (reading.next b).1 rest

end Reading

def decode (bytes : Bytes) : List Char :=
  Reading.run .ready bytes

def ofBytes (bytes : Bytes) : String :=
  String.ofList (decode bytes)

end HclToJson.Text
