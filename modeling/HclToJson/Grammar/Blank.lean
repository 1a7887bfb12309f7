import HclToJson.Grammar.Parser

namespace HclToJson.Grammar

def newlineLength : Bytes → Nat
  | Byte.newline :: _ => 1
  | Byte.carriageReturn :: Byte.newline :: _ => 2
  | _ => 0

def closeLength? : Bytes → Option Nat
  | Byte.star :: Byte.slash :: _ => some 2
  | _ :: rest => (closeLength? rest).map (· + 1)
  | [] => none

/-- The length of a text up to its line end. A carriage return that ends no line is an error. -/
def lineLength? : Bytes → Option Nat
  | [] => some 0
  | b :: rest =>
      if 0 < newlineLength (b :: rest) then some 0
      else if b = Byte.carriageReturn then none
      else (lineLength? rest).map (· + 1)

def blockCommentLength? : Bytes → Option Nat
  | Byte.slash :: Byte.star :: rest => (closeLength? rest).map (· + 2)
  | _ => none

def lineCommentLength? : Bytes → Option Nat
  | Byte.hash :: rest => (lineLength? rest).map (· + 1)
  | Byte.slash :: Byte.slash :: rest => (lineLength? rest).map (· + 2)
  | _ => none

/-- The length of one blank or comment at the start of a text, zero if there is none; line ends and
line comments count if `newlines` is set. -/
def blankPiece (newlines : Bool) (text : Bytes) : Nat :=
  match text with
  | [] => 0
  | b :: _ =>
      if b = Byte.space ∨ b = Byte.tab then 1
      else if newlines ∧ (b = Byte.newline ∨ b = Byte.carriageReturn) then 1
      else
        match blockCommentLength? text with
        | some n => n
        | none => if newlines then (lineCommentLength? text).getD 0 else 0

/-- The length of the blanks and comments at the start of a text, at most one for each byte of
`fuel`. -/
def blankLength (newlines : Bool) : Bytes → Bytes → Nat
  | [], _ => 0
  | _ :: fuel, text =>
      match blankPiece newlines text with
      | 0 => 0
      | n => n + blankLength newlines fuel (text.drop n)

def separator (newlines : Bool) : Parser Unit := do
  let text ← Parser.ahead
  discard (Parser.take (blankLength newlines text text))

def blank : Parser Unit := separator false

def blankLines : Parser Unit := separator true

/-- The byte behind blanks, comments and line ends, which are left. -/
def nextToken : Parser (Option UInt8) := do
  let cursor ← get
  blankLines
  let next := (← Parser.ahead).head?
  set cursor
  return next

def newline : Parser Unit := do
  let n := newlineLength (← Parser.ahead)
  Parser.require (0 < n)
  discard (Parser.take n)

def lineComment : Parser Unit := do
  match lineCommentLength? (← Parser.ahead) with
  | some n => discard (Parser.take n)
  | none => Parser.miss

def trailingComment : Parser Unit := do
  blank
  discard (Parser.optional lineComment)

end HclToJson.Grammar
