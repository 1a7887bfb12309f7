import HclToJson.Source

/-!
Parsers: functions from the rest of a text to a result and the text behind it, which keep count of
their position. No alternative is tried once a parser has succeeded, or has found the text wrong.
-/

namespace HclToJson

structure Cursor where
  pos : Nat
  rest : Bytes

inductive Refusal
  /-- The text is something else. -/
  | miss
  /-- The text is wrong, whatever else it could be. -/
  | wrong
  deriving DecidableEq

/-- Reads from a cursor on, or refuses to. -/
abbrev Parser := StateT Cursor (Except Refusal)

structure Located (α : Type) where
  value : α
  span : Span

namespace Parser

def ahead : Parser Bytes := return (← get).rest

def take (n : Nat) : Parser Bytes := do
  let cursor ← get
  set (⟨cursor.pos + n, cursor.rest.drop n⟩ : Cursor)
  return cursor.rest.take n

def miss : Parser α := throw .miss

def wrong : Parser α := throw .wrong

def require (condition : Bool) : Parser Unit :=
  if condition then pure () else miss

/-- A parser for what has to stand here: all other text is wrong. -/
def must (parser : Parser α) : Parser α := fun cursor =>
  match parser cursor with
  | .ok result => .ok result
  | .error _ => .error .wrong

def exactly (expected : Bytes) : Parser Unit := do
  require (expected.isPrefixOf (← ahead))
  discard (take expected.length)

def byte (expected : UInt8) : Parser Unit := exactly [expected]

def keyword (word : String) : Parser Unit := exactly (Text.encode word)

/-- The result of a parser, or nothing read if the text is something else. -/
def optional (parser : Parser α) : Parser (Option α) := fun cursor =>
  match parser cursor with
  | .ok (value, cursor) => .ok (some value, cursor)
  | .error .miss => .ok (none, cursor)
  | .error .wrong => .error .wrong

def flag (expected : UInt8) : Parser Bool := return (← optional (byte expected)).isSome

/-- The result of the first parser, or of the second one if the text is something else. -/
def either (first second : Parser α) : Parser α := fun cursor =>
  match first cursor with
  | .ok result => .ok result
  | .error .miss => second cursor
  | .error .wrong => .error .wrong

/-- The results of a parser that is run until the text is something else, at most once for each byte
of `fuel`. -/
def manyWithin (parser : Parser α) : Bytes → Parser (List α)
  | [] => pure []
  | _ :: fuel => fun cursor =>
      match parser cursor with
      | .ok (value, cursor) => do
          let (values, cursor) ← manyWithin parser fuel cursor
          return (value :: values, cursor)
      | .error .miss => .ok ([], cursor)
      | .error .wrong => .error .wrong

/-- The results of a parser that is run until the text is something else. The parser is one that
reads something. -/
def many (parser : Parser α) : Parser (List α) := fun cursor =>
  manyWithin parser cursor.rest cursor

def located (parser : Parser α) : Parser (Located α) := do
  let start := (← get).pos
  let value ← parser
  return ⟨value, start, (← get).pos⟩

def spelling (parser : Parser α) : Parser Bytes := do
  let before ← get
  discard parser
  return before.rest.take ((← get).pos - before.pos)

def whole? (parser : Parser α) (text : Bytes) : Option α :=
  match parser ⟨0, text⟩ with
  | .ok (value, cursor) => if cursor.rest.isEmpty then some value else none
  | .error _ => none

end Parser

end HclToJson
