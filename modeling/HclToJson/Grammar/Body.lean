import HclToJson.Grammar.Expression

namespace HclToJson.Grammar

def label : Parser String :=
  Parser.either plainString ident

def attributeValue (nested : Nested) : Parser Expr := do
  Parser.byte Byte.equals
  blank
  nested.expr false

def structureEnd : Parser Unit := do
  trailingComment
  Parser.either newline (do Parser.require (← Parser.ahead).isEmpty)

def attributeKey? : Structure → Option String
  | .attribute key _ => some key
  | .block .. => none

def distinct : List String → Bool
  | [] => true
  | key :: rest => !rest.contains key && distinct rest

/-- Reads the attribute of a block on one line, if it has one, and the closing brace. -/
def inlineBody (nested : Nested) : Parser Body := do
  let item ← Parser.optional do
    blank
    let key ← ident
    blank
    let value ← attributeValue nested
    blank
    return Structure.attribute key value
  blank
  Parser.byte Byte.closeBrace
  return item.toList

def blockBody (nested : Nested) (body : Parser Body) : Parser Body := do
  Parser.byte Byte.openBrace
  let opening ← Parser.optional do
    trailingComment
    newline
  if opening.isSome then
    let structures ← body
    Parser.byte Byte.closeBrace
    return structures
  else inlineBody nested

def bodyItem (nested : Nested) (body : Parser Body) : Parser Structure := do
  let name ← ident
  blank
  if (← Parser.ahead).head? = some Byte.equals then
    return .attribute name (← attributeValue nested)
  else
    let labels ← Parser.many do
      let label ← label
      blank
      return label
    return .block name labels (← blockBody nested body)

/-- Reads structures with blocks that are nested up to `depth` levels. The keys of a body's
attributes are distinct. -/
def body (nested : Nested) : Nat → Parser Body
  | 0 => Parser.miss
  | depth + 1 => do
      let structures ← Parser.many do
        blankLines
        let item ← bodyItem nested (body nested depth)
        structureEnd
        return item
      blankLines
      Parser.require (distinct (structures.filterMap attributeKey?))
      return structures

def document? (text : Bytes) : Option Body :=
  Parser.whole? (body (nestedIn text) (text.length + 1)) text

end HclToJson.Grammar
