import HclToJson.Grammar.Template
import HclToJson.Syntax.Same

/-!
The grammar of expressions. There is no precedence: the right operand of an operator is all that
follows it.
-/

namespace HclToJson.Grammar

/-- Whether an operator must not be looked for at the start of a text; one takes two bytes at least,
with what follows it. -/
def endsExpression (text : Bytes) : Bool :=
  (text.drop 1).isEmpty || [Byte.slash, Byte.slash].isPrefixOf text ||
    [Byte.slash, Byte.star].isPrefixOf text || [Byte.dot, Byte.dot].isPrefixOf text

/-- The spellings of the binary operators, the longer ones first. -/
def binaryOps : List (Bytes × BinaryOp) :=
  [([Byte.equals, Byte.equals], .eq), ([Byte.exclamation, Byte.equals], .ne),
    ([Byte.less, Byte.equals], .lessEq), ([Byte.greater, Byte.equals], .greaterEq),
    ([0x26, 0x26], .and), ([0x7C, 0x7C], .or), ([Byte.less], .less), ([Byte.greater], .greater),
    ([Byte.plus], .add), ([Byte.minus], .sub), ([Byte.star], .mul), ([Byte.slash], .div),
    ([Byte.percent], .mod)]

def binaryOp : Parser BinaryOp := do
  let text ← Parser.ahead
  match binaryOps.find? (·.1.isPrefixOf text) with
  | some (spelling, op) =>
      discard (Parser.take spelling.length)
      return op
  | none => Parser.miss

def listItem (nested : Nested) (ends : List UInt8) : Parser (Located Expr) := do
  let next ← nextToken
  Parser.require (next.any (!ends.contains ·))
  spaced nested

def commaSeparated (nested : Nested) (ends : List UInt8) : Parser (List (Located Expr)) := do
  match ← Parser.optional (listItem nested ends) with
  | none => return []
  | some first =>
      let others ← Parser.many do
        Parser.byte Byte.comma
        listItem nested ends
      return first :: others

def string (nested : Nested) : Parser Expr := do
  let start ← get
  match ← Parser.optional plainString with
  | some text => return .string (← layoutFrom start []) text
  | none => quotedTemplate nested

def opensComprehension : Parser Bool := do
  let cursor ← get
  blankLines
  let word ← Parser.optional (Parser.keyword "for")
  let next := (← Parser.ahead).head?
  set cursor
  return word.isSome && (next = some Byte.space || next = some Byte.tab || next = some Byte.hash ||
    next = some Byte.slash)

def ellipsis : Parser Bool :=
  return (← Parser.optional (Parser.exactly [Byte.dot, Byte.dot, Byte.dot])).isSome

/-- Reads the key of a comprehension, which one in braces has. -/
def comprehensionKey (nested : Nested) (braces : Bool) : Parser (Option (Located Expr)) :=
  if braces then do
    let key ← spaced nested
    Parser.must (Parser.exactly [Byte.equals, Byte.greater])
    return some key
  else return none

def comprehensionFilter (nested : Nested) : Parser (Option (Located Expr)) :=
  Parser.optional do
    blankLines
    Parser.keyword "if"
    spaced nested

/-- Reads the rest of a comprehension that starts at `start`, behind its opening bracket. With
braces its values may be collected. -/
def comprehension (nested : Nested) (start : Cursor) (braces : Bool) : Parser Expr := do
  blankLines
  Parser.keyword "for"
  blankLines
  let loop ← loop
  Parser.must (Parser.keyword "in")
  let collection ← spaced nested
  Parser.must (Parser.byte Byte.colon)
  let key ← comprehensionKey nested braces
  let value ← spaced nested
  let grouping ← (if braces then ellipsis else pure false)
  let filter ← comprehensionFilter nested
  Parser.must (Parser.byte (if braces then Byte.closeBrace else Byte.closeBracket))
  let children := collection.span :: spans key.toList ++ value.span :: spans filter.toList
  return .comprehension (← layoutFrom start children) loop collection.value (key.map (·.value))
    value.value grouping (filter.map (·.value))

def array (nested : Nested) : Parser Expr := do
  let start ← get
  Parser.byte Byte.openBracket
  if ← opensComprehension then comprehension nested start false
  else
    let items ← commaSeparated nested [Byte.closeBracket]
    if !items.isEmpty then discard (Parser.flag Byte.comma)
    blankLines
    Parser.must (Parser.byte Byte.closeBracket)
    return .array (← layoutFrom start (spans items)) (items.map (·.value))

/-- Reads what ends an item of an object: a comma, a line end, or the closing brace, which is
left. -/
def itemEnd : Parser Unit :=
  Parser.either (Parser.byte Byte.comma)
    (Parser.either
      (do
        discard (Parser.optional lineComment)
        newline)
      (do
        Parser.require ((← Parser.ahead).head? = some Byte.closeBrace)))

/-- Reads an item of an object, with what ends it. A lone name is the key itself. -/
def objectItem (nested : Nested) : Parser Item := do
  let start ← get
  Parser.require ((← nextToken).any (· ≠ Byte.closeBrace))
  let key ← within blankLines blank (nested.expr false)
  Parser.must (Parser.either (Parser.byte Byte.equals) (Parser.byte Byte.colon))
  let value ← within blank blank (nested.expr false)
  Parser.must itemEnd
  match key.value with
  | .var _ name => return .mk (← layoutFrom start [value.span]) (.ident name) value.value
  | expr => return .mk (← layoutFrom start [key.span, value.span]) (.expr expr) value.value

/-- Reads an object or a comprehension in braces. Of items with the same key the last one counts, at
the place of the first. -/
def object (nested : Nested) : Parser Expr := do
  let start ← get
  Parser.byte Byte.openBrace
  if ← opensComprehension then comprehension nested start true
  else
    let items ← Parser.many (Parser.located (objectItem nested))
    blankLines
    Parser.must (Parser.byte Byte.closeBrace)
    return .object (← layoutFrom start (spans items)) (Item.lastOfEach (items.map (·.value)))

def numberLiteral : Parser Expr := do
  let start ← get
  let value ← number
  return .number (← layoutFrom start []) value

def paren (nested : Nested) : Parser Expr := do
  let start ← get
  Parser.byte Byte.openParen
  let inner ← within blankLines blankLines (nested.expr true)
  Parser.must (Parser.byte Byte.closeParen)
  return .paren (← layoutFrom start [inner.span]) inner.value

/-- Reads what may stand behind the last argument of a call: a comma or an ellipsis. Tells whether
it was an ellipsis. -/
def argumentsEnd : Parser Bool := do
  let comma ← Parser.flag Byte.comma
  if comma then return false
  else ellipsis

def callArguments (nested : Nested) : Parser (List (Located Expr) × Bool) := do
  let arguments ← commaSeparated nested [Byte.comma, Byte.dot, Byte.closeParen]
  let spread ← if arguments.isEmpty then pure false else argumentsEnd
  blankLines
  Parser.must (Parser.byte Byte.closeParen)
  return (arguments, spread)

/-- Reads a name: a call if arguments follow, else a literal or a variable. -/
def named (nested : Nested) : Parser Expr := do
  let start ← get
  let name ← ident
  let opening ← Parser.optional do
    blankLines
    Parser.byte Byte.openParen
  if opening.isSome then
    let (arguments, spread) ← callArguments nested
    return .call (← layoutFrom start (spans arguments)) name (arguments.map (·.value)) spread
  else
    let layout ← layoutFrom start []
    if name = "null" then return .null layout
    else if name = "true" then return .bool layout true
    else if name = "false" then return .bool layout false
    else return .var layout name

def primary (nested : Nested) : Parser Expr := do
  let text ← Parser.ahead
  match text.head? with
  | none => Parser.miss
  | some b =>
      if b = Byte.quote then string nested
      else if b = Byte.openBracket then array nested
      else if b = Byte.openBrace then object nested
      else if b = Byte.openParen then paren nested
      else if b = Byte.less then heredoc nested
      else if b = Byte.minus ∨ Byte.isDigit b then numberLiteral
      else if 0 < Text.identLength text then named nested
      else Parser.wrong

/-- Reads a unary operator. The sign of a number is none. -/
def unaryOp : Parser UnaryOp := do
  let cursor ← get
  let literal ← Parser.optional number
  Parser.require literal.isNone
  set cursor
  let op ← Parser.either
    (do
      Parser.byte Byte.minus
      return UnaryOp.neg)
    (do
      Parser.byte Byte.exclamation
      return UnaryOp.not)
  blank
  return op

def unarySpelling : UnaryOp → UInt8
  | .neg => Byte.minus
  | .not => Byte.exclamation

/-- Reads an operand. Of several unary operators the last one counts; the text between the first one
and what they apply to moves in front of it. Also tells whether the operand is in parentheses. -/
def term (nested : Nested) : Parser (Expr × Bool) := do
  let start ← get
  let ops ← Parser.many unaryOp
  let operand ← Parser.located (primary nested)
  let parenthesized :=
    match operand.value with
    | .paren .. => true
    | _ => false
  match ops.getLast? with
  | none => return (operand.value, parenthesized)
  | some op =>
      let layout : Layout :=
        { span := some ⟨start.pos, operand.span.stop⟩
          gaps := [[unarySpelling op], []]
          before := (start.rest.take (operand.span.start - start.pos)).drop 1 }
      return (.unary layout op operand.value, parenthesized)

/-- Reads the index of an element, of at most 64 bits. A zero stands alone. -/
def elementIndex : Parser Nat := do
  let text ← Parser.ahead
  let length := if text.head? = some Byte.zero then 1 else (text.takeWhile Byte.isDigit).length
  let index := Decimal.readNat (Text.decode (← Parser.take length))
  Parser.require (index < 0x1_0000_0000_0000_0000)
  return index

def attributeStep (start : Cursor) : Parser Step := do
  let text ← Parser.ahead
  match text.head? with
  | none => Parser.miss
  | some b =>
      if b = Byte.star then
        discard (Parser.take 1)
        return .attributeSplat (← layoutFrom start [])
      else if Byte.isDigit b then
        let index ← elementIndex
        return .element (← layoutFrom start []) index
      else if 0 < Text.identLength text then
        let name ← ident
        return .attribute (← layoutFrom start []) name
      else Parser.wrong

def indexStep (nested : Nested) (start : Cursor) : Parser Step := do
  if (← nextToken) = some Byte.star then
    blankLines
    Parser.byte Byte.star
    blankLines
    Parser.must (Parser.byte Byte.closeBracket)
    return .fullSplat (← layoutFrom start [])
  else
    let key ← spaced nested
    Parser.must (Parser.byte Byte.closeBracket)
    return .index (← layoutFrom start [key.span]) key.value

def step (nested : Nested) : Parser Step := do
  let start ← get
  if ← Parser.flag Byte.dot then
    blankLines
    attributeStep start
  else
    Parser.byte Byte.openBracket
    indexStep nested start

def opensStep : Bytes → Bool
  | b :: _ :: _ => b = Byte.dot || b = Byte.openBracket
  | _ => false

/-- Reads the operators of a traversal behind the first one, at most one for each byte of `fuel`.
What opens like one has to be one. -/
def laterSteps (nested : Nested) (newlines : Bool) : Bytes → Parser (List Step)
  | [] => pure []
  | _ :: fuel => do
      let cursor ← get
      separator newlines
      if opensStep (← Parser.ahead) then
        let step ← step nested
        let steps ← laterSteps nested newlines fuel
        return step :: steps
      else
        set cursor
        return []

def traversal (nested : Nested) (newlines : Bool) (start : Cursor) (base : Located Expr) :
    Parser Expr := do
  let cursor ← get
  let between ← Parser.spelling (separator newlines)
  let text ← Parser.ahead
  if opensStep text ∧ !endsExpression text then
    let base : Located Expr := ⟨base.value.followedBy between, start.pos, (← get).pos⟩
    let first ← Parser.located (step nested)
    let layout ← layoutFrom start [base.span, first.span]
    let others ← laterSteps nested newlines text
    let span : Span := ⟨start.pos, (← get).pos⟩
    return .traversal { layout with span := some span } base.value (first.value :: others)
  else
    set cursor
    return base.value

/-- Reads the operation that `left`, which starts at `start`, is the first operand of, if there is
one. -/
def operation (nested : Nested) (newlines : Bool) (start : Cursor) (left : Expr) :
    Parser Expr := do
  let cursor ← get
  let around := separator newlines
  let between ← Parser.spelling around
  let text ← Parser.ahead
  let first : Located Expr := ⟨left.followedBy between, start.pos, (← get).pos⟩
  if endsExpression text then
    set cursor
    return left
  else if text.head? = some Byte.question then
    Parser.byte Byte.question
    let yes ← within around around (nested.expr newlines)
    Parser.must (Parser.byte Byte.colon)
    let no ← within around (pure ()) (nested.expr newlines)
    let layout ← layoutFrom start [first.span, yes.span, no.span]
    return .conditional layout first.value.withoutSpan yes.value no.value
  else
    match ← Parser.optional binaryOp with
    | some op =>
        let right ← within around (pure ()) (nested.expr newlines)
        return .binary (← layoutFrom start [first.span, right.span]) op first.value right.value
    | none =>
        set cursor
        return left

/-- Reads an expression. Newlines may stand between its tokens if `newlines` is set, and behind a
term in parentheses. -/
def expr (nested : Nested) (newlines : Bool) : Parser Expr := do
  let start ← get
  let term ← Parser.located (term nested)
  let newlines := newlines || term.value.2
  let left ← traversal nested newlines start ⟨term.value.1, term.span⟩
  operation nested newlines start left

def nestedTo : Nat → Nested
  | 0 => ⟨fun _ => Parser.miss, Parser.miss⟩
  | depth + 1 =>
      { expr := fun newlines cursor => expr (nestedTo depth) newlines cursor
        body := fun cursor => rawTemplate (nestedTo depth) cursor }

/-- The parsers for all levels that a text can have: each level takes up at least one byte. -/
def nestedIn (text : Bytes) : Nested := nestedTo (text.length + 1)

/-- The expression that a text consists of. A traversal, conditional or binary operation at its root
has no place. -/
def expression? (text : Bytes) : Option Expr :=
  (Parser.whole? (expr (nestedIn text) false) text).map (·.withoutSpan)

/-- The template that a text consists of, raw as the body of a directive. -/
def template? (text : Bytes) : Option Template :=
  (Parser.whole? (rawTemplate (nestedIn text)) text).map values

end HclToJson.Grammar
