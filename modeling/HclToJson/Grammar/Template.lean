import HclToJson.Grammar.Dedent
import HclToJson.Grammar.Lexeme

namespace HclToJson.Grammar

structure Nested where
  /-- An expression, in which newlines may or may not stand between tokens. -/
  expr : Bool → Parser Expr
  body : Parser (List (Located Element))

/-- The text around children, from `pos` up to `stop`; `text` starts at `pos`. -/
def gaps (text : Bytes) (pos stop : Nat) : List Span → List Bytes
  | [] => [text.take (stop - pos)]
  | child :: rest =>
      text.take (child.start - pos) :: gaps (text.drop (child.stop - pos)) child.stop stop rest

/-- The layout of a node with the given children that is read up to here. -/
def layoutFrom (start : Cursor) (children : List Span) : Parser Layout := do
  let stop := (← get).pos
  return { span := some ⟨start.pos, stop⟩, gaps := gaps start.rest start.pos stop children }

def within (front back : Parser Unit) (expr : Parser Expr) : Parser (Located Expr) :=
  Parser.located do
    let before ← Parser.spelling front
    let expr ← expr
    let after ← Parser.spelling back
    return expr.between before after

def openTag : Parser Bool := do
  Parser.exactly [Byte.percent, Byte.openBrace]
  let mark ← Parser.flag Byte.tilde
  blankLines
  return mark

def closeTag : Parser Bool := do
  let mark ← Parser.flag Byte.tilde
  Parser.must (Parser.byte Byte.closeBrace)
  return mark

def wordTag (word : String) : Parser Trim := do
  let before ← openTag
  Parser.keyword word
  blankLines
  return ⟨before, ← closeTag⟩

def spaced (nested : Nested) : Parser (Located Expr) :=
  within blankLines blankLines (nested.expr false)

def loop : Parser Loop := do
  let first ← Parser.must ident
  blankLines
  let second ← Parser.optional do
    Parser.byte Byte.comma
    blankLines
    let name ← Parser.must ident
    blankLines
    return name
  match second with
  | some value => return ⟨some first, value⟩
  | none => return ⟨none, first⟩

def interpolation (nested : Nested) : Parser Element := do
  let start ← get
  Parser.exactly [Byte.dollar, Byte.openBrace]
  let before ← Parser.flag Byte.tilde
  let expr ← spaced nested
  let after ← closeTag
  return .interpolation (← layoutFrom start [expr.span]) ⟨before, after⟩ expr.value

def values (parts : List (Located Element)) : Template := parts.map (·.value)

def spans (parts : List (Located α)) : List Span := parts.map (·.span)

def choice (nested : Nested) : Parser Element := do
  let start ← get
  let before ← openTag
  Parser.keyword "if"
  let condition ← spaced nested
  let ifTrim : Trim := ⟨before, ← closeTag⟩
  let yes ← nested.body
  let no ← Parser.optional do
    let trim ← wordTag "else"
    return (trim, ← nested.body)
  let endTrim ← wordTag "endif"
  let children := condition.span :: spans yes ++ (no.map fun no => spans no.2).getD []
  let elseTrim := (no.map (·.1)).getD ⟨false, false⟩
  return .choice (← layoutFrom start children) ifTrim elseTrim endTrim condition.value (values yes)
    (no.map fun no => values no.2)

def repetition (nested : Nested) : Parser Element := do
  let start ← get
  let before ← openTag
  Parser.keyword "for"
  blankLines
  let loop ← loop
  Parser.must (Parser.keyword "in")
  let collection ← spaced nested
  let forTrim : Trim := ⟨before, ← closeTag⟩
  let body ← nested.body
  let endTrim ← wordTag "endfor"
  return .repetition (← layoutFrom start (collection.span :: spans body)) forTrim endTrim loop
    collection.value (values body)

def element (literal : Parser String) (nested : Nested) : Parser (Located Element) :=
  Parser.located (Parser.either (Element.literal <$> literal)
    (Parser.either (interpolation nested) (Parser.either (choice nested) (repetition nested))))

def rawTemplate (nested : Nested) : Parser (List (Located Element)) :=
  Parser.many (element (rawText fun _ => false) nested)

def quotedTemplate (nested : Nested) : Parser Expr := do
  let start ← get
  Parser.byte Byte.quote
  let parts ← Parser.many (element quotedText nested)
  Parser.byte Byte.quote
  return .template (← layoutFrom start (spans parts)) (values parts)

def startsLastLine (delimiter text : Bytes) : Bool :=
  delimiter.isPrefixOf (text.dropWhile fun b => b = Byte.space || b = Byte.tab)

def endsHeredoc (delimiter text : Bytes) : Bool :=
  match newlineLength text with
  | 0 => false
  | n => startsLastLine delimiter (text.drop n)

/-- Puts a line end behind the last part of a template, as part of its last literal if it ends in
one. -/
def closeLine (newline : Located Bytes) : List (Located Element) → List (Located Element)
  | [] => [⟨.literal (Text.ofBytes newline.value), newline.span⟩]
  | [⟨.literal text, span⟩] =>
      [⟨.literal (text ++ Text.ofBytes newline.value), span.start, newline.span.stop⟩]
  | part :: rest => part :: closeLine newline rest

/-- Reads the lines of a heredoc up to its last one. A text that does not end in such a line has no
lines at all. -/
def heredocLines (delimiter : Bytes) (nested : Nested) : Parser (List (Located Element)) := do
  let lines ← Parser.optional do
    let parts ← Parser.many (element (rawText (endsHeredoc delimiter)) nested)
    return closeLine (← Parser.located (Parser.spelling newline)) parts
  return lines.getD []

def unmarked : List Bytes → List Bytes
  | [] => []
  | opening :: rest => (opening.take 2 ++ opening.drop 3) :: rest

/-- The expression for a heredoc. One that is marked as indented counts as such only if its lines
have a common indent. -/
def heredocExpr (layout : Layout) (marked : Bool) (template : Template) : Expr :=
  if marked then
    match dedent? template with
    | some template => .heredoc layout true template
    | none => .heredoc { layout with gaps := unmarked layout.gaps } false template
  else .heredoc layout false template

def heredoc (nested : Nested) : Parser Expr := do
  let start ← get
  Parser.exactly [Byte.less, Byte.less]
  let marked ← Parser.flag Byte.minus
  let delimiter ← Parser.must (Parser.spelling ident)
  Parser.must newline
  let parts ← heredocLines delimiter nested
  let indent := ((← Parser.ahead).takeWhile fun b => b = Byte.space || b = Byte.tab).length
  discard (Parser.take indent)
  Parser.must (Parser.exactly delimiter)
  return heredocExpr (← layoutFrom start (spans parts)) marked (values parts)

end HclToJson.Grammar
