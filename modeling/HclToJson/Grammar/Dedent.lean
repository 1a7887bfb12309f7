import HclToJson.Syntax
import HclToJson.Text.Blank

/-!
Removal of the common indent of an indented heredoc. A line that starts in a literal part counts,
one that a literal part only goes on with does not.
-/

namespace HclToJson.Grammar

/-- The lines of a text, without their line ends. A newline at the end starts no line. -/
def textLines : List Char → List (List Char)
  | [] => []
  | ['\r', '\n'] => [[]]
  | '\r' :: '\n' :: rest => [] :: textLines rest
  | ['\n'] => [[]]
  | '\n' :: rest => [] :: textLines rest
  | c :: rest =>
      match textLines rest with
      | line :: others => (c :: line) :: others
      | [] => [[c]]

def endsLine (text : List Char) : Bool := text.getLast? = some '\n'

def indentOf (line : List Char) : Nat := (line.takeWhile Text.isBlank).length

/-- The least indent of the lines that are not empty, if all of them are indented; the first line is
left out if it is `exempt`. -/
def literalIndent? (exempt : Bool) (text : List Char) : Option Nat :=
  let lines := if exempt then (textLines text).drop 1 else textLines text
  let indents := (lines.filter (!·.isEmpty)).map indentOf
  if indents.contains 0 then none else indents.min?

/-- The indents of the literal parts of a template, none if another part stands at the start of a
line. `exempt` tells whether the text before ends within a line. -/
def literalIndents? : Bool → Template → Option (List Nat)
  | _, [] => some []
  | exempt, .literal text :: rest => do
      let indents ← literalIndents? (!endsLine text.toList) rest
      return (literalIndent? exempt text.toList).toList ++ indents
  | exempt, _ :: rest => if exempt then literalIndents? true rest else none

/-- The lines of a literal part less `indent` characters at the start of each, with plain newlines
between them; the first line is kept whole if it is `exempt`. -/
def dedentLiteral (indent : Nat) (exempt : Bool) (text : List Char) : List Char :=
  let cut (lines : List (List Char)) := lines.map (·.drop indent)
  let lines :=
    match exempt, textLines text with
    | true, first :: others => first :: cut others
    | _, lines => cut lines
  ['\n'].intercalate lines ++ (if endsLine text then ['\n'] else [])

def dedentBy (indent : Nat) : Bool → Template → Template
  | _, [] => []
  | exempt, .literal text :: rest =>
      let text := dedentLiteral indent exempt text.toList
      .literal (String.ofList text) :: dedentBy indent (!endsLine text) rest
  | _, part :: rest => part :: dedentBy indent true rest

def dedent? (template : Template) : Option Template :=
  ((literalIndents? false template).bind (·.min?)).map fun indent =>
    dedentBy indent false template

end HclToJson.Grammar
