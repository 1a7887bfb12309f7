import HclToJson.Bytes

/-!
Removal of comments in two passes. The first drops block comments and copies line comments, so that
the lines stay as they are; the second cuts each line at its line comment and joins the lines by a
space. Both follow quoted strings, in which nothing opens a comment; a string ends with its line.
-/

namespace HclToJson.Comment

inductive Quote
  | outside
  /-- In a string that the byte `mark` closes. -/
  | inside (mark : UInt8)
  /-- In such a string, directly after a backslash. -/
  | escaped (mark : UInt8)
  deriving DecidableEq

def Quote.next : Quote → UInt8 → Quote
  | .outside, b => if b = Byte.quote ∨ b = Byte.apostrophe then .inside b else .outside
  | .inside mark, b =>
      if b = Byte.backslash then .escaped mark else if b = mark then .outside else .inside mark
  | .escaped mark, _ => .inside mark

/-- A byte at which, with `after` behind it, a line comment opens. -/
def opensLine (b : UInt8) (after : Bytes) : Bool :=
  b = Byte.hash || (b = Byte.slash && after.head? = some Byte.slash)

inductive Region
  | code (quote : Quote)
  | line
  | block
  deriving DecidableEq

/-- The first pass, from inside of a region: block comments are dropped with their delimiters. -/
def dropBlocks : Region → Bytes → Bytes
  | _, [] => []
  | .block, [_] => []
  | .block, b :: c :: rest =>
      if b = Byte.star ∧ c = Byte.slash then dropBlocks (.code .outside) rest
      else dropBlocks .block (c :: rest)
  | .line, b :: rest =>
      b :: dropBlocks (if b = Byte.newline then .code .outside else .line) rest
  | .code _, [b] => [b]
  | .code quote, b :: c :: rest =>
      let quote := if b = Byte.newline then .outside else quote.next b
      if quote = .outside ∧ b = Byte.slash ∧ c = Byte.star then dropBlocks .block rest
      else if quote = .outside ∧ opensLine b (c :: rest) then b :: dropBlocks .line (c :: rest)
      else b :: dropBlocks (.code quote) (c :: rest)

def stripBlocks (text : Bytes) : Bytes :=
  dropBlocks (.code .outside) text

def lines : Bytes → List Bytes
  | [] => [[]]
  | b :: rest =>
      if b = Byte.newline then [] :: lines rest
      else
        match lines rest with
        | line :: others => (b :: line) :: others
        | [] => [[b]]

/-- A line up to its line comment. -/
def cutLine : Quote → Bytes → Bytes
  | _, [] => []
  | quote, b :: rest =>
      let quote := quote.next b
      if quote = .outside ∧ opensLine b rest then [] else b :: cutLine quote rest

def stripLines (text : Bytes) : Bytes :=
  [Byte.space].intercalate ((lines text).map (cutLine .outside))

def strip (text : Bytes) : Bytes :=
  stripLines (stripBlocks text)

end HclToJson.Comment
