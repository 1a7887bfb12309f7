import HclToJson.Syntax
import HclToJson.Text.Quoted

/-!
Writing an expression back from its syntax tree. The text that belongs to a node is written as it
stands in the source; string literals are escaped anew.

The literal parts of a quoted template are escaped, those of a heredoc are not. This is one switch
for the whole expression: a quoted template turns it on at its start and off at its end, for all
that follows, and a heredoc inside of a quoted template is escaped with it. Only a heredoc with an
indent is written on its own.
-/

namespace HclToJson.Spelling

/-- Writes a text; the state tells whether literal parts of templates are escaped. -/
abbrev Writer := StateM Bool

/-- The children of a node with the text around them. -/
def weave : List Bytes → List Bytes → Bytes
  | gap :: gaps, child :: children => gap ++ child ++ weave gaps children
  | gaps, [] => gaps.flatten
  | [], children => children.flatten

def node (layout : Layout) (children : List Bytes) : Bytes :=
  layout.before ++ weave layout.gaps children ++ layout.after

def literal (escaped : Bool) (text : String) : Bytes :=
  let doubled := Text.doubleMarkers text.toList
  Text.encode (String.ofList (if escaped then doubled.flatMap Text.escapeUpper else doubled))

def string (text : String) : Bytes :=
  Byte.quote :: literal true text ++ [Byte.quote]

mutual

def expr : Expr → Writer Bytes
  | .null layout | .bool layout _ | .number layout _ | .var layout _ => return node layout []
  | .string layout value => return layout.before ++ string value ++ layout.after
  | .array layout items => do return node layout (← exprs items)
  | .object layout items => do return node layout (← objectItems items)
  | .template layout parts => do
      set true
      let children ← elements parts
      set false
      return node layout children
  | .heredoc layout indented parts => do
      let escaped ← get
      if indented then set false
      let children ← elements parts
      if indented then set escaped
      return node layout children
  | .paren layout inner => do return node layout [← expr inner]
  | .conditional layout condition yes no => do
      return node layout [← expr condition, ← expr yes, ← expr no]
  | .call layout _ arguments _ => do return node layout (← exprs arguments)
  | .traversal layout base path => do
      let base ← expr base
      return node layout (base :: (← steps path))
  | .unary layout _ operand => do return node layout [← expr operand]
  | .binary layout _ left right => do return node layout [← expr left, ← expr right]
  | .comprehension layout _ collection key value _ filter => do
      let collection ← expr collection
      let key ← optional key
      let value ← expr value
      return node layout (collection :: key ++ value :: (← optional filter))
  termination_by structural e => e

def exprs : List Expr → Writer (List Bytes)
  | [] => return []
  | e :: rest => do
      let text ← expr e
      return text :: (← exprs rest)
  termination_by structural items => items

def optional : Option Expr → Writer (List Bytes)
  | none => return []
  | some e => do return [← expr e]
  termination_by structural e => e

/-- Writes a key, unless it is a name and so no child of its item. -/
def itemKey : Key → Writer (List Bytes)
  | .ident _ => return []
  | .expr key => do return [← expr key]
  termination_by structural key => key

def objectItems : List Item → Writer (List Bytes)
  | [] => return []
  | .mk layout key value :: rest => do
      let key ← itemKey key
      let value ← expr value
      return node layout (key ++ [value]) :: (← objectItems rest)
  termination_by structural items => items

def steps : List Step → Writer (List Bytes)
  | [] => return []
  | .attribute layout _ :: rest | .element layout _ :: rest | .attributeSplat layout :: rest
  | .fullSplat layout :: rest => do return node layout [] :: (← steps rest)
  | .index layout key :: rest => do
      let key ← expr key
      return node layout [key] :: (← steps rest)
  termination_by structural path => path

def elements : List Element → Writer (List Bytes)
  | [] => return []
  | .literal text :: rest => do
      let escaped ← get
      return literal escaped text :: (← elements rest)
  | .interpolation layout _ e :: rest => do
      let text ← expr e
      return node layout [text] :: (← elements rest)
  | .choice layout _ _ _ condition yes no :: rest => do
      let condition ← expr condition
      let yes ← elements yes
      let no ← otherwise no
      return node layout (condition :: yes ++ no) :: (← elements rest)
  | .repetition layout _ _ _ collection body :: rest => do
      let collection ← expr collection
      let body ← elements body
      return node layout (collection :: body) :: (← elements rest)
  termination_by structural parts => parts

def otherwise : Option (List Element) → Writer (List Bytes)
  | none => return []
  | some parts => elements parts
  termination_by structural parts => parts

end

def exprText (e : Expr) : Bytes := ((expr e).run false).1

end HclToJson.Spelling
