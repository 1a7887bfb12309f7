import HclToJson.Number
import HclToJson.Source

namespace HclToJson

/-- Where a node stands in the source, and the text that is its own there. -/
structure Layout where
  span : Option Span
  /-- The text before the first child, between the children, and behind the last one. -/
  gaps : List Bytes
  /-- The blanks and comments in front of the node. -/
  before : Bytes := []
  /-- The blanks and comments behind the node. -/
  after : Bytes := []
  deriving DecidableEq

namespace Layout

def withoutSpan (layout : Layout) : Layout := { layout with span := none }

def between (layout : Layout) (before after : Bytes) : Layout :=
  { layout with before := before, after := after }

def followedBy (layout : Layout) (after : Bytes) : Layout := { layout with after := after }

end Layout

inductive UnaryOp
  | neg
  | not
  deriving DecidableEq

inductive BinaryOp
  | eq
  | ne
  | less
  | lessEq
  | greater
  | greaterEq
  | add
  | sub
  | mul
  | div
  | mod
  | and
  | or
  deriving DecidableEq

/-- The marks of a `${ }` or `%{ }` that ask for trimming the text before and behind it. -/
structure Trim where
  before : Bool
  after : Bool
  deriving DecidableEq

structure Loop where
  key : Option String
  value : String
  deriving DecidableEq

mutual

inductive Expr
  | null (layout : Layout)
  | bool (layout : Layout) (value : Bool)
  | number (layout : Layout) (value : Number)
  /-- A quoted string without interpolations and directives. -/
  | string (layout : Layout) (value : String)
  | var (layout : Layout) (name : String)
  | array (layout : Layout) (items : List Expr)
  | object (layout : Layout) (items : List Item)
  /-- A quoted string with interpolations or directives. -/
  | template (layout : Layout) (elements : List Element)
  /-- A template that stands on lines of its own; `indented` if an indent was taken off them. -/
  | heredoc (layout : Layout) (indented : Bool) (elements : List Element)
  | paren (layout : Layout) (inner : Expr)
  | conditional (layout : Layout) (condition yes no : Expr)
  /-- A function call; `spread` if the last argument stands for a list of arguments. -/
  | call (layout : Layout) (name : String) (arguments : List Expr) (spread : Bool)
  | traversal (layout : Layout) (base : Expr) (path : List Step)
  | unary (layout : Layout) (op : UnaryOp) (operand : Expr)
  | binary (layout : Layout) (op : BinaryOp) (left right : Expr)
  /-- `[for x in collection : value if filter]`, or with braces and a key an object; `grouping` if
  the values of a key are collected. -/
  | comprehension (layout : Layout) (loop : Loop) (collection : Expr) (key : Option Expr)
      (value : Expr) (grouping : Bool) (filter : Option Expr)

inductive Key
  | ident (name : String)
  | expr (key : Expr)

inductive Item
  | mk (layout : Layout) (key : Key) (value : Expr)

inductive Step
  /-- `.name` -/
  | attribute (layout : Layout) (name : String)
  /-- `.0` -/
  | element (layout : Layout) (index : Nat)
  /-- `[key]` -/
  | index (layout : Layout) (key : Expr)
  /-- `.*` -/
  | attributeSplat (layout : Layout)
  /-- `[*]` -/
  | fullSplat (layout : Layout)

inductive Element
  | literal (text : String)
  /-- `${expr}` -/
  | interpolation (layout : Layout) (trim : Trim) (expr : Expr)
  /-- `%{if condition}yes%{else}no%{endif}`, with a trim for each of the three tags. -/
  | choice (layout : Layout) (ifTrim elseTrim endTrim : Trim) (condition : Expr)
      (yes : List Element) (no : Option (List Element))
  /-- `%{for x in collection}body%{endfor}`, with a trim for each of the two tags. -/
  | repetition (layout : Layout) (forTrim endTrim : Trim) (loop : Loop) (collection : Expr)
      (body : List Element)

end

abbrev Template := List Element

inductive Structure
  | attribute (key : String) (value : Expr)
  | block (ident : String) (labels : List String) (body : List Structure)

abbrev Body := List Structure

namespace Expr

def layout : Expr → Layout
  | null layout | bool layout _ | number layout _ | string layout _ | var layout _
  | array layout _ | object layout _ | template layout _ | heredoc layout .. | paren layout _
  | conditional layout .. | call layout .. | traversal layout .. | unary layout ..
  | binary layout .. | comprehension layout .. => layout

def span (expr : Expr) : Option Span := expr.layout.span

def setLayout (layout : Layout) : Expr → Expr
  | null _ => null layout
  | bool _ value => bool layout value
  | number _ value => number layout value
  | string _ value => string layout value
  | var _ name => var layout name
  | array _ items => array layout items
  | object _ items => object layout items
  | template _ elements => template layout elements
  | heredoc _ indented elements => heredoc layout indented elements
  | paren _ inner => paren layout inner
  | conditional _ condition yes no => conditional layout condition yes no
  | call _ name arguments spread => call layout name arguments spread
  | traversal _ base path => traversal layout base path
  | unary _ op operand => unary layout op operand
  | binary _ op left right => binary layout op left right
  | comprehension _ loop collection key value grouping filter =>
      comprehension layout loop collection key value grouping filter

def between (before after : Bytes) (expr : Expr) : Expr :=
  expr.setLayout (expr.layout.between before after)

def followedBy (after : Bytes) (expr : Expr) : Expr :=
  expr.setLayout (expr.layout.followedBy after)

/-- A traversal, conditional or binary operation without its place; other expressions keep it. -/
def withoutSpan : Expr → Expr
  | traversal layout base path => traversal layout.withoutSpan base path
  | conditional layout condition yes no => conditional layout.withoutSpan condition yes no
  | binary layout op left right => binary layout.withoutSpan op left right
  | e => e

end Expr

end HclToJson
