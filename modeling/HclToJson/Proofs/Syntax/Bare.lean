import HclToJson.Syntax

namespace HclToJson

/-- The layout of a node that stands nowhere. -/
def Layout.nowhere : Layout := ⟨none, [], [], []⟩

namespace Expr

mutual

/-- An expression without layout. In the templates in it an empty `else` branch is none. -/
def bare : Expr → Expr
  | null _ => null .nowhere
  | bool _ value => bool .nowhere value
  | number _ value => number .nowhere value
  | string _ value => string .nowhere value
  | var _ name => var .nowhere name
  | array _ items => array .nowhere (bareAll items)
  | object _ items => object .nowhere (bareItems items)
  | template _ elements => template .nowhere (bareElements elements)
  | heredoc _ indented elements => heredoc .nowhere indented (bareElements elements)
  | paren _ inner => paren .nowhere (bare inner)
  | conditional _ condition yes no => conditional .nowhere (bare condition) (bare yes) (bare no)
  | call _ name arguments spread => call .nowhere name (bareAll arguments) spread
  | traversal _ base path => traversal .nowhere (bare base) (bareSteps path)
  | unary _ op operand => unary .nowhere op (bare operand)
  | binary _ op left right => binary .nowhere op (bare left) (bare right)
  | comprehension _ loop collection key value grouping filter =>
      comprehension .nowhere loop (bare collection) (bareOptional key) (bare value) grouping
        (bareOptional filter)
  termination_by structural e => e

def bareAll : List Expr → List Expr
  | [] => []
  | e :: rest => bare e :: bareAll rest
  termination_by structural items => items

def bareOptional : Option Expr → Option Expr
  | none => none
  | some e => some (bare e)
  termination_by structural e => e

def bareKey : Key → Key
  | .ident name => .ident name
  | .expr key => .expr (bare key)
  termination_by structural key => key

def bareItems : List Item → List Item
  | [] => []
  | .mk _ key value :: rest => .mk .nowhere (bareKey key) (bare value) :: bareItems rest
  termination_by structural items => items

def bareSteps : List Step → List Step
  | [] => []
  | .attribute _ name :: rest => .attribute .nowhere name :: bareSteps rest
  | .element _ index :: rest => .element .nowhere index :: bareSteps rest
  | .index _ key :: rest => .index .nowhere (bare key) :: bareSteps rest
  | .attributeSplat _ :: rest => .attributeSplat .nowhere :: bareSteps rest
  | .fullSplat _ :: rest => .fullSplat .nowhere :: bareSteps rest
  termination_by structural path => path

def bareElements : Template → Template
  | [] => []
  | .literal text :: rest => .literal text :: bareElements rest
  | .interpolation _ trim e :: rest => .interpolation .nowhere trim (bare e) :: bareElements rest
  | .choice _ ifTrim elseTrim endTrim condition yes no :: rest =>
      .choice .nowhere ifTrim elseTrim endTrim (bare condition) (bareElements yes) (bareElse no) ::
        bareElements rest
  | .repetition _ forTrim endTrim loop collection body :: rest =>
      .repetition .nowhere forTrim endTrim loop (bare collection) (bareElements body) ::
        bareElements rest
  termination_by structural parts => parts

def bareElse : Option Template → Option Template
  | none | some [] => none
  | some (part :: rest) => some (bareElements (part :: rest))
  termination_by structural parts => parts

end

theorem bare_setLayout (layout : Layout) (e : Expr) : (e.setLayout layout).bare = e.bare := by
  cases e <;> rfl

theorem bare_between (before after : Bytes) (e : Expr) : (e.between before after).bare = e.bare :=
  bare_setLayout _ e

theorem bare_followedBy (after : Bytes) (e : Expr) : (e.followedBy after).bare = e.bare :=
  bare_setLayout _ e

end Expr

end HclToJson
