import HclToJson.Grammar.Expression
import HclToJson.Spelling

/-!
Templates as they are evaluated. A template is kept as its text, in which the markers in literal
parts are doubled, and the text is read again. That joins adjacent literal parts, and what the
doubling leaves open becomes an interpolation or a directive.
-/

namespace HclToJson

def Item.mapExprs (f : Expr → Expr) : Item → Item
  | mk layout (.ident name) value => mk layout (.ident name) (f value)
  | mk layout (.expr key) value => mk layout (.expr (f key)) (f value)

def Step.mapExprs (f : Expr → Expr) : Step → Step
  | index layout key => index layout (f key)
  | step => step

mutual

def Element.mapExprs (f : Expr → Expr) : Element → Element
  | .literal text => .literal text
  | .interpolation layout trim e => .interpolation layout trim (f e)
  | .choice layout ifTrim elseTrim endTrim condition yes no =>
      .choice layout ifTrim elseTrim endTrim (f condition) (Template.mapExprs f yes)
        (Template.mapElse f no)
  | .repetition layout forTrim endTrim loop collection body =>
      .repetition layout forTrim endTrim loop (f collection) (Template.mapExprs f body)
  termination_by structural part => part

def Template.mapExprs (f : Expr → Expr) : List Element → List Element
  | [] => []
  | part :: rest => Element.mapExprs f part :: Template.mapExprs f rest
  termination_by structural parts => parts

def Template.mapElse (f : Expr → Expr) : Option (List Element) → Option (List Element)
  | none => none
  | some parts => some (Template.mapExprs f parts)
  termination_by structural parts => parts

end

/-- A template read again from its text, or as it is if that is no template. -/
def Template.reread (parts : Template) : Template :=
  (Grammar.template? ((Spelling.elements parts).run false).1.flatten).getD parts

namespace Expr

/-- The expression with its templates read again, and those in them, for up to the given number of
levels. -/
def reread : Nat → Expr → Expr
  | 0, e => e
  | depth + 1, e =>
      match e with
      | null _ | bool .. | number .. | string .. | var .. => e
      | array layout items => array layout (items.map (reread depth))
      | object layout items => object layout (items.map (Item.mapExprs (reread depth)))
      | template layout parts =>
          template layout (Template.mapExprs (reread depth) (Template.reread parts))
      | heredoc layout indented parts =>
          heredoc layout indented (Template.mapExprs (reread depth) (Template.reread parts))
      | paren layout inner => paren layout (reread depth inner)
      | conditional layout condition yes no =>
          conditional layout (reread depth condition) (reread depth yes) (reread depth no)
      | call layout name arguments spread =>
          call layout name (arguments.map (reread depth)) spread
      | traversal layout base path =>
          traversal layout (reread depth base) (path.map (Step.mapExprs (reread depth)))
      | unary layout op operand => unary layout op (reread depth operand)
      | binary layout op left right => binary layout op (reread depth left) (reread depth right)
      | comprehension layout loop collection key value grouping filter =>
          comprehension layout loop (reread depth collection) (key.map (reread depth))
            (reread depth value) grouping (filter.map (reread depth))

/-- The expression as it is evaluated. Each level of it takes up at least one byte of its text. -/
def evaluable (e : Expr) : Expr := reread ((Spelling.exprText e).length + 1) e

end Expr

end HclToJson
