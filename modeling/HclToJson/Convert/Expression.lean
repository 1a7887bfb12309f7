import HclToJson.Convert.Template
import HclToJson.Eval.Arithmetic

namespace HclToJson.Conversion

variable {δ : Type} [Counter δ]

/-- A unary operation on a literal becomes its value; any other stands for itself. -/
def unaryValue (c : Conversion) (layout : Layout) (op : UnaryOp) (operand : Expr) :
    Except ConvertError Value :=
  let whole := Expr.unary layout op operand
  match operand.literal? with
  | none => return .string (c.sourceText whole)
  | some literal =>
      match Eval.applyUnary op literal with
      | .ok value => return value.toValue
      | .error cause => throw (.evaluation (c.sourceText whole) cause whole)

/-- The key of an item. A variable or traversal is not resolved and never marked as an
interpolation. -/
def objectKey (c : Conversion) (depth : δ) : Key → Except ConvertError String
  | .ident name => return name
  | .expr (.var layout name) => return c.sourceText (.var layout name)
  | .expr (.traversal layout base path) => return c.sourceText (.traversal layout base path)
  | .expr e => stringPart c depth e

mutual

/-- The value of an expression. A quoted template that is a single interpolation has the value of
the expression in it. -/
def expression (c : Conversion) (depth : δ) : Expr → Except ConvertError Value
  | .null _ => do
      discard (c.descend depth)
      return .null
  | .bool _ value => do
      discard (c.descend depth)
      return .boolean value
  | .number _ value => do
      discard (c.descend depth)
      return value.toValue
  | .string _ value => do
      discard (c.descend depth)
      return .string value
  | .unary layout op operand => do
      discard (c.descend depth)
      c.unaryValue layout op operand
  | .template _ [.interpolation _ _ inner] => do
      expression c (← c.descend depth) inner
  | .template _ parts => do
      return .string (← template c (← c.descend depth) parts)
  | .heredoc _ _ parts => do
      return .string (← template c (← c.descend depth) parts)
  | .array _ items => do
      return .array (← expressions c (← c.descend depth) items)
  | .object _ items => do
      return .object (Entries.ofList (← objectItems c (← c.descend depth) items))
  | e => do
      discard (c.descend depth)
      return .string (c.verbatim e)
  termination_by structural e => e

def expressions (c : Conversion) (depth : δ) : List Expr → Except ConvertError (List Value)
  | [] => return []
  | e :: rest => do
      let value ← expression c depth e
      return value :: (← expressions c depth rest)
  termination_by structural items => items

def objectItems (c : Conversion) (depth : δ) :
    List Item → Except ConvertError (List (String × Value))
  | [] => return []
  | .mk _ key value :: rest => do
      let key ← objectKey c depth key
      let value ← expression c depth value
      return (key, value) :: (← objectItems c depth rest)
  termination_by structural items => items

end

end HclToJson.Conversion
