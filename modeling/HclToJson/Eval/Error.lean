import HclToJson.Canonical

namespace HclToJson.Eval

inductive Expected
  | boolean
  | array
  | object
  | arrayOrObject
  | keyValue
  | index
  | indexOrName
  deriving DecidableEq

def Expected.text : Expected → String
  | boolean => "a boolean"
  | array => "an array"
  | object => "an object"
  | arrayOrObject => "an array or object"
  | keyValue => "a string, boolean or number"
  | index => "an unsigned integer"
  | indexOrName => "an unsigned integer or string"

inductive Cause
  | undefinedVariable (name : String)
  | undefinedFunction (name : String)
  | unexpected (value : Static) (expected : Expected)
  | outOfBounds (index : Nat)
  | noSuchKey (key : String)
  | keyExists (key : String)
  | unaryNotApplicable (op : UnaryOp) (value : Static)
  | binaryNotApplicable (op : BinaryOp) (left right : Static)

def Cause.message : Cause → String
  | undefinedVariable name => s!"undefined variable `{name}`"
  | undefinedFunction name => s!"undefined function `{name}`"
  | unexpected value expected =>
      s!"unexpected value `{Canonical.value value}`, expected {expected.text}"
  | outOfBounds index => s!"index out of bounds: {index}"
  | noSuchKey key => s!"no such key: `{key}`"
  | keyExists key => s!"key `{key}` already exists"
  | unaryNotApplicable op value =>
      s!"unary operator `{op.text}` is not applicable to `{Canonical.value value}`"
  | binaryNotApplicable op left right =>
      s!"binary operator `{op.text}` is not applicable to `{Canonical.value left}` and " ++
        s!"`{Canonical.value right}`"

/-- An operation that the arithmetic of integers does not survive. -/
inductive Fault
  | remainderByZero
  | remainderOverflow
  deriving DecidableEq

def Fault.message : Fault → String
  | remainderByZero => "attempt to calculate the remainder with a divisor of zero"
  | remainderOverflow => "attempt to calculate the remainder with overflow"

/-- Why an evaluation ended without a value: an error in an expression, or a fault, which ends
everything. -/
inductive Failure
  | error (cause : Cause) (context : Expr)
  | fault (fault : Fault)

/-- The message for an error in the context of an expression. -/
def errorMessage (cause : Cause) (context : Expr) : String :=
  s!"{cause.message} in expression `{Canonical.expr context}`"

end HclToJson.Eval
