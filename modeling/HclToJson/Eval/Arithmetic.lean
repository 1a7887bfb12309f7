import HclToJson.Eval.Error

namespace HclToJson

inductive NumberPair
  | ints (left right : Int)
  | floats (left right : Float)

def Number.pair : Number → Number → NumberPair
  | .int a _, .int b _ =>
      if (0 ≤ a ∧ 0 ≤ b) ∨ (a < 0 ∧ b < 0) then .ints a b
      else .floats (Float.ofInt a) (Float.ofInt b)
  | a, b => .floats a.toFloat b.toFloat

namespace Eval

def floatRemainder (a b : Float) : Float :=
  match BinaryFraction.ofFloat? a, BinaryFraction.ofFloat? b with
  | some x, some y => if y.mantissa = 0 then 0.0 / 0.0 else (x.remainder y).toFloat
  | some _, none => if b.isNaN then b else a
  | none, _ => 0.0 / 0.0

def intRemainder (a b : Int) : Except Fault Int :=
  if b = 0 then throw .remainderByZero
  else if a = -0x8000_0000_0000_0000 ∧ b = -1 then throw .remainderOverflow
  else return a.tmod b

/-- The result of an arithmetic operator, none for an operator that is not arithmetic. -/
def arithmetic? (op : BinaryOp) (a b : Number) : Option (Except Fault Number) :=
  match op, a.pair b with
  | .add, .ints x y => some (return .ofInt (x + y))
  | .add, .floats x y => some (return .ofFloat (x + y))
  | .sub, .ints x y => some (return .ofInt (x - y))
  | .sub, .floats x y => some (return .ofFloat (x - y))
  | .mul, .ints x y => some (return .ofInt (x * y))
  | .mul, .floats x y => some (return .ofFloat (x * y))
  | .div, _ => some (return .ofFloat (a.toFloat / b.toFloat))
  | .mod, .ints x y => some ((intRemainder x y).map .ofInt)
  | .mod, .floats x y => some (return .ofFloat (floatRemainder x y))
  | _, _ => none

/-- The result of a comparison, none for an operator that is not an order. -/
def compare? (op : BinaryOp) (a b : Number) : Option Bool :=
  match op, a.pair b with
  | .less, .ints x y => some (x < y)
  | .less, .floats x y => some (x < y)
  | .lessEq, .ints x y => some (x ≤ y)
  | .lessEq, .floats x y => some (x ≤ y)
  | .greater, .ints x y => some (y < x)
  | .greater, .floats x y => some (y < x)
  | .greaterEq, .ints x y => some (y ≤ x)
  | .greaterEq, .floats x y => some (y ≤ x)
  | _, _ => none

mutual

/-- Whether two values are the same; the order of an object's keys does not matter. -/
def same : Static → Static → Bool
  | .null, .null => true
  | .bool a, .bool b => a = b
  | .number a, .number b => a.same b
  | .string a, .string b => a = b
  | .array as, .array bs => sameItems as bs
  | .object as, .object bs => as.length = bs.length && sameEntries as bs
  | _, _ => false

def sameItems : List Static → List Static → Bool
  | [], [] => true
  | a :: as, b :: bs => same a b && sameItems as bs
  | _, _ => false

/-- Whether each entry of a list has its key and value in another list. -/
def sameEntries : List (String × Static) → List (String × Static) → Bool
  | [], _ => true
  | (key, value) :: rest, others =>
      (match Entries.get? others key with
        | some other => same value other
        | none => false) && sameEntries rest others

end

def applyBinary (context : Expr) (op : BinaryOp) (left right : Static) : Except Failure Static :=
  let notApplicable := Failure.error (.binaryNotApplicable op left right) context
  match op, left, right with
  | .eq, _, _ => return .bool (same left right)
  | .ne, _, _ => return .bool !(same left right)
  | .and, .bool a, .bool b => return .bool (a && b)
  | .or, .bool a, .bool b => return .bool (a || b)
  | _, .number a, .number b =>
      match arithmetic? op a b, compare? op a b with
      | some result, _ =>
          match result with
          | .ok number => return .number number
          | .error fault => throw (.fault fault)
      | none, some result => return .bool result
      | none, none => throw notApplicable
  | _, _, _ => throw notApplicable

def applyUnary (op : UnaryOp) (operand : Static) : Except Cause Static :=
  match op, operand with
  | .neg, .number n => return .number (-n)
  | .not, .bool b => return .bool !b
  | _, _ => throw (.unaryNotApplicable op operand)

end Eval

end HclToJson
