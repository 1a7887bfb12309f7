import HclToJson.Eval.Arithmetic

/-!
The order of binary operations. The grammar knows no precedence: the right operand of an operator
is all that follows it. Before operations are carried out they are grouped by precedence;
operators of the same level group to the right.
-/

namespace HclToJson

/-- The level of an operator; the operators of a higher level bind their operands more tightly. -/
def BinaryOp.level : BinaryOp → Nat
  | .or => 0
  | .and => 1
  | .eq | .ne => 2
  | .less | .lessEq | .greater | .greaterEq => 3
  | .add | .sub => 4
  | .mul | .div | .mod => 5

namespace Eval

inductive Operands
  | result (value : Except Failure Static)
  | operation (op : BinaryOp) (left right : Operands)

namespace Operands

/-- Puts an operand and its operator in front of operations that are grouped: behind the operand,
all operations of at least the operator's level become its right operand. -/
def prepend (op : BinaryOp) (left : Operands) : Operands → Operands
  | result value => operation op left (result value)
  | operation next middle last =>
      if next.level < op.level then operation next (prepend op left middle) last
      else operation op left (operation next middle last)

def group : Operands → Operands
  | result value => result value
  | operation op left right => prepend op left.group right.group

/-- The value of grouped operations: both operands are evaluated, the left one first. -/
def value (context : Expr) : Operands → Except Failure Static
  | result value => value
  | operation op left right => do
      applyBinary context op (← value context left) (← value context right)

def evaluate (context : Expr) (operands : Operands) : Except Failure Static :=
  operands.group.value context

end Operands

end Eval

end HclToJson
