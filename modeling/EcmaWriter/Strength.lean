import EcmaWriter.Tree.Basic

/-!
# EcmaWriter - Binding strength

How tightly an expression holds together, and from it where parentheses are
needed. Every place for an operand has a least strength; an operand that is weaker
is put in parentheses. Nodes that leave nothing behind in JavaScript are looked
through, so that what counts is what is written.

Main definitions:

- `Strength`: strengths by name.
- `Expr.written`: the node that is written for an expression.
- `Expr.strength`, `Expr.operandStrength`: strength of an expression.
- `BinaryOperator.wraps`: whether an operand of an operator needs parentheses.
-/

namespace EcmaWriter

/-- How tightly an expression holds together; more is tighter. -/
abbrev Strength : Type :=
  Nat

namespace Strength

/-- Literals, references and instantiations. -/
def primary : Strength := 23

/-- A lambda that stands alone. -/
def lambda : Strength := 22

/-- Object literals. -/
def objectLiteral : Strength := 21

/-- Member access, calls and `new`. -/
def callMember : Strength := 20

/-- Unary operators and negative numbers. -/
def unary : Strength := 17

/-- Conditional expressions. -/
def conditional : Strength := 4

/-- Type assertions. -/
def assertion : Strength := 3

/-- A lambda as an operand, which is put in parentheses in every such place. -/
def lambdaOperand : Strength := 2

end Strength

/-! ## Operators -/

/-- The two sides of a binary operator. -/
inductive Side
  | left
  | right
deriving DecidableEq

namespace BinaryOperator

/-- Strength of an expression with this operator. -/
def strength : BinaryOperator → Strength
  | exponentiation => 16
  | multiplication | division | remainder => 15
  | addition | subtraction => 14
  | leftShift | signedRightShift | unsignedRightShift => 13
  | lessThan | lessThanOrEqual => 12
  | equal | notEqual => 11
  | bitwiseAnd => 10
  | bitwiseXor => 9
  | bitwiseOr => 8
  | logicalAnd => 6
  | logicalOr | nullishCoalescing => 5

/-- The side on which the operator may repeat without parentheses. -/
def repeats : BinaryOperator → Side
  | exponentiation => .right
  | _ => .left

/-- The least strength of an operand on a side. On the side where the operator
does not repeat, an operand must be tighter than the operator. -/
def least (op : BinaryOperator) (side : Side) : Strength :=
  if side = op.repeats then op.strength else op.strength + 1

end BinaryOperator

/-! ## Expressions -/

namespace Expr

/-- The node that is written for an expression. JavaScript has neither type
assertions nor instantiations. -/
def written (dialect : Dialect) : Expr → Expr
  | .assertion e t =>
    match dialect with
    | .typeScript => .assertion e t
    | .javaScript => e.written dialect
  | .instantiation e ts =>
    match dialect with
    | .typeScript => .instantiation e ts
    | .javaScript => e.written dialect
  | e => e

/-- Strength of the node that is written. -/
def writtenStrength : Expr → Strength
  | .number value => if value < 0 then .unary else .primary
  | .string _ => .primary
  | .boolean _ => .primary
  | .null => .primary
  | .undefined => .primary
  | .array _ => .primary
  | .reference _ => .primary
  | .global _ => .primary
  | .imported _ _ => .primary
  | .instantiation _ _ => .primary
  | .lambda _ _ _ _ _ => .lambda
  | .object _ => .objectLiteral
  | .get _ _ => .callMember
  | .call _ _ => .callMember
  | .new _ _ => .callMember
  | .unary _ _ => .unary
  | .binary op _ _ => op.strength
  | .conditional _ _ _ => .conditional
  | .assertion _ _ => .assertion

/-- Strength of an expression that stands alone. -/
def strength (dialect : Dialect) (e : Expr) : Strength :=
  (e.written dialect).writtenStrength

/-- Strength of an expression as an operand, a callee or the base of a member
access. -/
def operandStrength (dialect : Dialect) (e : Expr) : Strength :=
  match e.written dialect with
  | .lambda _ _ _ _ _ => .lambdaOperand
  | e => e.writtenStrength

/-- Whether an expression starts with a unary operator or a sign, which cannot be
the base of a power. -/
def isUnaryLike (dialect : Dialect) (e : Expr) : Bool :=
  match e.written dialect with
  | .unary _ _ => true
  | .number value => value < 0
  | _ => false

/-- The binary operator of the node that is written. -/
def binaryOperator? (dialect : Dialect) (e : Expr) : Option BinaryOperator :=
  match e.written dialect with
  | .binary op _ _ => some op
  | _ => none

/-- Whether a callee has a call in its chain of members. After `new` the first
argument list would be taken for the constructor's own. -/
def hasCallInChain (dialect : Dialect) : Expr → Bool
  | .call _ _ => true
  | .get base _ => base.hasCallInChain dialect
  | .instantiation e _ => e.hasCallInChain dialect
  | .assertion e _ =>
    match dialect with
    | .typeScript => false
    | .javaScript => e.hasCallInChain dialect
  | _ => false

end Expr

/-! ## Operands of binary operators -/

namespace BinaryOperator

/-- Whether `??` stands directly beside `&&` or `||`, which needs parentheses
whatever their strengths. -/
def mixesWith : BinaryOperator → BinaryOperator → Bool
  | nullishCoalescing, logicalAnd => true
  | nullishCoalescing, logicalOr => true
  | logicalAnd, nullishCoalescing => true
  | logicalOr, nullishCoalescing => true
  | _, _ => false

/-- Whether an operand on a side needs parentheses. -/
def wraps (dialect : Dialect) (op : BinaryOperator) (side : Side) (operand : Expr) : Bool :=
  operand.operandStrength dialect < op.least side
    || (side = .left && op = .exponentiation && operand.isUnaryLike dialect)
    || (operand.binaryOperator? dialect).any op.mixesWith

end BinaryOperator

end EcmaWriter
