/-!
# EcmaWriter - Dialects and operators

Main definitions:

- `Dialect`: whether types are written.
- `UnaryOperator`, `BinaryOperator`, `AssignmentOperator`: operators, with their
  names in the JSON form and the marks they are written as.
-/

namespace EcmaWriter

/-- The language that is written. JavaScript leaves everything about types out. -/
inductive Dialect
  | typeScript
  | javaScript
deriving DecidableEq

/-- Dialects by name. -/
def Dialect.names : List (String × Dialect) :=
  [("TypeScript", .typeScript), ("JavaScript", .javaScript)]

/-- Operators before an operand. -/
inductive UnaryOperator
  | minus
  | bitwiseNot
  | logicalNot
  | typeOf
  | await
deriving DecidableEq

/-- Unary operators by name. -/
def UnaryOperator.names : List (String × UnaryOperator) :=
  [("Minus", .minus), ("BitwiseNot", .bitwiseNot), ("LogicalNot", .logicalNot),
    ("TypeOf", .typeOf), ("Await", .await)]

/-- Operators between two operands. -/
inductive BinaryOperator
  | exponentiation
  | multiplication
  | division
  | remainder
  | addition
  | subtraction
  | leftShift
  | signedRightShift
  | unsignedRightShift
  | lessThan
  | lessThanOrEqual
  | equal
  | notEqual
  | bitwiseAnd
  | bitwiseXor
  | bitwiseOr
  | logicalAnd
  | logicalOr
  | nullishCoalescing
deriving DecidableEq

namespace BinaryOperator

/-- Binary operators by name. -/
def names : List (String × BinaryOperator) :=
  [("Exponentiation", .exponentiation), ("Multiplication", .multiplication),
    ("Division", .division), ("Remainder", .remainder), ("Addition", .addition),
    ("Subtraction", .subtraction), ("LeftShift", .leftShift),
    ("SignedRightShift", .signedRightShift), ("UnsignedRightShift", .unsignedRightShift),
    ("LessThan", .lessThan), ("LessThanOrEqual", .lessThanOrEqual), ("Equal", .equal),
    ("NotEqual", .notEqual), ("BitwiseAnd", .bitwiseAnd), ("BitwiseXor", .bitwiseXor),
    ("BitwiseOr", .bitwiseOr), ("LogicalAnd", .logicalAnd), ("LogicalOr", .logicalOr),
    ("NullishCoalescing", .nullishCoalescing)]

/-- The mark between the operands. -/
def mark : BinaryOperator → String
  | exponentiation => "**"
  | multiplication => "*"
  | division => "/"
  | remainder => "%"
  | addition => "+"
  | subtraction => "-"
  | leftShift => "<<"
  | signedRightShift => ">>"
  | unsignedRightShift => ">>>"
  | lessThan => "<"
  | lessThanOrEqual => "<="
  | equal => "==="
  | notEqual => "!=="
  | bitwiseAnd => "&"
  | bitwiseXor => "^"
  | bitwiseOr => "|"
  | logicalAnd => "&&"
  | logicalOr => "||"
  | nullishCoalescing => "??"

end BinaryOperator

/-- Operators that an assignment can be combined with. Comparisons cannot. -/
inductive AssignmentOperator
  | exponentiation
  | multiplication
  | division
  | remainder
  | addition
  | subtraction
  | leftShift
  | signedRightShift
  | unsignedRightShift
  | bitwiseAnd
  | bitwiseXor
  | bitwiseOr
  | logicalAnd
  | logicalOr
  | nullishCoalescing
deriving DecidableEq

namespace AssignmentOperator

/-- Assignment operators by name. -/
def names : List (String × AssignmentOperator) :=
  [("Exponentiation", .exponentiation), ("Multiplication", .multiplication),
    ("Division", .division), ("Remainder", .remainder), ("Addition", .addition),
    ("Subtraction", .subtraction), ("LeftShift", .leftShift),
    ("SignedRightShift", .signedRightShift), ("UnsignedRightShift", .unsignedRightShift),
    ("BitwiseAnd", .bitwiseAnd), ("BitwiseXor", .bitwiseXor), ("BitwiseOr", .bitwiseOr),
    ("LogicalAnd", .logicalAnd), ("LogicalOr", .logicalOr),
    ("NullishCoalescing", .nullishCoalescing)]

/-- The mark between target and value. -/
def mark : AssignmentOperator → String
  | exponentiation => "**="
  | multiplication => "*="
  | division => "/="
  | remainder => "%="
  | addition => "+="
  | subtraction => "-="
  | leftShift => "<<="
  | signedRightShift => ">>="
  | unsignedRightShift => ">>>="
  | bitwiseAnd => "&="
  | bitwiseXor => "^="
  | bitwiseOr => "|="
  | logicalAnd => "&&="
  | logicalOr => "||="
  | nullishCoalescing => "??="

end AssignmentOperator

/-- The name that stands for a value. -/
def nameIn {α : Type} [DecidableEq α] (names : List (String × α)) (a : α) : String :=
  match names.find? fun entry => entry.2 = a with
  | some entry => entry.1
  | none => ""

theorem lookup_nameIn_dialect (d : Dialect) :
    Dialect.names.lookup (nameIn Dialect.names d) = some d := by
  cases d <;> decide

theorem lookup_nameIn_unary (op : UnaryOperator) :
    UnaryOperator.names.lookup (nameIn UnaryOperator.names op) = some op := by
  cases op <;> decide

theorem lookup_nameIn_binary (op : BinaryOperator) :
    BinaryOperator.names.lookup (nameIn BinaryOperator.names op) = some op := by
  cases op <;> decide

theorem lookup_nameIn_assignment (op : AssignmentOperator) :
    AssignmentOperator.names.lookup (nameIn AssignmentOperator.names op) = some op := by
  cases op <;> decide

end EcmaWriter
