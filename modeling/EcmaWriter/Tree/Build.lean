import EcmaWriter.Tree.Basic

/-!
# EcmaWriter - Building trees

Short ways to write common trees. Names are given as any text and become
identifiers; what is not mentioned gets its usual value.

Main definitions:

- in `Build`: functions for expressions, statements, types and their parts.
-/

namespace EcmaWriter

namespace Build

/-! ## Expressions -/

/-- A name bound in the module. -/
def variableNamed (name : String) : Expr :=
  .reference (Identifier.ofString name)

/-- A built-in value. -/
def globalObject (name : String) : Expr :=
  .global (Identifier.ofString name)

/-- A member whose name is known. -/
def get (base : Expr) (property : String) : Expr :=
  .get base (.string property)

/-- A call of a method. -/
def callMethod (base : Expr) (method : String) (arguments : List Expr) : Expr :=
  .call (get base method) arguments

/-- The negative of an expression. -/
def minus (e : Expr) : Expr :=
  .unary .minus e

/-- The negation of an expression. -/
def logicalNot (e : Expr) : Expr :=
  .unary .logicalNot e

/-- The name of the type of an expression's value. -/
def typeOf (e : Expr) : Expr :=
  .unary .typeOf e

/-- The value of a promise. -/
def await (e : Expr) : Expr :=
  .unary .await e

/-- A power. -/
def exponentiation (left right : Expr) : Expr :=
  .binary .exponentiation left right

/-- A product. -/
def multiplication (left right : Expr) : Expr :=
  .binary .multiplication left right

/-- A sum. -/
def addition (left right : Expr) : Expr :=
  .binary .addition left right

/-- A difference. -/
def subtraction (left right : Expr) : Expr :=
  .binary .subtraction left right

/-- Whether the left operand is less. -/
def lessThan (left right : Expr) : Expr :=
  .binary .lessThan left right

/-- Whether the operands are equal. -/
def equal (left right : Expr) : Expr :=
  .binary .equal left right

/-- Whether the operands differ. -/
def notEqual (left right : Expr) : Expr :=
  .binary .notEqual left right

/-- Whether both operands hold. -/
def logicalAnd (left right : Expr) : Expr :=
  .binary .logicalAnd left right

/-- Whether one of the operands holds. -/
def logicalOr (left right : Expr) : Expr :=
  .binary .logicalOr left right

/-- The left operand, or the right one if the left is null or undefined. -/
def nullishCoalescing (left right : Expr) : Expr :=
  .binary .nullishCoalescing left right

/-- An array of single items. -/
def arrayLiteral (items : List Expr) : Expr :=
  .array (items.map fun e => ⟨e, false⟩)

/-- A member of an object literal whose name is known. -/
def memberKeyValue (key : String) (value : Expr) : Member :=
  .keyValue (.string key) value

/-- A parameter with its type. -/
def parameter (name : String) (type : TypeExpr) : Parameter :=
  ⟨Identifier.ofString name, some type⟩

/-- A lambda that is neither async nor generic. -/
def lambda (parameters : List Parameter) (returnType : TypeExpr) (body : List Statement) :
    Expr :=
  .lambda false [] parameters (some returnType) body

/-! ## Statements -/

/-- Print an expression to the console. -/
def consoleLog (e : Expr) : Statement :=
  .evaluate (callMethod (globalObject "console") "log" [e])

/-- A conditional statement without else. -/
def statementIf (condition : Expr) (body : List Statement) : Statement :=
  .ifElse condition body []

/-- The declaration of a constant. -/
def statementConst (name : String) (type : Option TypeExpr) (value : Expr) : Statement :=
  .binding true (Identifier.ofString name) type value

/-- The declaration of a variable. -/
def statementLet (name : String) (type : Option TypeExpr) (value : Expr) : Statement :=
  .binding false (Identifier.ofString name) type value

/-! ## Types -/

/-- A type parameter without a constraint. -/
def typeParameter (name : String) : TypeParameter :=
  ⟨Identifier.ofString name, none⟩

/-- A member of an object type that is required and readonly. -/
def memberType (name : String) (type : TypeExpr) : MemberType :=
  ⟨.string name, true, true, type, ""⟩

/-- A type of the module without arguments. -/
def typeInFile (name : String) : TypeExpr :=
  .inFile (Identifier.ofString name) []

/-- A built-in type. -/
def typeGlobal (name : String) (arguments : List TypeExpr) : TypeExpr :=
  .global (Identifier.ofString name) arguments

/-- A type of another module, without arguments. -/
def typeImported (path name : String) : TypeExpr :=
  .imported path (Identifier.ofString name) []

/-- A promise of a value. -/
def promiseType (type : TypeExpr) : TypeExpr :=
  typeGlobal "Promise" [type]

/-- An array that is only read. -/
def readonlyArrayType (type : TypeExpr) : TypeExpr :=
  typeGlobal "ReadonlyArray" [type]

/-- A date. -/
def dateType : TypeExpr :=
  typeGlobal "Date" []

end Build

end EcmaWriter
