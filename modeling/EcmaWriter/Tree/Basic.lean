import EcmaWriter.Identifier
import EcmaWriter.Tree.Operator

/-!
# EcmaWriter - Syntax trees

A program as data: expressions, statements and types contain one another, and a
module is a list of definitions followed by statements.

Main definitions:

- `Expr`, `Statement`, `TypeExpr`: the three kinds of nodes.
- `Definition`, `Module`: the top of a tree.
-/

namespace EcmaWriter

mutual

/-- An expression. -/
inductive Expr
  | number (value : Int32)
  | string (value : String)
  | boolean (value : Bool)
  | null
  | undefined
  | unary (op : UnaryOperator) (operand : Expr)
  | binary (op : BinaryOperator) (left right : Expr)
  | conditional (condition thenExpr elseExpr : Expr)
  | array (items : List ArrayItem)
  | object (members : List Member)
  | lambda (isAsync : Bool) (typeParameters : List TypeParameter)
      (parameters : List Parameter) (returnType : Option TypeExpr) (body : List Statement)
  /-- A name bound in the module. -/
  | reference (name : Identifier)
  /-- A built-in value. -/
  | global (name : Identifier)
  /-- An export of another module. -/
  | imported (path name : String)
  | get (base property : Expr)
  | call (callee : Expr) (arguments : List Expr)
  | new (callee : Expr) (arguments : List Expr)
  | assertion (expr : Expr) (type : TypeExpr)
  | instantiation (expr : Expr) (arguments : List TypeExpr)

/-- An item of an array literal. -/
structure ArrayItem where
  expr : Expr
  spread : Bool

/-- A member of an object literal. -/
inductive Member
  | spread (expr : Expr)
  | keyValue (key value : Expr)

/-- A parameter of a lambda or local function. -/
structure Parameter where
  name : Identifier
  type : Option TypeExpr

/-- A type parameter. One without a constraint can be any type. -/
structure TypeParameter where
  name : Identifier
  constraint : Option TypeExpr

/-- A statement. -/
inductive Statement
  | evaluate (expr : Expr)
  | set (target : Expr) (op : Option AssignmentOperator) (value : Expr)
  /-- A conditional statement. Without else statements there is no else. -/
  | ifElse (condition : Expr) (thenBody elseBody : List Statement)
  | throwError (expr : Expr)
  | returnValue (expr : Expr)
  | returnVoid
  | continueLoop
  | breakLoop
  /-- The declaration of a variable. -/
  | binding (isConst : Bool) (name : Identifier) (type : Option TypeExpr) (value : Expr)
  | function (isAsync : Bool) (name : Identifier) (typeParameters : List TypeParameter)
      (parameters : List Parameter) (returnType : TypeExpr) (body : List Statement)
  /-- A loop that counts from zero up to a bound. -/
  | forCount (counter : Identifier) (bound : Expr) (body : List Statement)
  | forOf (element : Identifier) (iterable : Expr) (body : List Statement)
  | whileTrue (body : List Statement)
  | switch (subject : Expr) (cases : List SwitchCase)
  | tryCatch (body : List Statement) (parameter : Identifier) (handler : List Statement)

/-- A case of a switch statement, for one string. -/
structure SwitchCase where
  label : String
  body : List Statement

/-- A type. -/
inductive TypeExpr
  | number
  | string
  | boolean
  | undefined
  | null
  | never
  | void
  | unknown
  | object (members : List MemberType)
  | function (typeParameters : List TypeParameter) (parameters : List TypeExpr)
      (result : TypeExpr)
  /-- A union. An empty one has no values. -/
  | union (types : List TypeExpr)
  | intersection (left right : TypeExpr)
  /-- A type that another module exports. -/
  | imported (path : String) (name : Identifier) (arguments : List TypeExpr)
  /-- A type alias or type parameter of the module. -/
  | inFile (name : Identifier) (arguments : List TypeExpr)
  /-- A built-in type. -/
  | global (name : Identifier) (arguments : List TypeExpr)
  /-- A type inside global namespaces. -/
  | namespaced (path : List Identifier) (name : Identifier) (arguments : List TypeExpr)
  | stringLiteral (value : String)
  | uniqueSymbol

/-- A member of an object type. -/
structure MemberType where
  name : PropertyName
  required : Bool
  readonly : Bool
  type : TypeExpr
  document : String

/-- The name of a member of an object type. -/
inductive PropertyName
  | string (name : String)
  /-- A name that is computed. -/
  | computed (expr : Expr)

end

/-- A parameter of a function definition. -/
structure DocumentedParameter where
  name : Identifier
  document : String
  type : TypeExpr

/-- The parameter without its document. -/
def DocumentedParameter.toParameter (p : DocumentedParameter) : Parameter :=
  ⟨p.name, some p.type⟩

/-- The definition of a type alias. -/
structure TypeAlias where
  exported : Bool
  name : Identifier
  typeParameters : List TypeParameter
  document : String
  type : TypeExpr

/-- The definition of a function. -/
structure FunctionDefinition where
  exported : Bool
  isAsync : Bool
  name : Identifier
  document : String
  typeParameters : List TypeParameter
  parameters : List DocumentedParameter
  returnType : TypeExpr
  body : List Statement

/-- The definition of a variable. -/
structure VariableDefinition where
  exported : Bool
  name : Identifier
  document : String
  type : Option TypeExpr
  value : Expr

/-- A definition at the top of a module. -/
inductive Definition
  | typeAlias (definition : TypeAlias)
  | function (definition : FunctionDefinition)
  | binding (definition : VariableDefinition)

/-- A module: definitions, and statements that run after them. -/
structure Module where
  definitions : List Definition
  statements : List Statement

namespace Statement

/-- The name that a statement declares in its block. -/
def declared? : Statement → Option Identifier
  | .binding _ name _ _ => some name
  | .function _ name _ _ _ _ => some name
  | _ => none

end Statement

/-- The names declared directly in a block. All its statements see them, those
before the declaration too. -/
def blockBindings (statements : List Statement) : List Identifier :=
  statements.filterMap Statement.declared?

namespace Definition

/-- The name that a definition gives to a type. -/
def typeName? : Definition → Option Identifier
  | .typeAlias a => some a.name
  | _ => none

/-- The name that a definition gives to a value. -/
def valueName? : Definition → Option Identifier
  | .typeAlias _ => none
  | .function f => some f.name
  | .binding b => some b.name

end Definition

namespace Module

/-- The names of a module's type aliases. -/
def typeNames (m : Module) : List Identifier :=
  m.definitions.filterMap Definition.typeName?

/-- The names of a module's functions and variables. -/
def valueNames (m : Module) : List Identifier :=
  m.definitions.filterMap Definition.valueName?

end Module

end EcmaWriter
