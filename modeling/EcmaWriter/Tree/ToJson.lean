import EcmaWriter.Json.Value
import EcmaWriter.Tree.Basic

/-!
# EcmaWriter - The JSON form of trees

Every tree has a JSON form. A record is an object with all its fields in the order
of declaration, a choice between variants is an object with `type` and, for a
variant with contents, `value`. An absent option is `null`.

Main definitions:

- `Expr.toJson`, `Statement.toJson`, `TypeExpr.toJson`: nodes.
- `Module.toJson`: whole modules.
-/

namespace EcmaWriter

namespace Json

/-- A variant without contents. -/
def bare (name : String) : Json :=
  .object [("type", .string name)]

/-- A variant with contents. -/
def carrying (name : String) (contents : Json) : Json :=
  .object [("type", .string name), ("value", contents)]

/-- An identifier. -/
def identifier (name : Identifier) : Json :=
  .string name.text

end Json

open Json (bare carrying identifier)

/-- A name from a list of names. -/
def choiceToJson {α : Type} [DecidableEq α] (names : List (String × α)) (a : α) : Json :=
  .string (nameIn names a)

/-- The operator of an assignment, if it has one. -/
def assignmentToJson : Option AssignmentOperator → Json
  | none => .null
  | some op => choiceToJson AssignmentOperator.names op

mutual

/-- The JSON form of an expression. -/
def Expr.toJson : Expr → Json
  | .number value => carrying "NumberLiteral" (.number value.toInt)
  | .string value => carrying "StringLiteral" (.string value)
  | .boolean value => carrying "BooleanLiteral" (.boolean value)
  | .null => bare "NullLiteral"
  | .undefined => bare "UndefinedLiteral"
  | .unary op operand => carrying "UnaryOperator" (.object [
      ("operator", choiceToJson UnaryOperator.names op),
      ("expr", operand.toJson)])
  | .binary op left right => carrying "BinaryOperator" (.object [
      ("operator", choiceToJson BinaryOperator.names op),
      ("left", left.toJson),
      ("right", right.toJson)])
  | .conditional condition thenExpr elseExpr => carrying "ConditionalOperator" (.object [
      ("condition", condition.toJson),
      ("then_expr", thenExpr.toJson),
      ("else_expr", elseExpr.toJson)])
  | .array items => carrying "ArrayLiteral" (.array (ArrayItem.listToJson items))
  | .object members => carrying "ObjectLiteral" (.array (Member.listToJson members))
  | .lambda isAsync typeParameters parameters returnType body => carrying "Lambda" (.object [
      ("is_async", .boolean isAsync),
      ("type_parameters", .array (TypeParameter.listToJson typeParameters)),
      ("parameters", .array (Parameter.listToJson parameters)),
      ("return_type", TypeExpr.optionToJson returnType),
      ("statements", .array (Statement.listToJson body))])
  | .reference name => carrying "Variable" (identifier name)
  | .global name => carrying "GlobalObject" (identifier name)
  | .imported path name => carrying "ImportedVariable" (.object [
      ("module_path", .string path),
      ("name", .string name)])
  | .get base property => carrying "Get" (.object [
      ("expr", base.toJson),
      ("property", property.toJson)])
  | .call callee arguments => carrying "Call" (.object [
      ("expr", callee.toJson),
      ("arguments", .array (Expr.listToJson arguments))])
  | .new callee arguments => carrying "New" (.object [
      ("expr", callee.toJson),
      ("arguments", .array (Expr.listToJson arguments))])
  | .assertion expr type => carrying "TypeAssertion" (.object [
      ("expr", expr.toJson),
      ("ty", type.toJson)])
  | .instantiation expr arguments => carrying "WithTypeArguments" (.object [
      ("expr", expr.toJson),
      ("type_arguments", .array (TypeExpr.listToJson arguments))])

/-- The JSON forms of expressions. -/
def Expr.listToJson : List Expr → List Json
  | [] => []
  | e :: es => e.toJson :: Expr.listToJson es

/-- The JSON forms of array items. -/
def ArrayItem.listToJson : List ArrayItem → List Json
  | [] => []
  | ⟨expr, spread⟩ :: items => .object [
      ("expr", expr.toJson),
      ("spread", .boolean spread)] :: ArrayItem.listToJson items

/-- The JSON forms of members of an object literal. -/
def Member.listToJson : List Member → List Json
  | [] => []
  | .spread expr :: members => carrying "Spread" expr.toJson :: Member.listToJson members
  | .keyValue key value :: members => carrying "KeyValue" (.object [
      ("key", key.toJson),
      ("value", value.toJson)]) :: Member.listToJson members

/-- The JSON forms of parameters. -/
def Parameter.listToJson : List Parameter → List Json
  | [] => []
  | ⟨name, type⟩ :: parameters => .object [
      ("name", identifier name),
      ("ty", TypeExpr.optionToJson type)] :: Parameter.listToJson parameters

/-- The JSON forms of type parameters. -/
def TypeParameter.listToJson : List TypeParameter → List Json
  | [] => []
  | ⟨name, constraint⟩ :: parameters => .object [
      ("name", identifier name),
      ("constraint", TypeExpr.optionToJson constraint)] :: TypeParameter.listToJson parameters

/-- The JSON form of a statement. -/
def Statement.toJson : Statement → Json
  | .evaluate expr => carrying "EvaluateExpr" expr.toJson
  | .set target op value => carrying "Set" (.object [
      ("target", target.toJson),
      ("operator", assignmentToJson op),
      ("expr", value.toJson)])
  | .ifElse condition thenBody elseBody => carrying "If" (.object [
      ("condition", condition.toJson),
      ("then_statements", .array (Statement.listToJson thenBody)),
      ("else_statements", .array (Statement.listToJson elseBody))])
  | .throwError expr => carrying "ThrowError" expr.toJson
  | .returnValue expr => carrying "Return" expr.toJson
  | .returnVoid => bare "ReturnVoid"
  | .continueLoop => bare "Continue"
  | .breakLoop => bare "Break"
  | .binding isConst name type value => carrying "VariableDefinition" (.object [
      ("is_const", .boolean isConst),
      ("name", identifier name),
      ("ty", TypeExpr.optionToJson type),
      ("expr", value.toJson)])
  | .function isAsync name typeParameters parameters returnType body =>
    carrying "FunctionDefinition" (.object [
      ("is_async", .boolean isAsync),
      ("name", identifier name),
      ("type_parameters", .array (TypeParameter.listToJson typeParameters)),
      ("parameters", .array (Parameter.listToJson parameters)),
      ("return_type", returnType.toJson),
      ("statements", .array (Statement.listToJson body))])
  | .forCount counter bound body => carrying "For" (.object [
      ("counter", identifier counter),
      ("until", bound.toJson),
      ("statements", .array (Statement.listToJson body))])
  | .forOf element iterable body => carrying "ForOf" (.object [
      ("element", identifier element),
      ("iterable", iterable.toJson),
      ("statements", .array (Statement.listToJson body))])
  | .whileTrue body => carrying "WhileTrue" (.array (Statement.listToJson body))
  | .switch subject cases => carrying "Switch" (.object [
      ("expr", subject.toJson),
      ("patterns", .array (SwitchCase.listToJson cases))])
  | .tryCatch body parameter handler => carrying "TryCatch" (.object [
      ("try_statements", .array (Statement.listToJson body)),
      ("catch_parameter", identifier parameter),
      ("catch_statements", .array (Statement.listToJson handler))])

/-- The JSON forms of statements. -/
def Statement.listToJson : List Statement → List Json
  | [] => []
  | s :: ss => s.toJson :: Statement.listToJson ss

/-- The JSON forms of cases. -/
def SwitchCase.listToJson : List SwitchCase → List Json
  | [] => []
  | ⟨label, body⟩ :: cases => .object [
      ("case_string", .string label),
      ("statements", .array (Statement.listToJson body))] :: SwitchCase.listToJson cases

/-- The JSON form of a type. -/
def TypeExpr.toJson : TypeExpr → Json
  | .number => bare "Number"
  | .string => bare "String"
  | .boolean => bare "Boolean"
  | .undefined => bare "Undefined"
  | .null => bare "Null"
  | .never => bare "Never"
  | .void => bare "Void"
  | .unknown => bare "Unknown"
  | .object members => carrying "Object" (.array (MemberType.listToJson members))
  | .function typeParameters parameters result => carrying "Function" (.object [
      ("type_parameters", .array (TypeParameter.listToJson typeParameters)),
      ("parameters", .array (TypeExpr.listToJson parameters)),
      ("return_type", result.toJson)])
  | .union types => carrying "Union" (.array (TypeExpr.listToJson types))
  | .intersection left right => carrying "Intersection" (.object [
      ("left", left.toJson),
      ("right", right.toJson)])
  | .imported path name arguments => carrying "ImportedType" (.object [
      ("module_path", .string path),
      ("name_and_arguments", .object [
        ("name", identifier name),
        ("arguments", .array (TypeExpr.listToJson arguments))])])
  | .inFile name arguments => carrying "ScopeInFile" (.object [
      ("name", identifier name),
      ("arguments", .array (TypeExpr.listToJson arguments))])
  | .global name arguments => carrying "ScopeInGlobal" (.object [
      ("name", identifier name),
      ("arguments", .array (TypeExpr.listToJson arguments))])
  | .namespaced path name arguments => carrying "WithNamespace" (.object [
      ("namespace", .array (path.map identifier)),
      ("name_and_arguments", .object [
        ("name", identifier name),
        ("arguments", .array (TypeExpr.listToJson arguments))])])
  | .stringLiteral value => carrying "StringLiteral" (.string value)
  | .uniqueSymbol => bare "UniqueSymbol"

/-- The JSON form of a type that may be left out. -/
def TypeExpr.optionToJson : Option TypeExpr → Json
  | none => .null
  | some t => t.toJson

/-- The JSON forms of types. -/
def TypeExpr.listToJson : List TypeExpr → List Json
  | [] => []
  | t :: ts => t.toJson :: TypeExpr.listToJson ts

/-- The JSON forms of members of an object type. -/
def MemberType.listToJson : List MemberType → List Json
  | [] => []
  | ⟨name, required, readonly, type, document⟩ :: members => .object [
      ("name", name.toJson),
      ("required", .boolean required),
      ("readonly", .boolean readonly),
      ("ty", type.toJson),
      ("document", .string document)] :: MemberType.listToJson members

/-- The JSON form of a property name. -/
def PropertyName.toJson : PropertyName → Json
  | .string name => carrying "String" (.string name)
  | .computed expr => carrying "SymbolExpr" expr.toJson

end

/-- The JSON form of a member of an object literal. -/
def Member.toJson (member : Member) : Json :=
  (Member.listToJson [member]).headD .null

/-- The JSON form of a parameter. -/
def Parameter.toJson (parameter : Parameter) : Json :=
  (Parameter.listToJson [parameter]).headD .null

/-- The JSON form of a type parameter. -/
def TypeParameter.toJson (parameter : TypeParameter) : Json :=
  (TypeParameter.listToJson [parameter]).headD .null

/-- The JSON form of a member of an object type. -/
def MemberType.toJson (member : MemberType) : Json :=
  (MemberType.listToJson [member]).headD .null

/-- The JSON form of a dialect. -/
def Dialect.toJson (dialect : Dialect) : Json :=
  choiceToJson Dialect.names dialect

/-- The JSON form of a parameter of a function definition. -/
def DocumentedParameter.toJson (p : DocumentedParameter) : Json :=
  .object [
    ("name", identifier p.name),
    ("document", .string p.document),
    ("ty", p.type.toJson)]

/-- The JSON form of a definition. -/
def Definition.toJson : Definition → Json
  | .typeAlias a => carrying "TypeAlias" (.object [
      ("export", .boolean a.exported),
      ("name", identifier a.name),
      ("type_parameters", .array (TypeParameter.listToJson a.typeParameters)),
      ("document", .string a.document),
      ("ty", a.type.toJson)])
  | .function f => carrying "Function" (.object [
      ("export", .boolean f.exported),
      ("is_async", .boolean f.isAsync),
      ("name", identifier f.name),
      ("document", .string f.document),
      ("type_parameters", .array (TypeParameter.listToJson f.typeParameters)),
      ("parameters", .array (f.parameters.map DocumentedParameter.toJson)),
      ("return_type", f.returnType.toJson),
      ("statements", .array (Statement.listToJson f.body))])
  | .binding b => carrying "Variable" (.object [
      ("export", .boolean b.exported),
      ("name", identifier b.name),
      ("document", .string b.document),
      ("ty", TypeExpr.optionToJson b.type),
      ("expr", b.value.toJson)])

/-- The JSON form of a module. -/
def Module.toJson (m : Module) : Json :=
  .object [
    ("definitions", .array (m.definitions.map Definition.toJson)),
    ("statements", .array (Statement.listToJson m.statements))]

end EcmaWriter
