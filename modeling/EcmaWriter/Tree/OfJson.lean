import EcmaWriter.Json.Decoder
import EcmaWriter.Tree.Basic

/-!
# EcmaWriter - Reading trees from JSON

The decoders of all nodes. Expressions, statements and types contain one another,
so their decoders are given layer by layer: `TreeDecoders.grow` says how a layer is
read when the layers below it are given. Every layer enters at least one array or
object, so as many layers as may be nested are enough.

Main definitions:

- `treeDecoders`: the decoders of expressions, statements and types.
- `Definition.decoder`, `Module.decoder`: the top of a tree.
-/

namespace EcmaWriter

open Decoder

/-- An identifier, made of any string. -/
def Identifier.decoder : Decoder Identifier :=
  Decoder.string.map Identifier.ofString

/-- A dialect. -/
def Dialect.decoder : Decoder Dialect :=
  choice Dialect.names

/-- The decoders of the three kinds of nodes. -/
structure TreeDecoders where
  expr : Decoder Expr
  statement : Decoder Statement
  type : Decoder TypeExpr

namespace TreeDecoders

/-! ## Records inside nodes -/

/-- A type parameter. -/
def typeParameter (d : TreeDecoders) : Decoder TypeParameter :=
  record "TypeParameter"
    (.cons (required "name" Identifier.decoder) <|
      .cons (optional "constraint" d.type) .nil)
    fun (name, constraint, ()) => ⟨name, constraint⟩

/-- A parameter of a lambda or local function. -/
def parameter (d : TreeDecoders) : Decoder Parameter :=
  record "Parameter"
    (.cons (required "name" Identifier.decoder) <|
      .cons (optional "ty" d.type) .nil)
    fun (name, type, ()) => ⟨name, type⟩

/-- An array item. -/
def arrayItem (d : TreeDecoders) : Decoder ArrayItem :=
  record "ArrayItem"
    (.cons (required "expr" d.expr) <|
      .cons (defaulted "spread" boolean false) .nil)
    fun (expr, spread, ()) => ⟨expr, spread⟩

/-- A member of an object literal. -/
def member (d : TreeDecoders) : Decoder Member :=
  tagged "Member" [
    .of "Spread" .spread d.expr,
    .carrying "KeyValue" <|
      record "KeyValue"
        (.cons (required "key" d.expr) <|
          .cons (required "value" d.expr) .nil)
        fun (key, value, ()) => .keyValue key value]

/-- A case of a switch statement. -/
def switchCase (d : TreeDecoders) : Decoder SwitchCase :=
  record "SwitchPattern"
    (.cons (required "case_string" Decoder.string) <|
      .cons (required "statements" (list d.statement)) .nil)
    fun (label, body, ()) => ⟨label, body⟩

/-- The name of a member of an object type. -/
def propertyName (d : TreeDecoders) : Decoder PropertyName :=
  tagged "PropertyName" [
    .of "String" .string Decoder.string,
    .of "SymbolExpr" .computed d.expr]

/-- A member of an object type. -/
def memberType (d : TreeDecoders) : Decoder MemberType :=
  record "MemberType"
    (.cons (required "name" d.propertyName) <|
      .cons (required "required" boolean) <|
      .cons (required "readonly" boolean) <|
      .cons (required "ty" d.type) <|
      .cons (defaulted "document" Decoder.string "") .nil)
    fun (name, required, readonly, type, document, ()) =>
      ⟨name, required, readonly, type, document⟩

/-- A type's name with its arguments. -/
def nameAndArguments (d : TreeDecoders) : Decoder (Identifier × List TypeExpr) :=
  record "TypeNameAndArguments"
    (.cons (required "name" Identifier.decoder) <|
      .cons (defaulted "arguments" (list d.type) []) .nil)
    fun (name, arguments, ()) => (name, arguments)

/-- A callee with its arguments. -/
def call (d : TreeDecoders) : Decoder (Expr × List Expr) :=
  record "CallExpr"
    (.cons (required "expr" d.expr) <|
      .cons (defaulted "arguments" (list d.expr) []) .nil)
    fun (callee, arguments, ()) => (callee, arguments)

/-! ## Nodes -/

/-- The variants of expressions. -/
def exprVariants (d : TreeDecoders) : List (Variant Expr) := [
  .of "NumberLiteral" .number integer32,
  .of "StringLiteral" .string Decoder.string,
  .of "BooleanLiteral" .boolean boolean,
  .bare "NullLiteral" .null,
  .bare "UndefinedLiteral" .undefined,
  .carrying "UnaryOperator" <|
    record "UnaryOperatorExpr"
      (.cons (required "operator" (choice UnaryOperator.names)) <|
        .cons (required "expr" d.expr) .nil)
      fun (op, operand, ()) => .unary op operand,
  .carrying "BinaryOperator" <|
    record "BinaryOperatorExpr"
      (.cons (required "operator" (choice BinaryOperator.names)) <|
        .cons (required "left" d.expr) <|
        .cons (required "right" d.expr) .nil)
      fun (op, left, right, ()) => .binary op left right,
  .carrying "ConditionalOperator" <|
    record "ConditionalOperatorExpr"
      (.cons (required "condition" d.expr) <|
        .cons (required "then_expr" d.expr) <|
        .cons (required "else_expr" d.expr) .nil)
      fun (condition, thenExpr, elseExpr, ()) => .conditional condition thenExpr elseExpr,
  .of "ArrayLiteral" .array (list d.arrayItem),
  .of "ObjectLiteral" .object (list d.member),
  .carrying "Lambda" <|
    record "LambdaExpr"
      (.cons (defaulted "is_async" boolean false) <|
        .cons (defaulted "type_parameters" (list d.typeParameter) []) <|
        .cons (defaulted "parameters" (list d.parameter) []) <|
        .cons (optional "return_type" d.type) <|
        .cons (required "statements" (list d.statement)) .nil)
      fun (isAsync, typeParameters, parameters, returnType, body, ()) =>
        .lambda isAsync typeParameters parameters returnType body,
  .of "Variable" .reference Identifier.decoder,
  .of "GlobalObject" .global Identifier.decoder,
  .carrying "ImportedVariable" <|
    record "ImportedName"
      (.cons (required "module_path" Decoder.string) <|
        .cons (required "name" Decoder.string) .nil)
      fun (path, name, ()) => .imported path name,
  .carrying "Get" <|
    record "GetExpr"
      (.cons (required "expr" d.expr) <|
        .cons (required "property" d.expr) .nil)
      fun (base, property, ()) => .get base property,
  .of "Call" (fun (callee, arguments) => .call callee arguments) d.call,
  .of "New" (fun (callee, arguments) => .new callee arguments) d.call,
  .carrying "TypeAssertion" <|
    record "TypeAssertionExpr"
      (.cons (required "expr" d.expr) <|
        .cons (required "ty" d.type) .nil)
      fun (expr, type, ()) => .assertion expr type,
  .carrying "WithTypeArguments" <|
    record "WithTypeArgumentsExpr"
      (.cons (required "expr" d.expr) <|
        .cons (required "type_arguments" (list d.type)) .nil)
      fun (expr, arguments, ()) => .instantiation expr arguments]

/-- The variants of statements. -/
def statementVariants (d : TreeDecoders) : List (Variant Statement) := [
  .of "EvaluateExpr" .evaluate d.expr,
  .carrying "Set" <|
    record "SetStatement"
      (.cons (required "target" d.expr) <|
        .cons (optional "operator" (choice AssignmentOperator.names)) <|
        .cons (required "expr" d.expr) .nil)
      fun (target, op, value, ()) => .set target op value,
  .carrying "If" <|
    record "IfStatement"
      (.cons (required "condition" d.expr) <|
        .cons (required "then_statements" (list d.statement)) <|
        .cons (defaulted "else_statements" (list d.statement) []) .nil)
      fun (condition, thenBody, elseBody, ()) => .ifElse condition thenBody elseBody,
  .of "ThrowError" .throwError d.expr,
  .of "Return" .returnValue d.expr,
  .bare "ReturnVoid" .returnVoid,
  .bare "Continue" .continueLoop,
  .bare "Break" .breakLoop,
  .carrying "VariableDefinition" <|
    record "LocalVariable"
      (.cons (required "is_const" boolean) <|
        .cons (required "name" Identifier.decoder) <|
        .cons (optional "ty" d.type) <|
        .cons (required "expr" d.expr) .nil)
      fun (isConst, name, type, value, ()) => .binding isConst name type value,
  .carrying "FunctionDefinition" <|
    record "LocalFunction"
      (.cons (defaulted "is_async" boolean false) <|
        .cons (required "name" Identifier.decoder) <|
        .cons (defaulted "type_parameters" (list d.typeParameter) []) <|
        .cons (defaulted "parameters" (list d.parameter) []) <|
        .cons (required "return_type" d.type) <|
        .cons (required "statements" (list d.statement)) .nil)
      fun (isAsync, name, typeParameters, parameters, returnType, body, ()) =>
        .function isAsync name typeParameters parameters returnType body,
  .carrying "For" <|
    record "ForStatement"
      (.cons (required "counter" Identifier.decoder) <|
        .cons (required "until" d.expr) <|
        .cons (required "statements" (list d.statement)) .nil)
      fun (counter, bound, body, ()) => .forCount counter bound body,
  .carrying "ForOf" <|
    record "ForOfStatement"
      (.cons (required "element" Identifier.decoder) <|
        .cons (required "iterable" d.expr) <|
        .cons (required "statements" (list d.statement)) .nil)
      fun (element, iterable, body, ()) => .forOf element iterable body,
  .of "WhileTrue" .whileTrue (list d.statement),
  .carrying "Switch" <|
    record "SwitchStatement"
      (.cons (required "expr" d.expr) <|
        .cons (required "patterns" (list d.switchCase)) .nil)
      fun (subject, cases, ()) => .switch subject cases,
  .carrying "TryCatch" <|
    record "TryCatchStatement"
      (.cons (required "try_statements" (list d.statement)) <|
        .cons (required "catch_parameter" Identifier.decoder) <|
        .cons (required "catch_statements" (list d.statement)) .nil)
      fun (body, parameter, handler, ()) => .tryCatch body parameter handler]

/-- The variants of types. -/
def typeVariants (d : TreeDecoders) : List (Variant TypeExpr) := [
  .bare "Number" .number,
  .bare "String" .string,
  .bare "Boolean" .boolean,
  .bare "Undefined" .undefined,
  .bare "Null" .null,
  .bare "Never" .never,
  .bare "Void" .void,
  .bare "Unknown" .unknown,
  .of "Object" .object (list d.memberType),
  .carrying "Function" <|
    record "FunctionType"
      (.cons (defaulted "type_parameters" (list d.typeParameter) []) <|
        .cons (required "parameters" (list d.type)) <|
        .cons (required "return_type" d.type) .nil)
      fun (typeParameters, parameters, result, ()) =>
        .function typeParameters parameters result,
  .of "Union" .union (list d.type),
  .carrying "Intersection" <|
    record "IntersectionType"
      (.cons (required "left" d.type) <|
        .cons (required "right" d.type) .nil)
      fun (left, right, ()) => .intersection left right,
  .carrying "ImportedType" <|
    record "ImportedType"
      (.cons (required "module_path" Decoder.string) <|
        .cons (required "name_and_arguments" d.nameAndArguments) .nil)
      fun (path, (name, arguments), ()) => .imported path name arguments,
  .of "ScopeInFile" (fun (name, arguments) => .inFile name arguments) d.nameAndArguments,
  .of "ScopeInGlobal" (fun (name, arguments) => .global name arguments) d.nameAndArguments,
  .carrying "WithNamespace" <|
    record "NamespacedType"
      (.cons (required "namespace" (list Identifier.decoder)) <|
        .cons (required "name_and_arguments" d.nameAndArguments) .nil)
      fun (path, (name, arguments), ()) => .namespaced path name arguments,
  .of "StringLiteral" .stringLiteral Decoder.string,
  .bare "UniqueSymbol" .uniqueSymbol]

/-! ## Definitions and modules -/

/-- A parameter of a function definition. -/
def documentedParameter (d : TreeDecoders) : Decoder DocumentedParameter :=
  record "ParameterWithDocument"
    (.cons (required "name" Identifier.decoder) <|
      .cons (defaulted "document" Decoder.string "") <|
      .cons (required "ty" d.type) .nil)
    fun (name, document, type, ()) => ⟨name, document, type⟩

/-- The definition of a type alias. -/
def typeAlias (d : TreeDecoders) : Decoder TypeAlias :=
  record "TypeAlias"
    (.cons (defaulted "export" boolean false) <|
      .cons (required "name" Identifier.decoder) <|
      .cons (defaulted "type_parameters" (list d.typeParameter) []) <|
      .cons (defaulted "document" Decoder.string "") <|
      .cons (required "ty" d.type) .nil)
    fun (exported, name, typeParameters, document, type, ()) =>
      ⟨exported, name, typeParameters, document, type⟩

/-- The definition of a function. -/
def functionDefinition (d : TreeDecoders) : Decoder FunctionDefinition :=
  record "FunctionDefinition"
    (.cons (defaulted "export" boolean false) <|
      .cons (defaulted "is_async" boolean false) <|
      .cons (required "name" Identifier.decoder) <|
      .cons (defaulted "document" Decoder.string "") <|
      .cons (defaulted "type_parameters" (list d.typeParameter) []) <|
      .cons (defaulted "parameters" (list d.documentedParameter) []) <|
      .cons (required "return_type" d.type) <|
      .cons (defaulted "statements" (list d.statement) []) .nil)
    fun (exported, isAsync, name, document, typeParameters, parameters, returnType, body, ()) =>
      ⟨exported, isAsync, name, document, typeParameters, parameters, returnType, body⟩

/-- The definition of a variable. -/
def variableDefinition (d : TreeDecoders) : Decoder VariableDefinition :=
  record "VariableDefinition"
    (.cons (defaulted "export" boolean false) <|
      .cons (required "name" Identifier.decoder) <|
      .cons (defaulted "document" Decoder.string "") <|
      .cons (optional "ty" d.type) <|
      .cons (required "expr" d.expr) .nil)
    fun (exported, name, document, type, value, ()) =>
      ⟨exported, name, document, type, value⟩

/-- A definition. -/
def definition (d : TreeDecoders) : Decoder Definition :=
  tagged "Definition" [
    .of "TypeAlias" .typeAlias d.typeAlias,
    .of "Function" .function d.functionDefinition,
    .of "Variable" .binding d.variableDefinition]

/-- A module. -/
def wholeModule (d : TreeDecoders) : Decoder Module :=
  record "Module"
    (.cons (defaulted "definitions" (list d.definition) []) <|
      .cons (defaulted "statements" (list d.statement) []) .nil)
    fun (definitions, statements, ()) => ⟨definitions, statements⟩

/-! ## Layers -/

/-- The decoders of a layer, from those of the layers below. -/
def grow (d : TreeDecoders) : TreeDecoders where
  expr := tagged "Expr" d.exprVariants
  statement := tagged "Statement" d.statementVariants
  type := tagged "Type" d.typeVariants

/-- Decoders below the deepest layer. -/
def exhausted : TreeDecoders where
  expr _ _ := .error .malformed
  statement _ _ := .error .malformed
  type _ _ := .error .malformed

/-- The decoders of trees with a number of layers. -/
def layers : Nat → TreeDecoders
  | 0 => exhausted
  | n + 1 => (layers n).grow

end TreeDecoders

/-- The decoders of trees as deep as a text may nest. -/
def treeDecoders : TreeDecoders :=
  .layers 129

/-- An expression. -/
def Expr.decoder : Decoder Expr :=
  treeDecoders.expr

/-- A statement. -/
def Statement.decoder : Decoder Statement :=
  treeDecoders.statement

/-- A type. -/
def TypeExpr.decoder : Decoder TypeExpr :=
  treeDecoders.type

/-- A definition. -/
def Definition.decoder : Decoder Definition :=
  treeDecoders.definition

/-- A module. -/
def Module.decoder : Decoder Module :=
  treeDecoders.wholeModule

end EcmaWriter
