import EcmaWriter.Fault
import EcmaWriter.OrderedSet
import EcmaWriter.Scope

/-!
# EcmaWriter - The census of a module

Before anything is written, a module is gone through once from beginning to end.
What matters on the way are its mentions: names that must differ, names that are
not to be import namespaces, paths of other modules, and references, each with
the scope around it. The list of mentions depends on the module alone. The census
takes stock of it: it stops at the first fault, or ends with the names and the
paths in the order of their first mention.

Main definitions:

- `Mention`: what a module is found to mention.
- `Expr.mentions`, `Statement.mentions`, `TypeExpr.mentions`, `Module.mentions`:
  the mentions of a tree in order.
- `Module.census`: names and paths of a module without faults.
-/

namespace EcmaWriter

/-! ## Mentions -/

/-- Something a module mentions. -/
inductive Mention
  /-- Names declared together, no two of which may be the same. -/
  | distinct (declared : List Declared)
  /-- A name that an import namespace must not take. -/
  | name (name : Identifier)
  /-- The path of another module. -/
  | path (path : String)
  /-- A reference to a name that the scope around it should bind. -/
  | reference (scope : Scope) (name : Identifier)

namespace Mention

/-- Names declared together as one kind. -/
def distinctAs (kind : NameKind) (names : List Identifier) : Mention :=
  .distinct (names.map (Declared.mk kind))

/-- Mention names one after the other. -/
def names (names : List Identifier) : List Mention :=
  names.map name

/-- What a block mentions around what its statements mention. -/
def block (bindings : List Identifier) (body : List Statement) (inside : List Mention) :
    List Mention :=
  distinctAs .blockLocal (blockBindings body) ::
    names (bindings ++ blockBindings body) ++ inside

/-- What the head of a function mentions: the names of its parameters and type
parameters, around what their types mention. -/
def signature (parameterKind typeParameterKind : NameKind)
    (typeParameters : List TypeParameter) (parameters : List Parameter)
    (constraints types result : List Mention) : List Mention :=
  [distinctAs parameterKind (parameters.map Parameter.name),
      distinctAs typeParameterKind (typeParameters.map TypeParameter.name)]
    ++ names (typeParameters.map TypeParameter.name) ++ constraints
    ++ names (parameters.map Parameter.name) ++ types ++ result

end Mention

mutual

/-- What an expression mentions. -/
def Expr.mentions (scope : Scope) : Expr → List Mention
  | .number _ => []
  | .string _ => []
  | .boolean _ => []
  | .null => []
  | .undefined => []
  | .unary _ operand => operand.mentions scope
  | .binary _ left right => left.mentions scope ++ right.mentions scope
  | .conditional condition thenExpr elseExpr =>
    condition.mentions scope ++ thenExpr.mentions scope ++ elseExpr.mentions scope
  | .array items => ArrayItem.listMentions scope items
  | .object members => Member.listMentions scope members
  | .lambda _ typeParameters parameters returnType body =>
    Mention.signature .lambdaParameter .lambdaTypeParameter typeParameters parameters
        (TypeParameter.listMentions scope typeParameters)
        (Parameter.listMentions scope parameters)
        (TypeExpr.optionMentions scope returnType)
      ++ Mention.block (parameters.map Parameter.name) body
        (Statement.listMentions
          (scope.enterBlock (parameters.map Parameter.name) body) body)
  | .reference name => [.reference scope name]
  | .global name => [.name name]
  | .imported path name => [.name (Identifier.ofString name), .path path]
  | .get base property => base.mentions scope ++ property.mentions scope
  | .call callee arguments => callee.mentions scope ++ Expr.listMentions scope arguments
  | .new callee arguments => callee.mentions scope ++ Expr.listMentions scope arguments
  | .assertion expr type => expr.mentions scope ++ type.mentions scope
  | .instantiation expr arguments =>
    expr.mentions scope ++ TypeExpr.listMentions scope arguments

/-- What expressions mention. -/
def Expr.listMentions (scope : Scope) : List Expr → List Mention
  | [] => []
  | e :: es => e.mentions scope ++ Expr.listMentions scope es

/-- What array items mention. -/
def ArrayItem.listMentions (scope : Scope) : List ArrayItem → List Mention
  | [] => []
  | ⟨expr, _⟩ :: items => expr.mentions scope ++ ArrayItem.listMentions scope items

/-- What members of an object literal mention. -/
def Member.listMentions (scope : Scope) : List Member → List Mention
  | [] => []
  | .spread expr :: members => expr.mentions scope ++ Member.listMentions scope members
  | .keyValue key value :: members =>
    key.mentions scope ++ value.mentions scope ++ Member.listMentions scope members

/-- What the types of parameters mention. -/
def Parameter.listMentions (scope : Scope) : List Parameter → List Mention
  | [] => []
  | ⟨_, type⟩ :: parameters =>
    TypeExpr.optionMentions scope type ++ Parameter.listMentions scope parameters

/-- What the constraints of type parameters mention. -/
def TypeParameter.listMentions (scope : Scope) : List TypeParameter → List Mention
  | [] => []
  | ⟨_, constraint⟩ :: parameters =>
    TypeExpr.optionMentions scope constraint ++ TypeParameter.listMentions scope parameters

/-- What a statement mentions. The bound of a counting loop is computed again in
every round, so it sees the counter. -/
def Statement.mentions (scope : Scope) : Statement → List Mention
  | .evaluate expr => expr.mentions scope
  | .set target _ value => target.mentions scope ++ value.mentions scope
  | .ifElse condition thenBody elseBody =>
    condition.mentions scope
      ++ Mention.block [] thenBody
        (Statement.listMentions (scope.enterBlock [] thenBody) thenBody)
      ++ Mention.block [] elseBody
        (Statement.listMentions (scope.enterBlock [] elseBody) elseBody)
  | .throwError expr => expr.mentions scope
  | .returnValue expr => expr.mentions scope
  | .returnVoid => []
  | .continueLoop => []
  | .breakLoop => []
  | .binding _ _ type value => TypeExpr.optionMentions scope type ++ value.mentions scope
  | .function _ _ typeParameters parameters returnType body =>
    Mention.signature .localFunctionParameter .localFunctionTypeParameter typeParameters
        parameters
        (TypeParameter.listMentions scope typeParameters)
        (Parameter.listMentions scope parameters)
        (returnType.mentions scope)
      ++ Mention.block (parameters.map Parameter.name) body
        (Statement.listMentions
          (scope.enterBlock (parameters.map Parameter.name) body) body)
  | .forCount counter bound body =>
    bound.mentions (scope.push [counter])
      ++ Mention.block [counter] body
        (Statement.listMentions (scope.enterBlock [counter] body) body)
  | .forOf element iterable body =>
    iterable.mentions scope
      ++ Mention.block [element] body
        (Statement.listMentions (scope.enterBlock [element] body) body)
  | .whileTrue body =>
    Mention.block [] body (Statement.listMentions (scope.enterBlock [] body) body)
  | .switch subject cases => subject.mentions scope ++ SwitchCase.listMentions scope cases
  | .tryCatch body parameter handler =>
    Mention.block [] body (Statement.listMentions (scope.enterBlock [] body) body)
      ++ Mention.block [parameter] handler
        (Statement.listMentions (scope.enterBlock [parameter] handler) handler)

/-- What statements mention. -/
def Statement.listMentions (scope : Scope) : List Statement → List Mention
  | [] => []
  | s :: ss => s.mentions scope ++ Statement.listMentions scope ss

/-- What cases mention. -/
def SwitchCase.listMentions (scope : Scope) : List SwitchCase → List Mention
  | [] => []
  | ⟨_, body⟩ :: cases =>
    Mention.block [] body (Statement.listMentions (scope.enterBlock [] body) body)
      ++ SwitchCase.listMentions scope cases

/-- What a type mentions. -/
def TypeExpr.mentions (scope : Scope) : TypeExpr → List Mention
  | .number => []
  | .string => []
  | .boolean => []
  | .undefined => []
  | .null => []
  | .never => []
  | .void => []
  | .unknown => []
  | .object members => MemberType.listMentions scope members
  | .function typeParameters parameters result =>
    .distinctAs .functionTypeTypeParameter (typeParameters.map TypeParameter.name)
      :: Mention.names (typeParameters.map TypeParameter.name)
      ++ TypeParameter.listMentions scope typeParameters
      ++ TypeExpr.listMentions scope parameters
      ++ result.mentions scope
  | .union types => TypeExpr.listMentions scope types
  | .intersection left right => left.mentions scope ++ right.mentions scope
  | .imported path name arguments =>
    .path path :: .name name :: TypeExpr.listMentions scope arguments
  | .inFile name arguments => .name name :: TypeExpr.listMentions scope arguments
  | .global name arguments => .name name :: TypeExpr.listMentions scope arguments
  | .namespaced path name arguments =>
    Mention.names (path.take 1) ++ .name name :: TypeExpr.listMentions scope arguments
  | .stringLiteral _ => []
  | .uniqueSymbol => []

/-- What a type that may be left out mentions. -/
def TypeExpr.optionMentions (scope : Scope) : Option TypeExpr → List Mention
  | none => []
  | some t => t.mentions scope

/-- What types mention. -/
def TypeExpr.listMentions (scope : Scope) : List TypeExpr → List Mention
  | [] => []
  | t :: ts => t.mentions scope ++ TypeExpr.listMentions scope ts

/-- What members of an object type mention. -/
def MemberType.listMentions (scope : Scope) : List MemberType → List Mention
  | [] => []
  | ⟨name, _, _, type, _⟩ :: members =>
    name.mentions scope ++ type.mentions scope ++ MemberType.listMentions scope members

/-- What a property name mentions. -/
def PropertyName.mentions (scope : Scope) : PropertyName → List Mention
  | .string _ => []
  | .computed expr => expr.mentions scope

end

/-- What a definition mentions. -/
def Definition.mentions (scope : Scope) : Definition → List Mention
  | .typeAlias a =>
    .distinctAs .typeAliasTypeParameter (a.typeParameters.map TypeParameter.name)
      :: Mention.names (a.typeParameters.map TypeParameter.name)
      ++ TypeParameter.listMentions scope a.typeParameters
      ++ a.type.mentions scope
  | .function f =>
    let parameters := f.parameters.map DocumentedParameter.toParameter
    Mention.signature .functionParameter .functionTypeParameter f.typeParameters parameters
        (TypeParameter.listMentions scope f.typeParameters)
        (Parameter.listMentions scope parameters)
        (f.returnType.mentions scope)
      ++ Mention.block (parameters.map Parameter.name) f.body
        (Statement.listMentions
          (scope.enterBlock (parameters.map Parameter.name) f.body) f.body)
  | .binding b => TypeExpr.optionMentions scope b.type ++ b.value.mentions scope

/-- What a definition declares in the module. -/
def Definition.declared : Definition → Declared
  | .typeAlias a => ⟨.rootTypeAlias, a.name⟩
  | .function f => ⟨.rootVariable, f.name⟩
  | .binding b => ⟨.rootVariable, b.name⟩

/-- The scope of a module's own names. -/
def Module.scope (m : Module) : Scope :=
  .root m.valueNames

/-- What a module mentions: the names of its definitions, types before values, and
then what its definitions and statements mention. -/
def Module.mentions (m : Module) : List Mention :=
  .distinct (m.definitions.map Definition.declared)
    :: Mention.names m.typeNames
    ++ Mention.names m.valueNames
    ++ m.definitions.flatMap (Definition.mentions m.scope)
    ++ Mention.block [] m.statements
      (Statement.listMentions (m.scope.enterBlock [] m.statements) m.statements)

/-! ## Taking stock -/

/-- What to do about a reference to a name that nothing binds. -/
inductive UnresolvedPolicy
  | reject
  | tolerate
deriving DecidableEq

/-- The names an import namespace must not take and the paths that need one, both
in the order of first mention. -/
structure Census where
  names : OrderedSet Identifier
  paths : OrderedSet String

/-- Nothing mentioned yet. -/
def Census.empty : Census :=
  ⟨.empty, .empty⟩

/-- The first element that stands further left already. -/
def firstRepeat? {α : Type} [DecidableEq α] (seen : List α) : List α → Option α
  | [] => none
  | a :: as => if a ∈ seen then some a else firstRepeat? (a :: seen) as

/-- Take one mention into account. -/
def Census.add (policy : UnresolvedPolicy) (c : Census) : Mention → Except Fault Census
  | .distinct declared =>
    match firstRepeat? [] declared with
    | some d => .error (.duplicateName d)
    | none => .ok c
  | .name name => .ok { c with names := c.names.insert name }
  | .path path => .ok { c with paths := c.paths.insert path }
  | .reference scope name =>
    if scope.contains name.text then .ok c
    else match policy with
      | .reject => .error (.unresolvedVariable name)
      | .tolerate => .ok c

/-- The census of a module, or its first fault. -/
def Module.census (policy : UnresolvedPolicy) (m : Module) : Except Fault Census :=
  m.mentions.foldlM (Census.add policy) .empty

end EcmaWriter
