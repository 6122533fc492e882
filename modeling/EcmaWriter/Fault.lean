import EcmaWriter.Identifier

/-!
# EcmaWriter - Faults of modules

Why no text can be written for a module.

Main definitions:

- `NameKind`: the constructs whose names must differ.
- `Fault`: the faults.
- `Fault.message`: their wording.
-/

namespace EcmaWriter

/-- What a name is declared as. Names of one kind in one construct must differ. -/
inductive NameKind
  | rootTypeAlias
  | rootVariable
  | functionParameter
  | functionTypeParameter
  | lambdaParameter
  | lambdaTypeParameter
  | localFunctionParameter
  | localFunctionTypeParameter
  | functionTypeTypeParameter
  | typeAliasTypeParameter
  | blockLocal
deriving DecidableEq

/-- What messages call a kind of name. -/
def NameKind.description : NameKind → String
  | rootTypeAlias => "root type alias"
  | rootVariable => "root function or variable"
  | functionParameter => "function parameter"
  | functionTypeParameter => "function type parameter"
  | lambdaParameter => "lambda parameter"
  | lambdaTypeParameter => "lambda type parameter"
  | localFunctionParameter => "local function parameter"
  | localFunctionTypeParameter => "local function type parameter"
  | functionTypeTypeParameter => "type parameter of function type"
  | typeAliasTypeParameter => "type alias type parameter"
  | blockLocal => "local variable or function"

/-- A name as it is declared. -/
structure Declared where
  kind : NameKind
  name : Identifier
deriving DecidableEq

/-- Why no text can be written for a module. -/
inductive Fault
  /-- Two names of one construct are the same. -/
  | duplicateName (declared : Declared)
  /-- A reference is to a name that nothing around it binds. -/
  | unresolvedVariable (name : Identifier)
  /-- A path has no import namespace. -/
  | unknownModule (path : String)
deriving DecidableEq

/-- The wording of a fault. -/
def Fault.message : Fault → String
  | duplicateName declared =>
    "duplicate " ++ declared.kind.description ++ " name \x60" ++ declared.name.text ++ "\x60"
  | unresolvedVariable name =>
    "variable \x60" ++ name.text ++ "\x60 is not defined in any enclosing scope"
  | unknownModule path => "module \x60" ++ path ++ "\x60 was not collected before rendering"

end EcmaWriter
