import EcmaWriter.Lexeme
import EcmaWriter.Scope

/-!
# EcmaWriter - Places

Where a node is written: in which dialect, how deep, and among which names. Values
and types have scopes of their own.

Main definitions:

- `Place`: places.
- `Place.bindFunction`, `Place.bindTypes`, `Place.enterBlock`: the places inside
  functions, type parameter lists and blocks.
-/

namespace EcmaWriter

/-- Where a node is written. -/
structure Place where
  dialect : Dialect
  level : Nat
  values : Scope
  types : Scope

namespace Place

/-- Whether types are written. -/
def hasTypes (p : Place) : Bool :=
  p.dialect = .typeScript

/-- One level deeper. -/
def deeper (p : Place) : Place :=
  { p with level := p.level + 1 }

/-- Where names of values are bound. -/
def bindValues (p : Place) (names : List Identifier) : Place :=
  { p with values := p.values.push names }

/-- Where type parameters are bound. -/
def bindTypes (p : Place) (typeParameters : List TypeParameter) : Place :=
  { p with types := p.types.push (typeParameters.map TypeParameter.name) }

/-- Inside a function: its head and its body see its parameters and type
parameters. -/
def bindFunction (p : Place) (typeParameters : List TypeParameter)
    (parameters : List Parameter) : Place :=
  (p.bindValues (parameters.map Parameter.name)).bindTypes typeParameters

/-- The statements of a block. -/
def enterBlock (p : Place) (bindings : List Identifier) (body : List Statement) : Place :=
  { p with level := p.level + 1, values := p.values.enterBlock bindings body }

end Place

end EcmaWriter
