import EcmaWriter.Tree.Basic

/-!
# EcmaWriter - Trees without types

The erasure of a module is the module without anything about types.  Type aliases go,
and with them every annotation, type parameter and type argument; a type that has to be
there is replaced by one fixed type.  A type assertion or an instantiation gives way to
the expression inside it.  In three places it stays and only its types go: as the key or
the value of a member of an object literal and as the property of a member access, where
a bare string or variable would be written in another form.

Main results:

- Definitions `Expr.erase`, `Statement.erase`, `Module.erase`: trees without types.
- Theorem `blockBindings_eraseAll`: erasing keeps the declarations of a block.
-/

namespace EcmaWriter

/-- The type that takes the place of every type that has to be there. -/
def TypeExpr.erased : TypeExpr :=
  .unknown

/-- A parameter without its type. -/
def Parameter.erase (p : Parameter) : Parameter :=
  ⟨p.name, none⟩

mutual

/-- An expression without types. A node about types stays where it is `kept`. -/
def Expr.erase (kept : Bool) : Expr → Expr
  | .number value => .number value
  | .string value => .string value
  | .boolean value => .boolean value
  | .null => .null
  | .undefined => .undefined
  | .unary op e => .unary op (e.erase false)
  | .binary op left right => .binary op (left.erase false) (right.erase false)
  | .conditional condition thenExpr elseExpr =>
    .conditional (condition.erase false) (thenExpr.erase false) (elseExpr.erase false)
  | .array items => .array (ArrayItem.eraseAll items)
  | .object members => .object (Member.eraseAll members)
  | .lambda isAsync _ parameters _ body =>
    .lambda isAsync [] (parameters.map Parameter.erase) none (Statement.eraseAll body)
  | .reference name => .reference name
  | .global name => .global name
  | .imported path name => .imported path name
  | .get base property => .get (base.erase false) (property.erase true)
  | .call callee arguments => .call (callee.erase false) (Expr.eraseAll arguments)
  | .new callee arguments => .new (callee.erase false) (Expr.eraseAll arguments)
  | .assertion e _ => if kept then .assertion (e.erase false) .erased else e.erase false
  | .instantiation e _ => if kept then .instantiation (e.erase false) [] else e.erase false

/-- Expressions without types. -/
def Expr.eraseAll : List Expr → List Expr
  | [] => []
  | e :: es => e.erase false :: Expr.eraseAll es

/-- Array items without types. -/
def ArrayItem.eraseAll : List ArrayItem → List ArrayItem
  | [] => []
  | ⟨e, spread⟩ :: items => ⟨e.erase false, spread⟩ :: ArrayItem.eraseAll items

/-- Members of an object literal without types. -/
def Member.eraseAll : List Member → List Member
  | [] => []
  | .spread e :: members => .spread (e.erase false) :: Member.eraseAll members
  | .keyValue key value :: members =>
    .keyValue (key.erase true) (value.erase true) :: Member.eraseAll members

/-- A statement without types. -/
def Statement.erase : Statement → Statement
  | .evaluate e => .evaluate (e.erase false)
  | .set target op value => .set (target.erase false) op (value.erase false)
  | .ifElse condition thenBody elseBody =>
    .ifElse (condition.erase false) (Statement.eraseAll thenBody) (Statement.eraseAll elseBody)
  | .throwError e => .throwError (e.erase false)
  | .returnValue e => .returnValue (e.erase false)
  | .returnVoid => .returnVoid
  | .continueLoop => .continueLoop
  | .breakLoop => .breakLoop
  | .binding isConst name _ value => .binding isConst name none (value.erase false)
  | .function isAsync name _ parameters _ body =>
    .function isAsync name [] (parameters.map Parameter.erase) .erased (Statement.eraseAll body)
  | .forCount counter bound body =>
    .forCount counter (bound.erase false) (Statement.eraseAll body)
  | .forOf element iterable body =>
    .forOf element (iterable.erase false) (Statement.eraseAll body)
  | .whileTrue body => .whileTrue (Statement.eraseAll body)
  | .switch subject cases => .switch (subject.erase false) (SwitchCase.eraseAll cases)
  | .tryCatch body parameter handler =>
    .tryCatch (Statement.eraseAll body) parameter (Statement.eraseAll handler)

/-- Statements without types. -/
def Statement.eraseAll : List Statement → List Statement
  | [] => []
  | s :: ss => s.erase :: Statement.eraseAll ss

/-- Cases without types. -/
def SwitchCase.eraseAll : List SwitchCase → List SwitchCase
  | [] => []
  | ⟨label, body⟩ :: cases => ⟨label, Statement.eraseAll body⟩ :: SwitchCase.eraseAll cases

end

/-- A documented parameter with the fixed type. -/
def DocumentedParameter.erase (p : DocumentedParameter) : DocumentedParameter :=
  { p with type := .erased }

/-- A definition without types. Nothing is left of a type alias. -/
def Definition.erase? : Definition → Option Definition
  | .typeAlias _ => none
  | .function f =>
    some (.function { f with
      typeParameters := []
      parameters := f.parameters.map DocumentedParameter.erase
      returnType := .erased
      body := Statement.eraseAll f.body })
  | .binding b => some (.binding { b with type := none, value := b.value.erase false })

/-- A module without types. -/
def Module.erase (m : Module) : Module where
  definitions := m.definitions.filterMap Definition.erase?
  statements := Statement.eraseAll m.statements

/-! ## Names -/

@[simp] theorem map_name_map_erase (parameters : List Parameter) :
    (parameters.map Parameter.erase).map Parameter.name = parameters.map Parameter.name := by
  rw [List.map_map]
  rfl

@[simp] theorem map_name_map_eraseDocumented (parameters : List DocumentedParameter) :
    ((parameters.map DocumentedParameter.erase).map DocumentedParameter.toParameter).map
        Parameter.name =
      (parameters.map DocumentedParameter.toParameter).map Parameter.name := by
  rw [List.map_map, List.map_map, List.map_map]
  rfl

@[simp] theorem Statement.declared?_erase (s : Statement) : s.erase.declared? = s.declared? := by
  cases s <;> rfl

/-- Erasing keeps the declarations of a block. -/
@[simp] theorem blockBindings_eraseAll (body : List Statement) :
    blockBindings (Statement.eraseAll body) = blockBindings body := by
  induction body with
  | nil => rfl
  | cons s body ih =>
      have hcons : ∀ (s : Statement) (body : List Statement),
          blockBindings (s :: body) = s.declared?.toList ++ blockBindings body := by
        intro s body
        rw [blockBindings, List.filterMap_cons]
        cases s.declared? <;> rfl
      rw [Statement.eraseAll, hcons, hcons, Statement.declared?_erase, ih]

/-- Erasing keeps the names of a module's values. -/
@[simp] theorem Module.valueNames_erase (m : Module) : m.erase.valueNames = m.valueNames := by
  rw [Module.valueNames, Module.erase, List.filterMap_filterMap, Module.valueNames]
  congr 1
  funext d
  cases d <;> rfl

/-- Nothing is left of a block without statements, and only of such a block. -/
@[simp] theorem isEmpty_eraseAll (body : List Statement) :
    (Statement.eraseAll body).isEmpty = body.isEmpty := by
  cases body <;> rfl

/-- Erasing a body that is more than a return leaves more than a return. -/
theorem eraseAll_ne_returnValue {body : List Statement} (h : ∀ e, body ≠ [.returnValue e])
    (e : Expr) : Statement.eraseAll body ≠ [.returnValue e] := by
  match body with
  | [] => simp [Statement.eraseAll]
  | s :: s' :: body => simp [Statement.eraseAll]
  | [s] =>
      cases s with
      | returnValue e => exact absurd rfl (h e)
      | _ => simp [Statement.eraseAll, Statement.erase]

end EcmaWriter
