import EcmaWriter.Generation
import EcmaWriter.Proofs.Erasure.Tree
import EcmaWriter.Proofs.Layout.Basic

/-!
# EcmaWriter - JavaScript shows nothing of types

A module and its erasure are the same file in JavaScript.  The layout of a node looks at
its parts where it has to decide about parentheses, and it looks at the node that is
written for them, past everything about types.  The names of types are kept in a scope
of their own, which only types look at.

Main results:

- Theorem `Expr.written_erase`: what is written of an erased expression is what is
  written of the expression, erased.
- Theorem `Expr.layout_erase`: an expression has the layout of its erasure.
- Theorem `Module.render_erase`: a module has the text of its erasure, and modules that
  differ only in types have the same text.
-/

namespace EcmaWriter

/-! ## Strengths -/

namespace Expr

/-- Whether a node is there for types only. -/
def isTypeLevel : Expr → Bool
  | .assertion _ _ => true
  | .instantiation _ _ => true
  | _ => false

/-- JavaScript looks past every node about types. -/
theorem isTypeLevel_written : (e : Expr) → (e.written .javaScript).isTypeLevel = false
  | .assertion e _ => isTypeLevel_written e
  | .instantiation e _ => isTypeLevel_written e
  | .number _ | .string _ | .boolean _ | .null | .undefined | .unary _ _ | .binary _ _ _
  | .conditional _ _ _ | .array _ | .object _ | .lambda _ _ _ _ _ | .reference _ | .global _
  | .imported _ _ | .get _ _ | .call _ _ | .new _ _ => rfl

/-- What is written of an erased expression is what is written of it, erased. -/
theorem written_erase (kept : Bool) :
    (e : Expr) → (e.erase kept).written .javaScript = (e.written .javaScript).erase false
  | .assertion e _ => by cases kept <;> exact written_erase false e
  | .instantiation e _ => by cases kept <;> exact written_erase false e
  | .number _ | .string _ | .boolean _ | .null | .undefined | .unary _ _ | .binary _ _ _
  | .conditional _ _ _ | .array _ | .object _ | .lambda _ _ _ _ _ | .reference _ | .global _
  | .imported _ _ | .get _ _ | .call _ _ | .new _ _ => rfl

/-- What is written of an expression is written of it as it is. -/
theorem written_written :
    (e : Expr) → (e.written .javaScript).written .javaScript = e.written .javaScript
  | .assertion e _ => written_written e
  | .instantiation e _ => written_written e
  | .number _ | .string _ | .boolean _ | .null | .undefined | .unary _ _ | .binary _ _ _
  | .conditional _ _ _ | .array _ | .object _ | .lambda _ _ _ _ _ | .reference _ | .global _
  | .imported _ _ | .get _ _ | .call _ _ | .new _ _ => rfl

/-- What is decided about the node that is written is decided the same about an erased
expression, if it is so for every node that is not about types. -/
theorem decision_erase {α : Type} (decision : Expr → α)
    (hwritten : ∀ e, decision (e.written .javaScript) = decision e)
    (h : ∀ w : Expr, w.isTypeLevel = false → decision (w.erase false) = decision w)
    (kept : Bool) (e : Expr) : decision (e.erase kept) = decision e := by
  rw [← hwritten (e.erase kept), written_erase, h _ (isTypeLevel_written e), hwritten]

variable (kept : Bool) (e : Expr)

/-- Erased types do not change how strongly an expression binds without them. -/
@[simp] theorem strength_erase :
    (e.erase kept).strength .javaScript = e.strength .javaScript := by
  refine decision_erase (strength .javaScript) ?_ ?_ kept e
  · intro e
    rw [strength, strength, written_written]
  · intro w hw
    cases w <;> first | rfl | exact absurd hw (by simp [isTypeLevel])

/-- Nor how strongly it binds as an operand. -/
@[simp] theorem operandStrength_erase :
    (e.erase kept).operandStrength .javaScript = e.operandStrength .javaScript := by
  refine decision_erase (operandStrength .javaScript) ?_ ?_ kept e
  · intro e
    rw [operandStrength, operandStrength, written_written]
  · intro w hw
    cases w <;> first | rfl | exact absurd hw (by simp [isTypeLevel])

/-- Nor whether it looks like an operation with one operand. -/
@[simp] theorem isUnaryLike_erase :
    (e.erase kept).isUnaryLike .javaScript = e.isUnaryLike .javaScript := by
  refine decision_erase (isUnaryLike .javaScript) ?_ ?_ kept e
  · intro e
    rw [isUnaryLike, isUnaryLike, written_written]
  · intro w hw
    cases w <;> first | rfl | exact absurd hw (by simp [isTypeLevel])

/-- Nor its operator. -/
@[simp] theorem binaryOperator?_erase :
    (e.erase kept).binaryOperator? .javaScript = e.binaryOperator? .javaScript := by
  refine decision_erase (binaryOperator? .javaScript) ?_ ?_ kept e
  · intro e
    rw [binaryOperator?, binaryOperator?, written_written]
  · intro w hw
    cases w <;> first | rfl | exact absurd hw (by simp [isTypeLevel])

/-- Nor whether there is a call in its chain. -/
@[simp] theorem hasCallInChain_erase (kept : Bool) :
    (e : Expr) → (e.erase kept).hasCallInChain .javaScript = e.hasCallInChain .javaScript
  | .assertion e _ => by cases kept <;> exact hasCallInChain_erase false e
  | .instantiation e _ => by cases kept <;> exact hasCallInChain_erase false e
  | .get base _ => hasCallInChain_erase false base
  | .number _ | .string _ | .boolean _ | .null | .undefined | .unary _ _ | .binary _ _ _
  | .conditional _ _ _ | .array _ | .object _ | .lambda _ _ _ _ _ | .reference _ | .global _
  | .imported _ _ | .call _ _ | .new _ _ => rfl

end Expr

/-- So the same operands are wrapped. -/
@[simp] theorem BinaryOperator.wraps_erase (op : BinaryOperator) (side : Side) (kept : Bool)
    (e : Expr) : op.wraps .javaScript side (e.erase kept) = op.wraps .javaScript side e := by
  simp [wraps]

/-! ## Places -/

/-- A place with other types around it. -/
def Place.withTypes (p : Place) (types : Scope) : Place :=
  { p with types := types }

namespace Layout

variable {p : Place} (hp : p.dialect = .javaScript) (types : Scope) (e : Expr)

include hp

/-- An operand is written as before. -/
theorem operand_erase (least : Strength) (text : List Lexeme) :
    operand (p.withTypes types) least (e.erase false) text = operand p least e text := by
  simp [operand, Place.withTypes, hp]

/-- An operation with one operand is written as before. -/
theorem unary_erase (op : UnaryOperator) (text : List Lexeme) :
    unary (p.withTypes types) op (e.erase false) text = unary p op e text := by
  simp [unary, Place.withTypes, hp]

/-- An operation with two operands is written as before. -/
theorem binary_erase (op : BinaryOperator) (right : Expr) (text rightText : List Lexeme) :
    binary (p.withTypes types) op (e.erase false) (right.erase false) text rightText =
      binary p op e right text rightText := by
  simp [binary, Place.withTypes, hp]

/-- What comes after `new` is written as before. -/
theorem constructor_erase (text : List Lexeme) :
    constructor (p.withTypes types) (e.erase false) text = constructor p e text := by
  simp [constructor, Place.withTypes, hp]

/-- A body that is one expression is written as before. -/
theorem conciseBody_erase (text : List Lexeme) :
    conciseBody (p.withTypes types) (e.erase false) text = conciseBody p e text := by
  simp [conciseBody, Place.withTypes, hp]

/-- The left side of a member access is written as before. -/
theorem memberBase_erase (dotted : Bool) (text : List Lexeme) :
    memberBase (p.withTypes types) (e.erase false) dotted text = memberBase p e dotted text := by
  have hw := Expr.isTypeLevel_written e
  have hoperand := operand_erase hp types e .callMember text
  simp only [memberBase, Place.withTypes, hp, Expr.written_erase] at hoperand ⊢
  cases hwritten : e.written .javaScript <;> rw [hwritten] at hw <;>
    simp_all [Expr.erase, Expr.isTypeLevel]

/-- A member access is written as before; its key keeps what it is. -/
theorem get_erase (property : Expr) (text propertyText : List Lexeme) :
    get (p.withTypes types) (e.erase false) (property.erase true) text propertyText =
      get p e property text propertyText := by
  have hname : dottedName? (property.erase true) = dottedName? property := by
    cases property <;> rfl
  simp only [get, hname, memberBase_erase hp]

omit hp in
/-- A member is written as before, in the short form if it was. -/
theorem keyValue_erase (key value : Expr) (text valueText : List Lexeme) :
    keyValue (key.erase true) (value.erase true) text valueText =
      keyValue key value text valueText := by
  cases key with
  | string key => cases value <;> rfl
  | _ => rfl

/-- The types of a function are not written, whatever they are. -/
theorem function_erase (isAsync : Bool) (typeParameters typeParameters' : List (List Lexeme))
    (parameters : List (List Lexeme)) (returnType returnType' : Option (List Lexeme))
    (body : List Lexeme) :
    function (p.withTypes types) isAsync typeParameters parameters returnType body =
      function p isAsync typeParameters' parameters returnType' body := by
  have hq : (p.withTypes types).dialect = .javaScript := hp
  rw [function, function, typed_javaScript hq, typed_javaScript hp, annotation_javaScript hq,
    annotation_javaScript hp]

/-- The type of a binding is not written, whatever it is. -/
theorem binding_erase (keyword : String) (n : Identifier) (type type' : Option (List Lexeme))
    (value : List Lexeme) :
    binding (p.withTypes types) keyword n type value = binding p keyword n type' value := by
  have hq : (p.withTypes types).dialect = .javaScript := hp
  rw [binding, binding, annotation_javaScript hq, annotation_javaScript hp]

end Layout

namespace Place

variable (p : Place) (types : Scope)

/-- The place inside a function is known from the names of its parameters. -/
theorem bindFunction_erase (typeParameters : List TypeParameter)
    {parameters parameters' : List Parameter}
    (hnames : parameters'.map Parameter.name = parameters.map Parameter.name) :
    (p.withTypes types).bindFunction [] parameters' =
      (p.bindFunction typeParameters parameters).withTypes (types.push []) := by
  rw [bindFunction, bindFunction, hnames]
  rfl

/-- A block binds the same names. -/
theorem enterBlock_erase (bindings : List Identifier) (body : List Statement) :
    (p.withTypes types).enterBlock bindings (Statement.eraseAll body) =
      (p.enterBlock bindings body).withTypes types := by
  rw [enterBlock, enterBlock, Scope.enterBlock, Scope.enterBlock, blockBindings_eraseAll]
  rfl

end Place

/-- A function whose body has the layout of its erasure has it, too. -/
theorem Layout.function_parts_erase {p : Place} (hp : p.dialect = .javaScript) (types : Scope)
    (isAsync : Bool) (typeParameters : List TypeParameter)
    {parameters parameters' : List Parameter}
    (hnames : parameters'.map Parameter.name = parameters.map Parameter.name)
    (returnType returnType' : Option (List Lexeme)) {body body' : List Statement}
    (hbody : Statement.functionBody
        ((p.bindFunction typeParameters parameters).withTypes (types.push [])) body' =
      Statement.functionBody (p.bindFunction typeParameters parameters) body) :
    Layout.function (p.withTypes types) isAsync
        (TypeParameter.layouts ((p.withTypes types).bindFunction [] parameters') [])
        (Parameter.layouts ((p.withTypes types).bindFunction [] parameters') parameters')
        returnType'
        (Statement.functionBody ((p.withTypes types).bindFunction [] parameters') body') =
      Layout.function p isAsync
        (TypeParameter.layouts (p.bindFunction typeParameters parameters) typeParameters)
        (Parameter.layouts (p.bindFunction typeParameters parameters) parameters) returnType
        (Statement.functionBody (p.bindFunction typeParameters parameters) body) := by
  have hinner : (p.bindFunction typeParameters parameters).dialect = .javaScript := hp
  have hinner' : ((p.withTypes types).bindFunction [] parameters').dialect = .javaScript := hp
  rw [Parameter.layouts_javaScript hinner, Parameter.layouts_javaScript hinner', hnames,
    p.bindFunction_erase types typeParameters hnames, hbody]
  exact function_erase hp types ..

/-! ## Nodes -/

section Nodes

open Layout

mutual

/-- An expression has the layout of its erasure. -/
theorem Expr.layout_erase {p : Place} (hp : p.dialect = .javaScript) (types : Scope)
    (kept : Bool) : (e : Expr) → (e.erase kept).layout (p.withTypes types) = e.layout p
  | .number _ | .string _ | .boolean _ | .null | .undefined | .reference _ | .global _
  | .imported _ _ => rfl
  | .unary op e => by
      rw [Expr.erase, Expr.layout, Expr.layout, e.layout_erase hp types false, unary_erase hp]
  | .binary op left right => by
      rw [Expr.erase, Expr.layout, Expr.layout, left.layout_erase hp types false,
        right.layout_erase hp types false, binary_erase hp]
  | .conditional condition thenExpr elseExpr => by
      rw [Expr.erase, Expr.layout, Expr.layout, condition.layout_erase hp types false,
        thenExpr.layout_erase hp types false, elseExpr.layout_erase hp types false,
        operand_erase hp, operand_erase hp, operand_erase hp]
  | .array items => by
      rw [Expr.erase, Expr.layout, Expr.layout, ArrayItem.layouts_erase hp types items]
  | .object members => by
      rw [Expr.erase, Expr.layout, Expr.layout, Member.layouts_erase hp types members]
  | .lambda isAsync typeParameters parameters returnType body => by
      have hinner : (p.bindFunction typeParameters parameters).dialect = .javaScript := hp
      exact function_parts_erase hp types isAsync typeParameters (map_name_map_erase parameters)
        _ _ (Statement.functionBody_erase hinner (types.push []) body)
  | .get base property => by
      rw [Expr.erase, Expr.layout, Expr.layout, base.layout_erase hp types false,
        property.layout_erase hp types true, get_erase hp]
  | .call callee arguments => by
      rw [Expr.erase, Expr.layout, Expr.layout, callee.layout_erase hp types false,
        Expr.layouts_erase hp types arguments, operand_erase hp]
  | .new callee arguments => by
      rw [Expr.erase, Expr.layout, Expr.layout, callee.layout_erase hp types false,
        Expr.layouts_erase hp types arguments, constructor_erase hp]
  | .assertion e type => by
      have hq : (p.withTypes types).dialect = .javaScript := hp
      have he := e.layout_erase hp types false
      cases kept <;> simpa [Expr.erase, Expr.layout, Place.hasTypes, hp, hq] using he
  | .instantiation e arguments => by
      have hq : (p.withTypes types).dialect = .javaScript := hp
      have he := e.layout_erase hp types false
      cases kept <;> simpa [Expr.erase, Expr.layout, Place.hasTypes, hp, hq] using he

/-- Expressions are written as before. -/
theorem Expr.layouts_erase {p : Place} (hp : p.dialect = .javaScript) (types : Scope) :
    (es : List Expr) → Expr.layouts (p.withTypes types) (Expr.eraseAll es) = Expr.layouts p es
  | [] => rfl
  | e :: es => by
      rw [Expr.eraseAll, Expr.layouts, Expr.layouts, e.layout_erase hp types false,
        Expr.layouts_erase hp types es]

/-- Array items are written as before. -/
theorem ArrayItem.layouts_erase {p : Place} (hp : p.dialect = .javaScript) (types : Scope) :
    (items : List ArrayItem) →
      ArrayItem.layouts (p.withTypes types) (ArrayItem.eraseAll items) =
        ArrayItem.layouts p items
  | [] => rfl
  | ⟨e, spread⟩ :: items => by
      rw [ArrayItem.eraseAll, ArrayItem.layouts, ArrayItem.layouts,
        e.layout_erase hp types false, ArrayItem.layouts_erase hp types items]

/-- Members of an object are written as before. -/
theorem Member.layouts_erase {p : Place} (hp : p.dialect = .javaScript) (types : Scope) :
    (members : List Member) →
      Member.layouts (p.withTypes types) (Member.eraseAll members) = Member.layouts p members
  | [] => rfl
  | .spread e :: members => by
      rw [Member.eraseAll, Member.layouts, Member.layouts, e.layout_erase hp types false,
        Member.layouts_erase hp types members]
  | .keyValue key value :: members => by
      rw [Member.eraseAll, Member.layouts, Member.layouts, key.layout_erase hp types true,
        value.layout_erase hp types true, keyValue_erase, Member.layouts_erase hp types members]

/-- The body of a function is written as before, and in the same form. -/
theorem Statement.functionBody_erase {p : Place} (hp : p.dialect = .javaScript)
    (types : Scope) : (body : List Statement) →
      Statement.functionBody (p.withTypes types) (Statement.eraseAll body) =
        Statement.functionBody p body
  | [.returnValue e] => by
      rw [Statement.eraseAll, Statement.erase, Statement.eraseAll, Statement.functionBody,
        Statement.functionBody, e.layout_erase hp types false, conciseBody_erase hp]
  | [] => rfl
  | s :: ss => by
      have hs := s.layout_erase (p := p.enterBlock [] (s :: ss)) hp types
      have hss := Statement.layouts_erase (p := p.enterBlock [] (s :: ss)) hp types ss
      by_cases hconcise : ∃ e, s :: ss = [.returnValue e]
      · cases ss with
        | cons s' ss => exact absurd hconcise (by simp)
        | nil =>
            cases s with
            | returnValue e =>
                exact (congrArg (conciseBody _ _) (e.layout_erase hp types false)).trans
                  (conciseBody_erase hp types e _)
            | _ => exact absurd hconcise (by simp)
      · have hblock : ∀ e, s :: ss ≠ [.returnValue e] := fun e he => hconcise ⟨e, he⟩
        rw [Statement.functionBody_eq_block _ hblock,
          Statement.functionBody_eq_block _ (eraseAll_ne_returnValue hblock),
          p.enterBlock_erase types, Statement.eraseAll, Statement.layouts, Statement.layouts,
          hs, hss]
        rfl

/-- A statement is written as before. -/
theorem Statement.layout_erase {p : Place} (hp : p.dialect = .javaScript) (types : Scope) :
    (s : Statement) → s.erase.layout (p.withTypes types) = s.layout p
  | .evaluate e => by
      rw [Statement.erase, Statement.layout, Statement.layout, e.layout_erase hp types false]
  | .set target op value => by
      rw [Statement.erase, Statement.layout, Statement.layout,
        target.layout_erase hp types false, value.layout_erase hp types false]
  | .ifElse condition thenBody elseBody => by
      rw [Statement.erase, Statement.layout, Statement.layout,
        condition.layout_erase hp types false, p.enterBlock_erase types, p.enterBlock_erase types,
        Statement.layouts_erase (p := p.enterBlock [] thenBody) hp types thenBody,
        Statement.layouts_erase (p := p.enterBlock [] elseBody) hp types elseBody,
        elsePart, elsePart, isEmpty_eraseAll]
      rfl
  | .throwError e => by
      rw [Statement.erase, Statement.layout, Statement.layout, e.layout_erase hp types false]
  | .returnValue e => by
      rw [Statement.erase, Statement.layout, Statement.layout, e.layout_erase hp types false]
  | .returnVoid | .continueLoop | .breakLoop => rfl
  | .binding isConst n type value => by
      rw [Statement.erase, Statement.layout, Statement.layout, value.layout_erase hp types false]
      exact binding_erase hp types ..
  | .function isAsync n typeParameters parameters returnType body => by
      have hinner : (p.bindFunction typeParameters parameters).dialect = .javaScript := hp
      rw [Statement.erase, Statement.layout, Statement.layout,
        function_parts_erase hp types isAsync typeParameters (map_name_map_erase parameters)
          (some (returnType.layout (p.bindFunction typeParameters parameters))) _
          (Statement.functionBody_erase hinner (types.push []) body)]
      exact binding_erase hp types ..
  | .forCount counter bound body => by
      have hcounter : (p.withTypes types).bindValues [counter] =
          (p.bindValues [counter]).withTypes types := rfl
      rw [Statement.erase, Statement.layout, Statement.layout, hcounter,
        bound.layout_erase (p := p.bindValues [counter]) hp types false, operand_erase hp,
        p.enterBlock_erase types,
        Statement.layouts_erase (p := p.enterBlock [counter] body) hp types body]
      rfl
  | .forOf element iterable body => by
      rw [Statement.erase, Statement.layout, Statement.layout,
        iterable.layout_erase hp types false, p.enterBlock_erase types,
        Statement.layouts_erase (p := p.enterBlock [element] body) hp types body]
      rfl
  | .whileTrue body => by
      rw [Statement.erase, Statement.layout, Statement.layout, p.enterBlock_erase types,
        Statement.layouts_erase (p := p.enterBlock [] body) hp types body]
      rfl
  | .switch subject cases => by
      rw [Statement.erase, Statement.layout, Statement.layout,
        subject.layout_erase hp types false, SwitchCase.layouts_erase hp types cases]
      rfl
  | .tryCatch body parameter handler => by
      rw [Statement.erase, Statement.layout, Statement.layout, p.enterBlock_erase types,
        p.enterBlock_erase types,
        Statement.layouts_erase (p := p.enterBlock [] body) hp types body,
        Statement.layouts_erase (p := p.enterBlock [parameter] handler) hp types handler]
      rfl

/-- The statements of a body are written as before. -/
theorem Statement.layouts_erase {p : Place} (hp : p.dialect = .javaScript) (types : Scope) :
    (ss : List Statement) →
      Statement.layouts (p.withTypes types) (Statement.eraseAll ss) = Statement.layouts p ss
  | [] => rfl
  | s :: ss => by
      rw [Statement.eraseAll, Statement.layouts, Statement.layouts, s.layout_erase hp types,
        Statement.layouts_erase hp types ss]

/-- Cases of a `switch` are written as before. -/
theorem SwitchCase.layouts_erase {p : Place} (hp : p.dialect = .javaScript) (types : Scope) :
    (cases : List SwitchCase) →
      SwitchCase.layouts (p.withTypes types) (SwitchCase.eraseAll cases) =
        SwitchCase.layouts p cases
  | [] => rfl
  | ⟨label, body⟩ :: cases => by
      have hdeeper : (p.withTypes types).deeper = p.deeper.withTypes types := rfl
      rw [SwitchCase.eraseAll, SwitchCase.layouts, SwitchCase.layouts, hdeeper,
        p.deeper.enterBlock_erase types,
        Statement.layouts_erase (p := p.deeper.enterBlock [] body) hp types body,
        SwitchCase.layouts_erase hp types cases]
      rfl

end

end Nodes

/-! ## Definitions and modules -/

section Definitions

variable {p : Place} (hp : p.dialect = .javaScript) (types : Scope)

include hp

/-- The definition of a function is written as before. -/
theorem FunctionDefinition.layout_erase (f : FunctionDefinition) :
    FunctionDefinition.layout (p.withTypes types) { f with
      typeParameters := []
      parameters := f.parameters.map DocumentedParameter.erase
      returnType := .erased
      body := Statement.eraseAll f.body } = f.layout p := by
  have hinner : (p.bindFunction f.typeParameters
      (f.parameters.map DocumentedParameter.toParameter)).dialect = .javaScript := hp
  -- Documents name the parameters but show nothing of their types.
  have hdocument : (f.parameters.map DocumentedParameter.erase).filterMap
      DocumentedParameter.documentLine? =
        f.parameters.filterMap DocumentedParameter.documentLine? := by
    rw [List.filterMap_map]
    rfl
  rw [FunctionDefinition.layout, FunctionDefinition.layout, FunctionDefinition.fullDocument,
    FunctionDefinition.fullDocument, hdocument,
    Layout.function_parts_erase hp types f.isAsync f.typeParameters
      (map_name_map_eraseDocumented f.parameters) (some (f.returnType.layout _)) _
      (Statement.functionBody_erase hinner (types.push []) f.body),
    Layout.binding_erase hp types "const" f.name none none]

/-- The definition of a variable is written as before. -/
theorem VariableDefinition.layout_erase (b : VariableDefinition) :
    VariableDefinition.layout (p.withTypes types)
      { b with type := none, value := b.value.erase false } = b.layout p := by
  rw [VariableDefinition.layout, VariableDefinition.layout, b.value.layout_erase hp types false,
    Layout.binding_erase hp types "const" b.name _ (TypeExpr.optionLayout p b.type)]

/-- A definition leaves what its erasure leaves, and a type alias leaves nothing. -/
theorem Definition.layout?_erase (d : Definition) :
    d.erase?.bind (Definition.layout? (p.withTypes types)) = d.layout? p := by
  cases d with
  | typeAlias a => simp [erase?, Definition.layout?, Place.hasTypes, hp]
  | function f =>
      simpa [erase?, Definition.layout?] using FunctionDefinition.layout_erase hp types f
  | binding b =>
      simpa [erase?, Definition.layout?] using VariableDefinition.layout_erase hp types b

end Definitions

namespace Module

/-- The definitions of an erased module are written with the same values around them. -/
theorem place_erase (m : Module) (dialect : Dialect) :
    m.erase.place dialect = (m.place dialect).withTypes (.root m.erase.typeNames) := by
  rw [place, place, scope, scope, valueNames_erase]
  rfl

/-- A module has the lexemes of its erasure. -/
theorem layout_erase (m : Module) (table : ImportTable) (links : List String) :
    m.erase.layout table .javaScript links = m.layout table .javaScript links := by
  have hp : (m.place .javaScript).dialect = .javaScript := rfl
  have hdefinitions : m.erase.definitions.filterMap
      (Definition.layout? (m.erase.place .javaScript)) =
        m.definitions.filterMap (Definition.layout? (m.place .javaScript)) := by
    rw [erase, List.filterMap_filterMap, ← erase, place_erase]
    congr 1
    funext d
    exact Definition.layout?_erase hp _ d
  have hstatements : m.erase.statementSection (m.erase.place .javaScript) =
      m.statementSection (m.place .javaScript) := by
    have hlayouts := Statement.layouts_erase
      (p := (m.place .javaScript).enterBlock [] m.statements) hp (.root m.erase.typeNames)
      m.statements
    rw [statementSection, statementSection, place_erase]
    rw [show m.erase.statements = Statement.eraseAll m.statements from rfl, isEmpty_eraseAll,
      Place.enterBlock_erase, hlayouts]
    rfl
  rw [layout, layout, sections, sections, hdefinitions, hstatements]

/-- A module has the text of its erasure in JavaScript, or neither has a text and the
faults are the same.  So it is for modules that differ only in types. -/
theorem render_erase (m : Module) :
    (∀ table links,
      m.erase.render table .javaScript links = m.render table .javaScript links) ∧
    ∀ m' : Module, m'.erase = m.erase → ∀ table links,
      m'.render table .javaScript links = m.render table .javaScript links := by
  have hrender (m : Module) (table : ImportTable) (links : List String) :
      m.erase.render table .javaScript links = m.render table .javaScript links := by
    rw [render, render, layout_erase]
  refine ⟨hrender m, ?_⟩
  intro m' h table links
  rw [← hrender m', h, hrender m]

/-- An alias, an annotation and an assertion, which TypeScript shows, make no difference
to JavaScript: the number in the assertion has its parentheses. -/
theorem render_erase_assertion :
    let typed : Module := ⟨[.typeAlias ⟨true, .ofString "T", [], "", .number⟩],
      [.evaluate (.binary .exponentiation (.assertion (.number (-1)) .number) (.number 2))]⟩
    let bare : Module := ⟨[], [.evaluate (.binary .exponentiation (.number (-1)) (.number 2))]⟩
    typed.erase = bare.erase ∧
      typed.layout ⟨[]⟩ .typeScript [] ≠ bare.layout ⟨[]⟩ .typeScript [] ∧
      typed.render ⟨[]⟩ .javaScript [] = bare.render ⟨[]⟩ .javaScript [] := by
  intro typed bare
  have herase : typed.erase = bare.erase := rfl
  have hlength : (typed.layout ⟨[]⟩ .typeScript []).length ≠
      (bare.layout ⟨[]⟩ .typeScript []).length := by decide
  exact ⟨herase, fun h => hlength (congrArg List.length h),
    (render_erase bare).2 typed herase ⟨[]⟩ []⟩

end Module

end EcmaWriter
