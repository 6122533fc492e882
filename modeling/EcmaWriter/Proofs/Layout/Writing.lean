import EcmaWriter.Proofs.Layout.References
import EcmaWriter.Proofs.Tree.Occurrence

/-!
# EcmaWriter - Writings

The layout of a node is put together from the layouts of its parts, and each part is
written at a place of its own.  A writing is a node with its place.  Its parts are the
writings that the layout of the node asks for, in the order in which they are written:
in JavaScript no types, and for the body of a function that returns one expression just
the expression.

That these are the right parts at the right places can be seen from the references: those
of a node are its own and those of its parts, and what a reference to a built-in name looks
like depends on the place.

Main results:

- Definition `Writing.parts`: the parts of a node, each at the place where it is written.
- Theorem `Writing.references_eq`: the references of a node are its own and those of its
  parts.
-/

namespace EcmaWriter

open Lexeme (references)

/-! ## Writings and their parts -/

/-- A node with the place at which it is written. -/
structure Writing where
  place : Place
  /-- Whether it stands in the head of a function: in a constraint, in the type of a
  parameter or in the type of the result. -/
  inHead : Bool
  node : Node

namespace Writing

/-- Expressions that are written at the same place. -/
def ofExprs (p : Place) (inHead : Bool) (es : List Expr) : List Writing :=
  es.map fun e => ⟨p, inHead, .expr e⟩

/-- Types that are written at the same place. -/
def ofTypes (p : Place) (inHead : Bool) (ts : List TypeExpr) : List Writing :=
  ts.map fun t => ⟨p, inHead, .type t⟩

/-- Types that are written only where types are. -/
def annotations (p : Place) (inHead : Bool) (ts : List TypeExpr) : List Writing :=
  if p.hasTypes then ofTypes p inHead ts else []

/-- The body of a function: a returned expression, or a block. -/
def ofBody (p : Place) (inHead : Bool) : List Statement → Writing
  | [.returnValue e] => ⟨p, inHead, .expr e⟩
  | body => ⟨p, inHead, .block [] body⟩

/-- A body that is not one expression is a block without bindings. -/
theorem ofBody_eq_block {p : Place} {inHead : Bool} {body : List Statement}
    (h : ∀ e, body ≠ [.returnValue e]) : ofBody p inHead body = ⟨p, inHead, .block [] body⟩ := by
  unfold ofBody
  split
  · exact absurd rfl (h _)
  · rfl

/-- The head and the body of a function at the place inside it. -/
def ofFunction (p : Place) (inHead : Bool) (typeParameters : List TypeParameter)
    (parameters : List Parameter) (result : List TypeExpr) (body : List Statement) :
    List Writing :=
  annotations p true (signatureTypes typeParameters parameters result) ++ [ofBody p inHead body]

end Writing

open Writing

/-- The parts of an expression. -/
def Expr.writings (p : Place) (inHead : Bool) : Expr → List Writing
  | .unary _ e => ofExprs p inHead [e]
  | .binary _ left right => ofExprs p inHead [left, right]
  | .conditional condition thenExpr elseExpr => ofExprs p inHead [condition, thenExpr, elseExpr]
  | .array items => ofExprs p inHead (items.map ArrayItem.expr)
  | .object members => ofExprs p inHead (members.flatMap Member.exprs)
  | .lambda _ typeParameters parameters returnType body =>
    ofFunction (p.bindFunction typeParameters parameters) inHead typeParameters parameters
      returnType.toList body
  | .get base property => ofExprs p inHead [base, property]
  | .call callee arguments => ofExprs p inHead (callee :: arguments)
  | .new callee arguments => ofExprs p inHead (callee :: arguments)
  | .assertion e type => ofExprs p inHead [e] ++ annotations p inHead [type]
  | .instantiation e arguments => ofExprs p inHead [e] ++ annotations p inHead arguments
  | _ => []

/-- The parts of a statement. -/
def Statement.writings (p : Place) (inHead : Bool) : Statement → List Writing
  | .evaluate e => ofExprs p inHead [e]
  | .set target _ value => ofExprs p inHead [target, value]
  | .ifElse condition thenBody elseBody =>
    ofExprs p inHead [condition]
      ++ [⟨p, inHead, .block [] thenBody⟩, ⟨p, inHead, .block [] elseBody⟩]
  | .throwError e => ofExprs p inHead [e]
  | .returnValue e => ofExprs p inHead [e]
  | .binding _ _ type value => annotations p inHead type.toList ++ ofExprs p inHead [value]
  | .function _ _ typeParameters parameters returnType body =>
    ofFunction (p.bindFunction typeParameters parameters) inHead typeParameters parameters
      [returnType] body
  | .forCount counter bound body =>
    ofExprs (p.bindValues [counter]) inHead [bound] ++ [⟨p, inHead, .block [counter] body⟩]
  | .forOf element iterable body =>
    ofExprs p inHead [iterable] ++ [⟨p, inHead, .block [element] body⟩]
  | .whileTrue body => [⟨p, inHead, .block [] body⟩]
  | .switch subject cases =>
    ofExprs p inHead [subject] ++ cases.map fun c => ⟨p.deeper, inHead, .block [] c.body⟩
  | .tryCatch body parameter handler =>
    [⟨p, inHead, .block [] body⟩, ⟨p, inHead, .block [parameter] handler⟩]
  | _ => []

/-- The parts of members of an object type. -/
def MemberType.writings (p : Place) (inHead : Bool) (members : List MemberType) : List Writing :=
  members.flatMap fun m => ofExprs p inHead m.name.exprs ++ ofTypes p inHead [m.type]

/-- The parts of a type. -/
def TypeExpr.writings (p : Place) (inHead : Bool) : TypeExpr → List Writing
  | .object members =>
    MemberType.writings (if Layout.onOneLine members then p else p.deeper) inHead members
  | .function typeParameters parameters result =>
    ofTypes (p.bindTypes typeParameters) inHead
      (typeParameters.filterMap TypeParameter.constraint ++ parameters ++ [result])
  | .union types => ofTypes p inHead types
  | .intersection left right => ofTypes p inHead [left, right]
  | .imported _ _ arguments => ofTypes p inHead arguments
  | .inFile _ arguments => ofTypes p inHead arguments
  | .global _ arguments => ofTypes p inHead arguments
  | .namespaced _ _ arguments => ofTypes p inHead arguments
  | _ => []

/-- The parts of a definition. -/
def Definition.writings (p : Place) (inHead : Bool) : Definition → List Writing
  | .typeAlias a =>
    annotations (p.bindTypes a.typeParameters) inHead
      (a.typeParameters.filterMap TypeParameter.constraint ++ [a.type])
  | .function f =>
    let parameters := f.parameters.map DocumentedParameter.toParameter
    ofFunction (p.bindFunction f.typeParameters parameters) inHead f.typeParameters parameters
      [f.returnType] f.body
  | .binding b => annotations p inHead b.type.toList ++ ofExprs p inHead [b.value]

namespace Writing

/-- The parts of a writing. -/
def parts : Writing → List Writing
  | ⟨p, inHead, .definition d⟩ => d.writings p inHead
  | ⟨p, inHead, .block bindings body⟩ =>
    body.map fun statement => ⟨p.enterBlock bindings body, inHead, .statement statement⟩
  | ⟨p, inHead, .statement statement⟩ => statement.writings p inHead
  | ⟨p, inHead, .expr e⟩ => e.writings p inHead
  | ⟨p, inHead, .type t⟩ => t.writings p inHead

/-- What is written. A type alias leaves nothing in JavaScript. -/
def lexemes : Writing → List Lexeme
  | ⟨p, _, .definition d⟩ => (d.layout? p).getD []
  | ⟨p, _, .block bindings body⟩ =>
    Layout.block p (Statement.layouts (p.enterBlock bindings body) body)
  | ⟨p, _, .statement statement⟩ => statement.layout p
  | ⟨p, _, .expr e⟩ => e.layout p
  | ⟨p, _, .type t⟩ => t.layout p

/-- The reference that a node is by itself. -/
def own : Writing → List Lexeme
  | ⟨p, _, .expr (.global n)⟩ => [.globalValue (p.values.contains n.text) n]
  | ⟨_, _, .expr (.imported path _)⟩ => [.importOf path]
  | ⟨p, _, .type (.global n _)⟩ => [.globalType (p.types.contains n.text) n]
  | ⟨_, _, .type (.imported path _ _)⟩ => [.importOf path]
  | _ => []

end Writing

/-! ## References of lists of parts -/

section Lists

variable (p : Place) (inHead : Bool)

/-- The references of writings, one after the other. -/
def Writing.listReferences (ws : List Writing) : List Lexeme :=
  ws.flatMap fun w => references w.lexemes

@[simp] theorem listReferences_nil : listReferences [] = [] := rfl

@[simp] theorem listReferences_cons (w : Writing) (ws : List Writing) :
    listReferences (w :: ws) = references w.lexemes ++ listReferences ws := rfl

@[simp] theorem listReferences_append (ws vs : List Writing) :
    listReferences (ws ++ vs) = listReferences ws ++ listReferences vs :=
  List.flatMap_append

/-- References of expressions are those of the parts they are. -/
@[simp] theorem Expr.references_layouts (es : List Expr) :
    (Expr.layouts p es).flatMap references = listReferences (ofExprs p inHead es) := by
  induction es with
  | nil => rfl
  | cons e es ih =>
      rw [Expr.layouts, List.flatMap_cons, ih]
      rfl

/-- References of array items are those of their expressions. -/
theorem ArrayItem.references_layouts (items : List ArrayItem) :
    (ArrayItem.layouts p items).flatMap references =
      listReferences (ofExprs p inHead (items.map ArrayItem.expr)) := by
  induction items with
  | nil => rfl
  | cons item items ih =>
      rcases item with ⟨e, spread⟩
      have hitem : references ((if spread then [.mark "..."] else []) ++ e.layout p) =
          references (e.layout p) := by
        cases spread <;> simp
      rw [ArrayItem.layouts, List.flatMap_cons, ih, hitem]
      rfl

/-- References of members are those of their expressions. -/
theorem Member.references_layouts (members : List Member) :
    (Member.layouts p members).flatMap references =
      listReferences (ofExprs p inHead (members.flatMap Member.exprs)) := by
  induction members with
  | nil => rfl
  | cons member members ih =>
      cases member with
      | spread e =>
          rw [Member.layouts, List.flatMap_cons, ih]
          rfl
      | keyValue key value =>
          rw [Member.layouts, List.flatMap_cons, ih, Layout.references_keyValue,
            List.append_assoc]
          rfl

/-- References of types are those of the parts they are. -/
theorem TypeExpr.references_layouts (ts : List TypeExpr) :
    (TypeExpr.layouts p ts).flatMap references = listReferences (ofTypes p inHead ts) := by
  induction ts with
  | nil => rfl
  | cons t ts ih =>
      rw [TypeExpr.layouts, List.flatMap_cons, ih]
      rfl

/-- References of the types of a union, wrapped or not. -/
theorem TypeExpr.references_constituents (ts : List TypeExpr) :
    (TypeExpr.constituents p ts).flatMap references = listReferences (ofTypes p inHead ts) := by
  induction ts with
  | nil => rfl
  | cons t ts ih =>
      rw [TypeExpr.constituents, List.flatMap_cons, ih, Layout.references_constituent]
      rfl

/-- References of a type that may be left out. -/
theorem TypeExpr.references_optionLayout (t : Option TypeExpr) :
    (TypeExpr.optionLayout p t).toList.flatMap references =
      listReferences (ofTypes p inHead t.toList) := by
  cases t <;> rfl

/-- References of type parameters are those of their constraints. -/
theorem TypeParameter.references_layouts (ps : List TypeParameter) :
    (TypeParameter.layouts p ps).flatMap references =
      listReferences (ofTypes p inHead (ps.filterMap TypeParameter.constraint)) := by
  induction ps with
  | nil => rfl
  | cons parameter ps ih =>
      rcases parameter with ⟨n, constraint⟩
      rw [TypeParameter.layouts, List.flatMap_cons, ih]
      cases constraint with
      | none =>
          rw [List.filterMap_cons_none rfl]
          simp [Layout.typeParameter, Layout.name, TypeExpr.optionLayout]
      | some t =>
          have hcons : (⟨n, some t⟩ :: ps : List TypeParameter).filterMap
              TypeParameter.constraint = t :: ps.filterMap TypeParameter.constraint := rfl
          rw [hcons]
          simp [Layout.typeParameter, Layout.name, TypeExpr.optionLayout, ofTypes, lexemes]

/-- Types of parameters are written where types are. -/
theorem Parameter.references_layouts (ps : List Parameter) :
    (Parameter.layouts p ps).flatMap references =
      listReferences (annotations p inHead (ps.filterMap Parameter.type)) := by
  induction ps with
  | nil =>
      rw [annotations]
      split <;> rfl
  | cons parameter ps ih =>
      rcases parameter with ⟨n, type⟩
      have hhead : references
          (Layout.name n :: Layout.annotation p (TypeExpr.optionLayout p type)) =
            listReferences (annotations p inHead type.toList) := by
        rw [Lexeme.references_cons, Layout.references_annotation,
          TypeExpr.references_optionLayout p inHead, annotations]
        split <;> rfl
      rw [Parameter.layouts, List.flatMap_cons, ih, hhead, annotations, annotations, annotations]
      cases type <;> split <;> simp [ofTypes]

/-- References of members of an object type: of computed keys and of types. -/
theorem MemberType.references_layouts (members : List MemberType) :
    (MemberType.layouts p members).flatMap references =
      listReferences (MemberType.writings p inHead members) := by
  induction members with
  | nil => rfl
  | cons member members ih =>
      rcases member with ⟨key, required, readonly, type, document⟩
      have hkey : references (key.layout p) = listReferences (ofExprs p inHead key.exprs) := by
        cases key <;> simp [PropertyName.layout, PropertyName.exprs, ofExprs, lexemes]
      have hmember : references (Layout.memberType (key.layout p) required readonly
          (type.layout p)) = references (key.layout p) ++ references (type.layout p) := by
        cases required <;> cases readonly <;> simp [Layout.memberType]
      rw [MemberType.layouts, List.flatMap_cons, ih, hmember, hkey]
      simp [MemberType.writings, ofTypes, lexemes]

/-- Each member of an object type has one text. -/
@[simp] theorem MemberType.length_layouts (p : Place) (members : List MemberType) :
    (MemberType.layouts p members).length = members.length := by
  induction members with
  | nil => rfl
  | cons member members ih =>
      rcases member with ⟨key, required, readonly, type, document⟩
      rw [MemberType.layouts, List.length_cons, ih, List.length_cons]

/-- References of a body are those of its statements. -/
theorem Statement.references_layouts (body : List Statement) :
    (Statement.layouts p body).flatMap references =
      listReferences (body.map fun statement => ⟨p, inHead, .statement statement⟩) := by
  induction body with
  | nil => rfl
  | cons statement body ih =>
      rw [Statement.layouts, List.flatMap_cons, ih]
      rfl

/-- The body of a function, whichever form it has. -/
theorem Statement.references_functionBody (body : List Statement) :
    references (Statement.functionBody p body) = references (ofBody p inHead body).lexemes := by
  by_cases hconcise : ∃ e, body = [.returnValue e]
  · rcases hconcise with ⟨e, rfl⟩
    exact Layout.references_conciseBody p e _
  · have hblock : ∀ e, body ≠ [.returnValue e] := fun e he => hconcise ⟨e, he⟩
    rw [Statement.functionBody_eq_block p hblock, ofBody_eq_block hblock]
    rfl

/-- References of cases are those of their blocks. -/
theorem SwitchCase.references_layouts (cases : List SwitchCase) :
    (SwitchCase.layouts p cases).flatMap references =
      listReferences (cases.map fun c => ⟨p.deeper, inHead, .block [] c.body⟩) := by
  induction cases with
  | nil => rfl
  | cons c cases ih =>
      rcases c with ⟨label, body⟩
      rw [SwitchCase.layouts, List.flatMap_cons, ih]
      simp [Layout.switchCase, lexemes]

/-! ## References of one node -/

/-- A function refers to what its head refers to, as far as that is written, and its
body. -/
theorem Layout.references_function_parts (isAsync : Bool) (typeParameters : List TypeParameter)
    (parameters : List Parameter) (result : Option TypeExpr) (body : List Statement) :
    references (Layout.function p isAsync (TypeParameter.layouts p typeParameters)
        (Parameter.layouts p parameters) (TypeExpr.optionLayout p result)
        (Statement.functionBody p body)) =
      listReferences
        (ofFunction p inHead typeParameters parameters result.toList body) := by
  rw [Layout.references_function, TypeParameter.references_layouts p true,
    Parameter.references_layouts p true, TypeExpr.references_optionLayout p true,
    Statement.references_functionBody p inHead, ofFunction, annotations, annotations]
  split <;> simp [signatureTypes, ofTypes]

/-- An expression has its own reference, if any, and those of its parts. -/
theorem Expr.references_layout (e : Expr) :
    references (e.layout p) = own ⟨p, inHead, .expr e⟩ ++ listReferences (e.writings p inHead) := by
  cases e with
  | array items =>
      simp [Expr.layout, own, Expr.writings, ArrayItem.references_layouts p inHead]
  | object members =>
      simp [Expr.layout, own, Expr.writings, Member.references_layouts p inHead]
  | lambda isAsync typeParameters parameters returnType body =>
      exact Layout.references_function_parts (p.bindFunction typeParameters parameters) inHead
        isAsync typeParameters parameters returnType body
  | call callee arguments =>
      simp [Expr.layout, own, Expr.writings, Expr.references_layouts p inHead, ofExprs, lexemes]
  | new callee arguments =>
      simp [Expr.layout, own, Expr.writings, Expr.references_layouts p inHead, ofExprs, lexemes]
  | assertion e type =>
      by_cases htypes : p.hasTypes = true
      · simp [Expr.layout, own, Expr.writings, annotations, htypes, ofExprs, ofTypes, lexemes]
      · simp [Expr.layout, own, Expr.writings, annotations, htypes, ofExprs, lexemes]
  | instantiation e arguments =>
      by_cases htypes : p.hasTypes = true
      · simp [Expr.layout, own, Expr.writings, annotations, htypes, ofExprs, lexemes,
          TypeExpr.references_layouts p inHead]
      · simp [Expr.layout, own, Expr.writings, annotations, htypes, ofExprs, lexemes]
  | _ => simp [Expr.layout, own, Expr.writings, ofExprs, lexemes, Layout.name]

/-- A type has its own reference, if any, and those of its parts. -/
theorem TypeExpr.references_layout (t : TypeExpr) :
    references (t.layout p) = own ⟨p, inHead, .type t⟩ ++ listReferences (t.writings p inHead) := by
  cases t with
  | object members =>
      rw [TypeExpr.layout, TypeExpr.writings]
      split
      · rw [Layout.references_braced rfl, MemberType.references_layouts p inHead]
        rfl
      · rw [Layout.references_memberLines p (by simp),
          MemberType.references_layouts p.deeper inHead]
        rfl
  | function typeParameters parameters result =>
      simp [TypeExpr.layout, own, TypeExpr.writings, Layout.references_functionTypeParameters,
        TypeParameter.references_layouts _ inHead, TypeExpr.references_layouts _ inHead, ofTypes,
        lexemes]
  | union types =>
      rw [TypeExpr.layout]
      split
      · simp_all [own, TypeExpr.writings, ofTypes]
      · rw [Lexeme.references_separated rfl, TypeExpr.references_constituents p inHead]
        rfl
  | _ =>
      simp [TypeExpr.layout, own, TypeExpr.writings, TypeExpr.references_layouts p inHead,
        ofTypes, lexemes, Layout.name]

/-- A statement has the references of its parts. -/
theorem Statement.references_layout (statement : Statement) :
    references (statement.layout p) =
      own ⟨p, inHead, .statement statement⟩ ++ listReferences (statement.writings p inHead) := by
  cases statement with
  | ifElse condition thenBody elseBody =>
      have helse : references (Layout.elsePart elseBody
            (Layout.block p (Statement.layouts (p.enterBlock [] elseBody) elseBody))) =
          references (lexemes ⟨p, inHead, .block [] elseBody⟩) := by
        rw [Layout.elsePart]
        split
        · simp_all [lexemes, Statement.layouts]
        · simp [lexemes]
      simp [Statement.layout, own, Statement.writings, helse, ofExprs]
      simp [lexemes]
  | binding isConst n type value =>
      have htype : (if p.hasTypes then (TypeExpr.optionLayout p type).toList.flatMap references
          else []) = listReferences (annotations p inHead type.toList) := by
        rw [annotations, TypeExpr.references_optionLayout p inHead]
        split <;> rfl
      simp [Statement.layout, own, Statement.writings, htype, ofExprs, lexemes]
  | function isAsync n typeParameters parameters returnType body =>
      have hfunction := Layout.references_function_parts
        (p.bindFunction typeParameters parameters) inHead isAsync typeParameters parameters
        (some returnType) body
      rw [Statement.layout, Layout.references_binding, Option.toList_none, List.flatMap_nil,
        ite_self, List.nil_append]
      exact hfunction
  | switch subject cases =>
      simp [Statement.layout, own, Statement.writings, SwitchCase.references_layouts p inHead,
        ofExprs, lexemes]
  | _ => simp [Statement.layout, own, Statement.writings, ofExprs, lexemes, Layout.name]

/-- A definition has the references of its parts, if it is written. -/
theorem Definition.references_layout? (d : Definition) :
    references ((d.layout? p).getD []) =
      own ⟨p, inHead, .definition d⟩ ++ listReferences (d.writings p inHead) := by
  cases d with
  | typeAlias a =>
      by_cases htypes : p.hasTypes = true
      · have hinner : (p.bindTypes a.typeParameters).hasTypes = true := htypes
        simp [Definition.layout?, htypes, hinner, own, Definition.writings, annotations,
          TypeAlias.layout, TypeParameter.references_layouts _ inHead, Layout.name, ofTypes,
          lexemes]
      · have hinner : ¬ (p.bindTypes a.typeParameters).hasTypes = true := htypes
        simp [Definition.layout?, htypes, hinner, own, Definition.writings, annotations]
  | function f =>
      have hfunction := Layout.references_function_parts
        (p.bindFunction f.typeParameters (f.parameters.map DocumentedParameter.toParameter))
        inHead f.isAsync f.typeParameters (f.parameters.map DocumentedParameter.toParameter)
        (some f.returnType) f.body
      rw [Definition.layout?, Option.getD_some, FunctionDefinition.layout,
        Lexeme.references_append, Lexeme.references_append, Layout.references_documentOf,
        Layout.references_exportMark, Layout.references_binding, Option.toList_none,
        List.flatMap_nil, ite_self, List.nil_append, List.nil_append]
      exact hfunction
  | binding b =>
      have htype : (if p.hasTypes then (TypeExpr.optionLayout p b.type).toList.flatMap references
          else []) = listReferences (annotations p inHead b.type.toList) := by
        rw [annotations, TypeExpr.references_optionLayout p inHead]
        split <;> rfl
      simp [Definition.layout?, VariableDefinition.layout, own, Definition.writings, htype,
        ofExprs, lexemes]

end Lists

/-- The references of a node are its own and those of its parts, in their order. -/
theorem Writing.references_eq (w : Writing) :
    references w.lexemes = w.own ++ listReferences w.parts := by
  rcases w with ⟨p, inHead, node⟩
  cases node with
  | definition d => exact Definition.references_layout? p inHead d
  | block bindings body =>
      rw [lexemes, Layout.references_block, Statement.references_layouts _ inHead]
      rfl
  | statement statement => exact Statement.references_layout p inHead statement
  | expr e => exact Expr.references_layout p inHead e
  | type t => exact TypeExpr.references_layout p inHead t

end EcmaWriter
