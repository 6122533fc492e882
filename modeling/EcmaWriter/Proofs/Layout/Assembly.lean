import EcmaWriter.Proofs.Layout.Fragments

/-!
# EcmaWriter - Layouts put together from fragments

The layout of a node is a form with the layouts of its parts in it.  The same form with the
parts themselves gives the fragments.  So the fragments of a node have the text of the node,
and they have its parts, each of them once and in their order.

Main results:

- Theorem `Writing.texts_fragments`: the fragments of a node, one after the other, are what is
  written of it.
- Theorem `Writing.writings_fragments`: the parts among them are the parts of the node.
-/

namespace EcmaWriter

open Lexeme (mark word space newline indent)
open Fragment
open Writing (ofExprs ofTypes annotations ofBody ofFunction)

/-! ## Texts -/

section Nodes

variable (p : Place) (inHead : Bool)

/-- An expression among the fragments stands for its layout. -/
@[simp] theorem Fragment.texts_ofExpr (e : Expr) (fs : List Fragment) :
    texts (ofExpr p inHead e :: fs) = e.layout p ++ texts fs := rfl

/-- A type among the fragments stands for its layout. -/
@[simp] theorem Fragment.texts_ofType (t : TypeExpr) (fs : List Fragment) :
    texts (ofType p inHead t :: fs) = t.layout p ++ texts fs := rfl

/-- A block among the fragments stands for its braces and its statements. -/
@[simp] theorem Fragment.texts_ofBlock (bindings : List Identifier) (body : List Statement)
    (fs : List Fragment) :
    texts (ofBlock p inHead bindings body :: fs) =
      Layout.block p (Statement.layouts (p.enterBlock bindings body) body) ++ texts fs := rfl

/-- Expressions, each a fragment by itself, have the texts of their layouts. -/
theorem Expr.map_texts_ofExpr (es : List Expr) :
    es.map (texts ∘ fun e => [ofExpr p inHead e]) = Expr.layouts p es := by
  rw [Expr.layouts_eq_map]
  exact List.map_congr_left fun e _ => List.append_nil _

/-- Types, each a fragment by itself, have the texts of their layouts. -/
theorem TypeExpr.map_texts_ofType (ts : List TypeExpr) :
    ts.map (texts ∘ fun t => [ofType p inHead t]) = TypeExpr.layouts p ts := by
  rw [TypeExpr.layouts_eq_map]
  exact List.map_congr_left fun t _ => List.append_nil _

/-- Type arguments come between angle brackets. -/
@[simp] theorem Fragment.texts_arguments (ts : List TypeExpr) :
    texts (Fragment.arguments p inHead ts) = Lexeme.angled (TypeExpr.layouts p ts) := by
  rw [Fragment.arguments, texts_angled, List.map_map, TypeExpr.map_texts_ofType]

/-- The text of an annotation: a type after its colon, or nothing without types. -/
@[simp] theorem Fragment.texts_ascribed (type : Option TypeExpr) :
    texts (Fragment.ascribed p inHead type) =
      Layout.annotation p (TypeExpr.optionLayout p type) := by
  cases type with
  | none => rfl
  | some t =>
      rw [Fragment.ascribed, TypeExpr.optionLayout, Layout.annotation, Layout.typed]
      split <;> simp

/-- The texts of type parameters, each with the constraint that it may have. -/
theorem TypeParameter.map_texts_fragments (qs : List TypeParameter) :
    qs.map (texts ∘ TypeParameter.fragments p inHead) = TypeParameter.layouts p qs := by
  induction qs with
  | nil => rfl
  | cons q qs ih =>
      rcases q with ⟨n, constraint⟩
      rw [List.map_cons, ih, TypeParameter.layouts]
      cases constraint <;>
        simp [TypeParameter.fragments, Layout.typeParameter, TypeExpr.optionLayout]

/-- The texts of parameters, each with the type that it may have. -/
theorem Parameter.map_texts_fragments (qs : List Parameter) :
    qs.map (texts ∘ Parameter.fragments p inHead) = Parameter.layouts p qs := by
  induction qs with
  | nil => rfl
  | cons q qs ih =>
      rcases q with ⟨n, type⟩
      rw [List.map_cons, ih, Parameter.layouts]
      simp [Parameter.fragments]

/-- The text of a body: a block, or the expression that is returned. -/
@[simp] theorem Fragment.texts_body (body : List Statement) :
    texts (Fragment.body p inHead body) = Statement.functionBody p body := by
  by_cases hconcise : ∃ e, body = [.returnValue e]
  · rcases hconcise with ⟨e, rfl⟩
    simp [Fragment.body, Statement.functionBody, Layout.conciseBody]
  · have hblock : ∀ e, body ≠ [.returnValue e] := fun e he => hconcise ⟨e, he⟩
    rw [Statement.functionBody_eq_block p hblock]
    unfold Fragment.body
    split
    · exact absurd rfl (hblock _)
    · simp

/-- Of its place a function only asks whether types are written. -/
@[simp] theorem Layout.function_bindFunction (typeParameters : List TypeParameter)
    (parameters : List Parameter) :
    Layout.function (p.bindFunction typeParameters parameters) = Layout.function p := rfl

/-- The text of a function, from its type parameters to its body. -/
@[simp] theorem Fragment.texts_function (isAsync : Bool) (typeParameters : List TypeParameter)
    (parameters : List Parameter) (result : Option TypeExpr) (body : List Statement) :
    texts (Fragment.function p inHead isAsync typeParameters parameters result body) =
      Layout.function p isAsync (TypeParameter.layouts p typeParameters)
        (Parameter.layouts p parameters) (TypeExpr.optionLayout p result)
        (Statement.functionBody p body) := by
  have htyped : texts (if p.hasTypes then
      angled (typeParameters.map (TypeParameter.fragments p true)) else []) =
        Layout.typed p (Lexeme.angled (TypeParameter.layouts p typeParameters)) := by
    rw [Layout.typed, ← TypeParameter.map_texts_fragments p true]
    split <;> simp
  simp [Fragment.function, Layout.function, htyped, Parameter.map_texts_fragments]

/-- The text of a binding, whose value is in the last fragments. -/
@[simp] theorem Fragment.texts_binding (keyword : String) (n : Identifier)
    (type : Option TypeExpr) (value : List Fragment) :
    texts (Fragment.binding p inHead keyword n type value) =
      Layout.binding p keyword n (TypeExpr.optionLayout p type) (texts value) := by
  simp [Fragment.binding, Layout.binding]

/-- The text of a keyword with its head in parentheses. -/
@[simp] theorem Fragment.texts_headed (keyword : String) (head : List Fragment) :
    texts (Fragment.headed keyword head) = Layout.headed keyword (texts head) := by
  simp [Fragment.headed, Layout.headed, Lexeme.parenthesized]

/-- The texts of array items, each with the dots of a spread if it is one. -/
theorem ArrayItem.map_texts_fragments (items : List ArrayItem) :
    items.map (texts ∘ ArrayItem.fragments p inHead) = ArrayItem.layouts p items := by
  induction items with
  | nil => rfl
  | cons item items ih =>
      rcases item with ⟨e, spread⟩
      rw [List.map_cons, ih, ArrayItem.layouts]
      simp [ArrayItem.fragments]

/-- The text of a member in its short form, and of one with a key and a colon. -/
theorem Member.texts_fragments_keyValue (key value : Expr) :
    texts (Member.fragments p inHead (.keyValue key value)) =
      Layout.keyValue key value (key.layout p) (value.layout p) := by
  cases key with
  | string text =>
      cases value with
      | reference n =>
          rw [Member.fragments, Layout.keyValue]
          split <;> simp
      | _ => simp [Member.fragments, Layout.keyValue]
  | _ => simp [Member.fragments, Layout.keyValue]

/-- The texts of the members of an object, spreads included. -/
theorem Member.map_texts_fragments (members : List Member) :
    members.map (texts ∘ Member.fragments p inHead) = Member.layouts p members := by
  induction members with
  | nil => rfl
  | cons member members ih =>
      rw [List.map_cons, ih, Function.comp_apply]
      cases member with
      | spread e => simp [Member.layouts, Member.fragments]
      | keyValue key value => rw [Member.layouts, Member.texts_fragments_keyValue]

/-- The text of the left side of a member access, in parentheses where it needs them. -/
@[simp] theorem Fragment.texts_memberBase (base : Expr) (dotted : Bool) :
    texts (Fragment.memberBase p inHead base dotted) =
      Layout.memberBase p base dotted (base.layout p) := by
  unfold Fragment.memberBase Layout.memberBase
  cases base.written p.dialect with
  | number value =>
      dsimp only
      split <;> simp [Layout.operand]
  | instantiation e arguments => simp [Lexeme.wrappedIf]
  | _ => simp [Layout.operand]

/-- The fragments of an expression have the text of its layout. -/
theorem Expr.texts_fragments (e : Expr) : texts (e.fragments p inHead) = e.layout p := by
  cases e with
  | unary op e => simp [Expr.fragments, Expr.layout, Layout.unary]
  | binary op left right => simp [Expr.fragments, Expr.layout, Layout.binary]
  | conditional condition thenExpr elseExpr =>
      simp [Expr.fragments, Expr.layout, Layout.operand]
  | array items => simp [Expr.fragments, Expr.layout, ArrayItem.map_texts_fragments]
  | object members => simp [Expr.fragments, Expr.layout, Member.map_texts_fragments]
  | lambda isAsync typeParameters parameters returnType body =>
      simp [Expr.fragments, Expr.layout]
  | get base property =>
      cases hname : Layout.dottedName? property <;>
        simp [Expr.fragments, Expr.layout, Layout.get, hname]
  | call callee arguments =>
      simp [Expr.fragments, Expr.layout, Layout.operand, Expr.map_texts_ofExpr]
  | new callee arguments =>
      simp [Expr.fragments, Expr.layout, Layout.constructor, Expr.map_texts_ofExpr]
  | assertion e type =>
      rw [Expr.fragments, Expr.layout]
      split <;> simp [Layout.operand]
  | instantiation e arguments =>
      rw [Expr.fragments, Expr.layout]
      split <;> simp [Layout.operand, Layout.applied]
  | _ => simp [Expr.fragments]

/-- The texts of members of an object type, without the lines that they are on. -/
theorem MemberType.map_texts_fragments (members : List MemberType) :
    members.map (texts ∘ MemberType.fragments p inHead) = MemberType.layouts p members := by
  induction members with
  | nil => rfl
  | cons member members ih =>
      rcases member with ⟨key, required, readonly, type, document⟩
      have hkey : texts (PropertyName.fragments p inHead key) = key.layout p := by
        cases key <;> simp [PropertyName.fragments, PropertyName.layout]
      rw [List.map_cons, ih, MemberType.layouts]
      simp [MemberType.fragments, Layout.memberType, hkey]

/-- Members on lines of their own, each with its document. -/
theorem MemberType.map_texts_lines (members : List MemberType) :
    members.map (texts ∘ fun m => own (Layout.memberHead p m.document)
        :: MemberType.fragments p.deeper inHead m ++ [own [mark ";"]]) =
      (members.zip (MemberType.layouts p.deeper members)).map fun (m, text) =>
        Layout.memberHead p m.document ++ text ++ [mark ";"] := by
  rw [← MemberType.map_texts_fragments p.deeper inHead, List.zip_map_right, List.map_map]
  induction members with
  | nil => rfl
  | cons m members ih =>
      rw [List.map_cons, ih, List.zip_cons_cons, List.map_cons]
      simp

/-- The text of a type in a union or an intersection, wrapped if it is weaker. -/
@[simp] theorem Fragment.texts_constituent (inIntersection : Bool) (t : TypeExpr) :
    texts (Fragment.constituent p inHead inIntersection t) =
      Layout.constituent inIntersection t (t.layout p) := by
  cases t <;> simp [Fragment.constituent, Layout.constituent, Lexeme.wrappedIf]

/-- The texts of the types of a union, each wrapped if it needs it. -/
theorem TypeExpr.map_texts_constituent (ts : List TypeExpr) :
    ts.map (texts ∘ Fragment.constituent p inHead false) = TypeExpr.constituents p ts := by
  induction ts with
  | nil => rfl
  | cons t ts ih =>
      rw [List.map_cons, ih, TypeExpr.constituents]
      simp

/-- The fragments of a type have the text of its layout. -/
theorem TypeExpr.texts_fragments (t : TypeExpr) : texts (t.fragments p inHead) = t.layout p := by
  cases t with
  | object members =>
      rw [TypeExpr.fragments, TypeExpr.layout]
      split
      · simp [MemberType.map_texts_fragments]
      · rw [texts_lines, List.map_map, MemberType.map_texts_lines]
        rfl
  | function typeParameters parameters result =>
      simp [TypeExpr.fragments, TypeExpr.layout, TypeParameter.map_texts_fragments,
        Layout.functionTypeParameters_eq_zipWith, TypeExpr.layouts_eq_map, List.map_zipWith,
        List.zipWith_map_right]
  | union types =>
      rw [TypeExpr.fragments, TypeExpr.layout]
      split
      · simp
      · rw [texts_separated, List.map_map, TypeExpr.map_texts_constituent]
  | intersection left right => simp [TypeExpr.fragments, TypeExpr.layout]
  | _ => simp [TypeExpr.fragments, TypeExpr.layout, Layout.applied]

/-- The texts of the cases of a `switch`, each a label and a block. -/
theorem SwitchCase.map_texts_fragments (cases : List SwitchCase) :
    cases.map (texts ∘ SwitchCase.fragments p inHead) = SwitchCase.layouts p cases := by
  induction cases with
  | nil => rfl
  | cons c cases ih =>
      rcases c with ⟨label, body⟩
      rw [List.map_cons, ih, SwitchCase.layouts]
      simp [SwitchCase.fragments, Layout.switchCase]

/-- The fragments of a statement have the text of its layout. -/
theorem Statement.texts_fragments (statement : Statement) :
    texts (statement.fragments p inHead) = statement.layout p := by
  cases statement with
  | ifElse condition thenBody elseBody =>
      rw [Statement.fragments, Statement.layout, Layout.elsePart]
      split <;> simp
  | binding isConst n type value => simp [Statement.fragments, Statement.layout]
  | function isAsync n typeParameters parameters returnType body =>
      simp [Statement.fragments, Statement.layout, TypeExpr.optionLayout]
  | switch subject cases =>
      simp [Statement.fragments, Statement.layout, SwitchCase.map_texts_fragments]
  | _ =>
      simp [Statement.fragments, Statement.layout, Layout.opening, Layout.keyworded,
        Layout.countHead, Layout.operand]

/-- The fragments of a definition have the text that it gets, which may be none. -/
theorem Definition.texts_fragments (d : Definition) :
    texts (d.fragments p inHead) = (d.layout? p).getD [] := by
  cases d with
  | typeAlias a =>
      rw [Definition.fragments, Definition.layout?]
      split <;> simp [TypeAlias.layout, TypeParameter.map_texts_fragments]
  | function f => simp [Definition.fragments, Definition.layout?, FunctionDefinition.layout,
      TypeExpr.optionLayout]
  | binding b => simp [Definition.fragments, Definition.layout?, VariableDefinition.layout]

end Nodes

/-- The fragments of a node, one after the other, are what is written of it. -/
theorem Writing.texts_fragments (w : Writing) : texts w.fragments = w.lexemes := by
  rcases w with ⟨p, inHead, node⟩
  cases node with
  | definition d => exact d.texts_fragments p inHead
  | block bindings body =>
      rw [fragments, texts_lines, List.map_map, lexemes, Layout.block, Statement.layouts_eq_map,
        List.map_map]
      congr 1
      refine List.map_congr_left fun statement _ => ?_
      simp [lexemes]
  | statement statement => exact statement.texts_fragments p inHead
  | expr e => exact e.texts_fragments p inHead
  | type t => exact t.texts_fragments p inHead

/-! ## Parts -/

section Nodes

variable (p : Place) (inHead : Bool)

/-- An expression among the fragments is a part. -/
@[simp] theorem Fragment.writings_ofExpr (e : Expr) (fs : List Fragment) :
    writings (ofExpr p inHead e :: fs) = ⟨p, inHead, .expr e⟩ :: writings fs := rfl

/-- A type among the fragments is a part. -/
@[simp] theorem Fragment.writings_ofType (t : TypeExpr) (fs : List Fragment) :
    writings (ofType p inHead t :: fs) = ⟨p, inHead, .type t⟩ :: writings fs := rfl

/-- A block among the fragments is a part, with the names that it binds. -/
@[simp] theorem Fragment.writings_ofBlock (bindings : List Identifier) (body : List Statement)
    (fs : List Fragment) :
    writings (ofBlock p inHead bindings body :: fs) =
      ⟨p, inHead, .block bindings body⟩ :: writings fs := rfl

/-- Expressions, each a fragment by itself, are the parts. -/
theorem Fragment.flatMap_writings_ofExpr (es : List Expr) :
    (es.map fun e => [ofExpr p inHead e]).flatMap Fragment.writings = ofExprs p inHead es := by
  induction es with
  | nil => rfl
  | cons e es ih =>
      rw [List.map_cons, List.flatMap_cons, ih]
      rfl

/-- Types, each a fragment by itself, are the parts. -/
theorem Fragment.flatMap_writings_ofType (ts : List TypeExpr) :
    (ts.map fun t => [ofType p inHead t]).flatMap Fragment.writings = ofTypes p inHead ts := by
  induction ts with
  | nil => rfl
  | cons t ts ih =>
      rw [List.map_cons, List.flatMap_cons, ih]
      rfl

/-- The types after the made up names of a function type are the parts. -/
theorem Fragment.flatMap_writings_zipWith {names : List Identifier} {ts : List TypeExpr}
    (h : names.length = ts.length) :
    (List.zipWith (fun n t => [own [Layout.name n, mark ":", space], ofType p inHead t]) names
      ts).flatMap Fragment.writings = ofTypes p inHead ts := by
  induction ts generalizing names with
  | nil => simp [ofTypes]
  | cons t ts ih =>
      cases names with
      | nil => exact absurd h (by simp)
      | cons n names =>
          rw [List.zipWith_cons_cons, List.flatMap_cons, ih (Nat.succ.inj h)]
          rfl

/-- The parts of a list of type arguments are the types in it. -/
@[simp] theorem Fragment.writings_arguments (ts : List TypeExpr) :
    writings (Fragment.arguments p inHead ts) = ofTypes p inHead ts := by
  rw [Fragment.arguments, writings_angled, flatMap_writings_ofType]

@[simp] theorem Writing.annotations_nil : annotations p inHead [] = [] := by
  rw [annotations]
  split <;> rfl

/-- A type after a colon is a part if the place writes types. -/
@[simp] theorem Fragment.writings_ascribed (type : Option TypeExpr) :
    writings (Fragment.ascribed p inHead type) = annotations p inHead type.toList := by
  cases type with
  | none => exact (Writing.annotations_nil p inHead).symm
  | some t => rw [Fragment.ascribed, annotations]; split <;> rfl

/-- The parts of type parameters are their constraints. -/
theorem TypeParameter.flatMap_writings_fragments (qs : List TypeParameter) :
    (qs.map (TypeParameter.fragments p inHead)).flatMap Fragment.writings =
      ofTypes p inHead (qs.filterMap TypeParameter.constraint) := by
  induction qs with
  | nil => rfl
  | cons q qs ih =>
      rcases q with ⟨n, constraint⟩
      rw [List.map_cons, List.flatMap_cons, ih]
      cases constraint <;> rfl

/-- The parts of parameters are their types, if the place writes any. -/
theorem Parameter.flatMap_writings_fragments (qs : List Parameter) :
    (qs.map (Parameter.fragments p inHead)).flatMap Fragment.writings =
      annotations p inHead (qs.filterMap Parameter.type) := by
  induction qs with
  | nil => exact (Writing.annotations_nil p inHead).symm
  | cons q qs ih =>
      rcases q with ⟨n, type⟩
      rw [List.map_cons, List.flatMap_cons, ih, Parameter.fragments, writings_own,
        Fragment.writings_ascribed, annotations, annotations, annotations]
      cases type <;> split <;> rfl

/-- The body of a function is one part, whichever form it is written in. -/
@[simp] theorem Fragment.writings_body (body : List Statement) :
    writings (Fragment.body p inHead body) = [ofBody p inHead body] := by
  unfold Fragment.body ofBody
  split <;> simp

/-- The parts of a function: the types of its signature and its body. -/
@[simp] theorem Fragment.writings_function (isAsync : Bool) (typeParameters : List TypeParameter)
    (parameters : List Parameter) (result : Option TypeExpr) (body : List Statement) :
    writings (Fragment.function p inHead isAsync typeParameters parameters result body) =
      ofFunction p inHead typeParameters parameters result.toList body := by
  have htyped : writings (if p.hasTypes then
      angled (typeParameters.map (TypeParameter.fragments p true)) else []) =
        annotations p true (typeParameters.filterMap TypeParameter.constraint) := by
    rw [annotations, ← TypeParameter.flatMap_writings_fragments p true]
    split <;> simp
  have happend : ∀ ts us, annotations p true ts ++ annotations p true us =
      annotations p true (ts ++ us) := by
    intro ts us
    rw [annotations, annotations, annotations]
    split <;> simp [ofTypes]
  rw [ofFunction, signatureTypes, ← happend, ← happend]
  simp [Fragment.function, htyped, Parameter.flatMap_writings_fragments]

/-- The parts of a binding: the type of the name and what is in the value. -/
@[simp] theorem Fragment.writings_binding (keyword : String) (n : Identifier)
    (type : Option TypeExpr) (value : List Fragment) :
    writings (Fragment.binding p inHead keyword n type value) =
      annotations p inHead type.toList ++ writings value := by
  simp [Fragment.binding]

/-- A keyword and parentheses add no part. -/
@[simp] theorem Fragment.writings_headed (keyword : String) (head : List Fragment) :
    writings (Fragment.headed keyword head) = writings head := by
  simp [Fragment.headed]

/-- The parts of array items are their expressions, spread or not. -/
theorem ArrayItem.flatMap_writings_fragments (items : List ArrayItem) :
    (items.map (ArrayItem.fragments p inHead)).flatMap Fragment.writings =
      ofExprs p inHead (items.map ArrayItem.expr) := by
  induction items with
  | nil => rfl
  | cons item items ih =>
      rw [List.map_cons, List.flatMap_cons, ih]
      rfl

/-- The parts of members are their expressions; the short form has the value. -/
theorem Member.flatMap_writings_fragments (members : List Member) :
    (members.map (Member.fragments p inHead)).flatMap Fragment.writings =
      ofExprs p inHead (members.flatMap Member.exprs) := by
  have hmember : ∀ member : Member,
      writings (member.fragments p inHead) = ofExprs p inHead member.exprs := by
    intro member
    unfold Member.fragments
    split
    · rfl
    · split <;> rfl
    · rfl
    · rfl
  induction members with
  | nil => rfl
  | cons member members ih =>
      rw [List.map_cons, List.flatMap_cons, ih, hmember, List.flatMap_cons, ofExprs, ofExprs,
        ofExprs, List.map_append]

/-- The left side of a member access is one part. -/
@[simp] theorem Fragment.writings_memberBase (base : Expr) (dotted : Bool) :
    writings (Fragment.memberBase p inHead base dotted) = [⟨p, inHead, .expr base⟩] := by
  rw [Fragment.memberBase]
  split
  · split <;> simp
  · simp
  · simp

/-- The parts among the fragments of an expression are those of the expression. -/
theorem Expr.writings_fragments (e : Expr) :
    Fragment.writings (e.fragments p inHead) = e.writings p inHead := by
  cases e with
  | array items =>
      simp [Expr.fragments, Expr.writings, ArrayItem.flatMap_writings_fragments]
  | object members => simp [Expr.fragments, Expr.writings, Member.flatMap_writings_fragments]
  | get base property =>
      cases hname : Layout.dottedName? property <;>
        simp [Expr.fragments, Expr.writings, hname, ofExprs]
  | call callee arguments =>
      simp [Expr.fragments, Expr.writings, Fragment.flatMap_writings_ofExpr, ofExprs]
  | new callee arguments =>
      simp [Expr.fragments, Expr.writings, Fragment.flatMap_writings_ofExpr, ofExprs]
  | assertion e type =>
      rw [Expr.fragments, Expr.writings, annotations]
      split <;> simp [ofExprs, ofTypes]
  | instantiation e arguments =>
      rw [Expr.fragments, Expr.writings, annotations]
      split <;> simp [ofExprs]
  | _ => simp [Expr.fragments, Expr.writings, ofExprs]

/-- The parts of a member type: the computed key, if it has one, and the type. -/
theorem MemberType.flatMap_writings_fragments (members : List MemberType) :
    (members.map (MemberType.fragments p inHead)).flatMap Fragment.writings =
      MemberType.writings p inHead members := by
  induction members with
  | nil => rfl
  | cons member members ih =>
      rcases member with ⟨key, required, readonly, type, document⟩
      rw [List.map_cons, List.flatMap_cons, ih]
      cases key <;> simp [MemberType.fragments, PropertyName.fragments, MemberType.writings,
        PropertyName.exprs, ofExprs, ofTypes]

/-- A type of a union or an intersection is one part. -/
@[simp] theorem Fragment.writings_constituent (inIntersection : Bool) (t : TypeExpr) :
    writings (Fragment.constituent p inHead inIntersection t) = [⟨p, inHead, .type t⟩] := by
  cases t <;> simp [Fragment.constituent]

/-- The parts of a union are its types. -/
theorem TypeExpr.flatMap_writings_constituent (inIntersection : Bool) (ts : List TypeExpr) :
    (ts.map (Fragment.constituent p inHead inIntersection)).flatMap Fragment.writings =
      ofTypes p inHead ts := by
  rw [← Fragment.flatMap_writings_ofType, List.flatMap_map, List.flatMap_map]
  exact List.flatMap_congr fun t _ => Fragment.writings_constituent p inHead inIntersection t

/-- The parts among the fragments of a type are those of the type. -/
theorem TypeExpr.writings_fragments (t : TypeExpr) :
    Fragment.writings (t.fragments p inHead) = t.writings p inHead := by
  cases t with
  | object members =>
      rw [TypeExpr.fragments, TypeExpr.writings]
      split
      · rw [writings_braced, MemberType.flatMap_writings_fragments]
      · rw [writings_lines, ← MemberType.flatMap_writings_fragments, List.flatMap_map,
          List.flatMap_map]
        simp
  | function typeParameters parameters result =>
      simp [TypeExpr.fragments, TypeExpr.writings, TypeParameter.flatMap_writings_fragments,
        Fragment.flatMap_writings_zipWith, Layout.parameterNames, ofTypes]
  | union types =>
      rw [TypeExpr.fragments, TypeExpr.writings]
      split
      · simp_all [ofTypes]
      · rw [writings_separated, TypeExpr.flatMap_writings_constituent]
  | intersection left right => simp [TypeExpr.fragments, TypeExpr.writings, ofTypes]
  | _ => simp [TypeExpr.fragments, TypeExpr.writings]

/-- The parts among the fragments of a statement are those of the statement. -/
theorem Statement.writings_fragments (statement : Statement) :
    Fragment.writings (statement.fragments p inHead) = statement.writings p inHead := by
  cases statement with
  | ifElse condition thenBody elseBody =>
      rw [Statement.fragments, Statement.writings]
      split <;> simp [ofExprs]
  | switch subject cases =>
      have hcases : (cases.map (SwitchCase.fragments p inHead)).flatMap Fragment.writings =
          cases.map fun c => ⟨p.deeper, inHead, .block [] c.body⟩ := by
        rw [List.flatMap_map, List.map_eq_flatMap]
        rfl
      simp [Statement.fragments, Statement.writings, hcases, ofExprs]
  | _ => simp [Statement.fragments, Statement.writings, ofExprs]

/-- The parts among the fragments of a definition are those of the definition. -/
theorem Definition.writings_fragments (d : Definition) :
    Fragment.writings (d.fragments p inHead) = d.writings p inHead := by
  cases d with
  | typeAlias a =>
      have hinner : (p.bindTypes a.typeParameters).hasTypes = p.hasTypes := rfl
      rw [Definition.fragments, Definition.writings, annotations, hinner]
      split
      · simp [TypeParameter.flatMap_writings_fragments, ofTypes]
      · rfl
  | function f => simp [Definition.fragments, Definition.writings]
  | binding b => simp [Definition.fragments, Definition.writings, ofExprs]

end Nodes

/-- The parts among the fragments of a node are the parts of the node. -/
theorem Writing.writings_fragments (w : Writing) : Fragment.writings w.fragments = w.parts := by
  rcases w with ⟨p, inHead, node⟩
  cases node with
  | definition d => exact d.writings_fragments p inHead
  | block bindings body =>
      rw [fragments, writings_lines, parts, List.flatMap_map, List.map_eq_flatMap]
      rfl
  | statement statement => exact statement.writings_fragments p inHead
  | expr e => exact e.writings_fragments p inHead
  | type t => exact t.writings_fragments p inHead

end EcmaWriter
