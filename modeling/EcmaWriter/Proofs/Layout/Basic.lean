import EcmaWriter.Layout.Node

/-!
# EcmaWriter - Forms of the layout

Facts about what is written that need no look inside expressions.  JavaScript has no
types: annotations are not written, and an assertion or an instantiation is written as
the expression inside it.  The body of a function is a block, unless all it does is
return something.

Main results:

- Theorem `Statement.functionBody_eq_block`: the body of a function that is a block.
- Theorem `Layout.annotation_javaScript`: annotations are not written.
- Theorem `Expr.layout_written`: the node that is written for an expression has the
  layout of the expression.
-/

namespace EcmaWriter

namespace Layout

variable {p : Place}

/-- Without types nothing of them is written. -/
theorem typed_javaScript (hp : p.dialect = .javaScript) (text : List Lexeme) :
    typed p text = [] := by
  simp [typed, Place.hasTypes, hp]

/-- Annotations are not written. -/
theorem annotation_javaScript (hp : p.dialect = .javaScript) (type : Option (List Lexeme)) :
    Layout.annotation p type = [] := by
  cases type with
  | none => rfl
  | some text => exact typed_javaScript hp _

end Layout

/-- The body of a function is a block unless it is a single return. -/
theorem Statement.functionBody_eq_block (p : Place) {body : List Statement}
    (h : ∀ e, body ≠ [.returnValue e]) :
    Statement.functionBody p body =
      Layout.block p (Statement.layouts (p.enterBlock [] body) body) := by
  unfold Statement.functionBody
  split
  · exact absurd rfl (h _)
  · rfl
  · rfl

/-- Types are written one by one. -/
theorem TypeExpr.layouts_eq_map (p : Place) (ts : List TypeExpr) :
    TypeExpr.layouts p ts = ts.map (TypeExpr.layout p) := by
  induction ts with
  | nil => rfl
  | cons t ts ih => rw [TypeExpr.layouts, ih, List.map_cons]

/-- Expressions are written one by one. -/
theorem Expr.layouts_eq_map (p : Place) (es : List Expr) :
    Expr.layouts p es = es.map (Expr.layout p) := by
  induction es with
  | nil => rfl
  | cons e es ih => rw [Expr.layouts, ih, List.map_cons]

/-- Statements are written one by one. -/
theorem Statement.layouts_eq_map (p : Place) (body : List Statement) :
    Statement.layouts p body = body.map (Statement.layout p) := by
  induction body with
  | nil => rfl
  | cons statement body ih => rw [Statement.layouts, ih, List.map_cons]

/-- Without types a parameter is its name. -/
theorem Parameter.layouts_javaScript {p : Place} (hp : p.dialect = .javaScript)
    (parameters : List Parameter) :
    Parameter.layouts p parameters =
      (parameters.map Parameter.name).map fun n => [Layout.name n] := by
  induction parameters with
  | nil => rfl
  | cons q parameters ih =>
      rcases q with ⟨n, type⟩
      rw [Parameter.layouts, Layout.annotation_javaScript hp, ih]
      rfl

namespace Expr

/-- In TypeScript everything is written as the node that it is. -/
theorem written_typeScript (e : Expr) : e.written .typeScript = e := by
  cases e <;> rfl

/-- The node that is written for an expression has the layout of the expression. -/
theorem layout_written (p : Place) (e : Expr) :
    (e.written p.dialect).layout p = e.layout p := by
  generalize hd : p.dialect = dialect
  have htypes : p.hasTypes = (dialect = .typeScript : Bool) := by rw [Place.hasTypes, hd]
  fun_induction Expr.written dialect e with
  | case2 e t hjs ih =>
      subst hjs
      rw [ih, Expr.layout, htypes]
      rfl
  | case4 e ts hjs ih =>
      subst hjs
      rw [ih, Expr.layout, htypes]
      rfl
  | _ => rfl

/-- Only a string that is a property name is written after a point. -/
theorem eq_of_dottedName? {property : Expr} {key : String}
    (h : Layout.dottedName? property = some key) :
    property = .string key ∧ isPropertyName key = true := by
  cases property with
  | string name =>
      rw [Layout.dottedName?] at h
      split at h
      · obtain rfl := Option.some.inj h
        exact ⟨rfl, ‹_›⟩
      · exact absurd h (by simp)
  | _ => exact absurd h (by simp [Layout.dottedName?])

end Expr

end EcmaWriter
