import EcmaWriter.Generation
import EcmaWriter.Proofs.Scoping.Agreement

/-!
# EcmaWriter - What the heads of loops see

The bound of a counting loop is written where the counter is bound, so that a built-in value
of that name is qualified there.  What a loop goes over is written in the surroundings of the
loop: the element is bound in the body only, and a built-in value of its name is qualified
only if something else hides it, around the loop or inside the expression.

What is bound inside an expression can be said without the loop.  An expression binds the same
names wherever it stands, and only what is visible around it changes.  So the scopes inside it
are those of the expression by itself, put onto the scope in which it stands.

Main results:

- Definition `Scope.onto`: a scope with another one in place of its root.
- Theorem `Writing.all_onto`: inside a writing there are the same scopes, wherever it stands.
- Theorem `Module.heads_of_loops`: how built-in values are written in the heads of loops.
-/

namespace EcmaWriter

/-! ## Scopes in other scopes -/

namespace Scope

/-- A scope with another one in place of its root. -/
def onto : Scope → Scope → Scope
  | .root _, outer => outer
  | .child parent names, outer => .child (parent.onto outer) names

/-- What is visible in a scope that is put onto another one: what the scope itself binds, and
what is visible in the other one. -/
theorem contains_onto (s outer : Scope) (text : String) :
    (s.onto outer).contains text =
      ((s.onto (.root [])).contains text || outer.contains text) := by
  induction s with
  | root names => rfl
  | child parent names ih => rw [onto, contains, ih, onto, contains, Bool.or_assoc]

end Scope

/-! ## Writings in other scopes -/

/-- A place with its values in another scope. -/
def Place.onto (p : Place) (outer : Scope) : Place :=
  { p with values := p.values.onto outer }

namespace Writing

/-- A writing with its values in another scope. -/
def onto (w : Writing) (outer : Scope) : Writing :=
  { w with place := w.place.onto outer }

variable (outer : Scope) (p : Place) (inHead : Bool)

/-- Expressions of a node, with the place put onto other names. -/
theorem ofExprs_onto (es : List Expr) :
    ofExprs (p.onto outer) inHead es = (ofExprs p inHead es).map (onto · outer) := by
  simp [ofExprs, onto]

/-- Types of a node, with the place put onto other names. -/
theorem ofTypes_onto (ts : List TypeExpr) :
    ofTypes (p.onto outer) inHead ts = (ofTypes p inHead ts).map (onto · outer) := by
  simp [ofTypes, onto]

/-- Types that are only written with types, with the place put onto other names. -/
theorem annotations_onto (ts : List TypeExpr) :
    annotations (p.onto outer) inHead ts = (annotations p inHead ts).map (onto · outer) := by
  rw [annotations, annotations, ofTypes_onto]
  have htypes : (p.onto outer).hasTypes = p.hasTypes := rfl
  rw [htypes]
  split <;> rfl

/-- Parts of a function, with the place put onto other names. -/
theorem ofFunction_onto (typeParameters : List TypeParameter) (parameters : List Parameter)
    (result : List TypeExpr) (body : List Statement) :
    ofFunction ((p.bindFunction typeParameters parameters).onto outer) inHead typeParameters
        parameters result body =
      (ofFunction (p.bindFunction typeParameters parameters) inHead typeParameters parameters
        result body).map (onto · outer) := by
  have hbody : ∀ q : Place, ofBody (q.onto outer) inHead body =
      (ofBody q inHead body).onto outer := by
    intro q
    unfold ofBody
    split <;> rfl
  rw [ofFunction, ofFunction, annotations_onto, hbody, List.map_append]
  rfl

/-- Parts of an expression, with the place put onto other names. -/
theorem exprWritings_onto (e : Expr) :
    e.writings (p.onto outer) inHead = (e.writings p inHead).map (onto · outer) := by
  cases e with
  | lambda isAsync typeParameters parameters returnType body =>
      exact ofFunction_onto outer p inHead typeParameters parameters returnType.toList body
  | assertion e type =>
      rw [Expr.writings, Expr.writings, ofExprs_onto, annotations_onto, List.map_append]
  | instantiation e arguments =>
      rw [Expr.writings, Expr.writings, ofExprs_onto, annotations_onto, List.map_append]
  | _ => first | rfl | exact ofExprs_onto ..

/-- Parts of a statement, with the place put onto other names. -/
theorem statementWritings_onto (statement : Statement) :
    statement.writings (p.onto outer) inHead =
      (statement.writings p inHead).map (onto · outer) := by
  cases statement with
  | binding isConst n type value =>
      rw [Statement.writings, Statement.writings, ofExprs_onto, annotations_onto,
        List.map_append]
  | function isAsync n typeParameters parameters returnType body =>
      exact ofFunction_onto outer p inHead typeParameters parameters [returnType] body
  | switch subject cases =>
      rw [Statement.writings, Statement.writings, ofExprs_onto, List.map_append, List.map_map]
      rfl
  | _ => rfl

/-- Parts of a type, with the place put onto other names. -/
theorem typeWritings_onto (t : TypeExpr) :
    t.writings (p.onto outer) inHead = (t.writings p inHead).map (onto · outer) := by
  cases t with
  | object members =>
      have hmembers : ∀ q : Place, MemberType.writings (q.onto outer) inHead members =
          (MemberType.writings q inHead members).map (onto · outer) := by
        intro q
        rw [MemberType.writings, MemberType.writings, List.map_flatMap]
        refine List.flatMap_congr fun m _ => ?_
        rw [ofExprs_onto, ofTypes_onto, List.map_append]
      rw [TypeExpr.writings, TypeExpr.writings, ← hmembers]
      split <;> rfl
  | function typeParameters parameters result =>
      exact ofTypes_onto outer (p.bindTypes typeParameters) inHead _
  | _ => first | rfl | exact ofTypes_onto ..

/-- Parts of a definition, with the place put onto other names. -/
theorem definitionWritings_onto (d : Definition) :
    d.writings (p.onto outer) inHead = (d.writings p inHead).map (onto · outer) := by
  cases d with
  | typeAlias a => exact annotations_onto outer (p.bindTypes a.typeParameters) inHead _
  | function f => exact ofFunction_onto outer p inHead f.typeParameters _ [f.returnType] f.body
  | binding b =>
      rw [Definition.writings, Definition.writings, ofExprs_onto, annotations_onto,
        List.map_append]

/-- The parts of a writing bind the same names wherever it stands. -/
theorem parts_onto (w : Writing) : (w.onto outer).parts = w.parts.map (onto · outer) := by
  rcases w with ⟨p, inHead, node⟩
  cases node with
  | definition d => exact definitionWritings_onto outer p inHead d
  | block bindings body =>
      have hparts : ∀ q : Place, parts ⟨q, inHead, .block bindings body⟩ =
          body.map fun statement => ⟨q.enterBlock bindings body, inHead, .statement statement⟩ :=
        fun _ => rfl
      rw [hparts p, List.map_map]
      exact hparts (p.onto outer)
  | statement statement => exact statementWritings_onto outer p inHead statement
  | expr e => exact exprWritings_onto outer p inHead e
  | type t => exact typeWritings_onto outer p inHead t

/-- Inside a writing there are the same scopes, wherever it stands. -/
theorem all_onto (w : Writing) : (w.onto outer).all = w.all.map (onto · outer) := by
  induction w using induction_on with
  | step w ih =>
      rw [all_eq, all_eq w, parts_onto, List.map_cons, List.flatMap_map, List.map_flatMap,
        List.flatMap_congr ih]

/-- A writing that nothing stands around. -/
def alone (w : Writing) : Writing :=
  { w with place := { w.place with values := .root [] } }

/-- What is visible inside a writing: what the writing itself binds there, and what is visible
around it. -/
theorem contains_of_mem_alone {w a : Writing} (ha : a ∈ w.alone.all) (text : String) :
    (a.onto outer).place.values.contains text =
      (a.place.values.contains text || outer.contains text) := by
  have hmap : w.alone.all.map (onto · (.root [])) = w.alone.all.map id := by
    rw [← all_onto, List.map_id]
    rfl
  have hself : (a.onto (.root [])).place.values = a.place.values := by
    rw [List.map_inj_left.mp hmap a ha, id]
  rw [← hself]
  exact Scope.contains_onto _ _ _

/-- What is inside a writing, next to what is inside it when nothing stands around it. -/
theorem forall₂_alone (w : Writing) :
    List.Forall₂ (fun q a => a ∈ w.alone.all ∧ q = a.onto w.place.values) w.all w.alone.all := by
  have hall : w.all = w.alone.all.map (onto · w.place.values) := all_onto w.place.values w.alone
  rw [hall, List.forall₂_map_left_iff, List.forall₂_same]
  exact fun a ha => ⟨ha, rfl⟩

/-- A built-in value is qualified if a value that is visible there has its name. -/
theorem spellAll_global {w : Writing} {g : Identifier} (h : w.node = .expr (.global g))
    (table : ImportTable) :
    spellAll table w.lexemes = .ok (Lexeme.qualified (w.place.values.contains g.text) g) := by
  rcases w with ⟨p, inHead, node⟩
  obtain rfl : node = .expr (.global g) := h
  exact spellAll_singleton rfl

end Writing

/-! ## Loops -/

namespace Module

/-- In the heads of loops a built-in value is qualified if something hides it there.  For what
a loop goes over, that is a name bound inside the expression, or one visible around the loop:
the element of the loop makes no difference.  The bound of a counting loop is written with
the counter bound, so that a built-in value of its name is always qualified. -/
theorem heads_of_loops {m : Module} {dialect : Dialect} {w : Writing}
    (hw : w ∈ m.writings dialect) :
    (∀ element iterable body, w.node = .statement (.forOf element iterable body) →
      let head : Writing := ⟨w.place, w.inHead, .expr iterable⟩
      head.all ⊆ m.writings dialect ∧
        List.Forall₂
          (fun q a => q.node = a.node ∧ ∀ g table, q.node = .expr (.global g) →
            spellAll table q.lexemes = .ok (Lexeme.qualified
              (a.place.values.contains g.text || w.place.values.contains g.text) g))
          head.all head.alone.all) ∧
    ∀ counter bound body, w.node = .statement (.forCount counter bound body) →
      let head : Writing := ⟨w.place.bindValues [counter], w.inHead, .expr bound⟩
      head.all ⊆ m.writings dialect ∧
        ∀ q ∈ head.all, ∀ table, q.node = .expr (.global counter) →
          spellAll table q.lexemes = .ok ("globalThis." ++ counter.text) := by
  rcases w with ⟨p, inHead, node⟩
  constructor
  · rintro element iterable body rfl head
    have hhead : head ∈ Writing.parts ⟨p, inHead, .statement (.forOf element iterable body)⟩ :=
      List.mem_cons_self
    refine ⟨all_subset_writings (mem_writings_of_mem_parts hw hhead), head.forall₂_alone.imp ?_⟩
    rintro q a ⟨ha, rfl⟩
    refine ⟨rfl, ?_⟩
    intro g table hg
    rw [Writing.spellAll_global hg, Writing.contains_of_mem_alone _ ha]
  · rintro counter bound body rfl head
    have hhead : head ∈ Writing.parts ⟨p, inHead, .statement (.forCount counter bound body)⟩ :=
      List.mem_cons_self
    refine ⟨all_subset_writings (mem_writings_of_mem_parts hw hhead), ?_⟩
    intro q hq table hg
    rcases exists_of_forall₂ head.forall₂_alone hq with ⟨a, -, ha, rfl⟩
    have hcounter : head.place.values.contains counter.text = true := by
      simp [head, Place.bindValues, Scope.frameHas]
    rw [Writing.spellAll_global hg, Writing.contains_of_mem_alone _ ha, hcounter, Bool.or_true]
    rfl

/-- A loop over the built-in value that its element is named after, and one counting up to the
built-in value that its counter is named after. -/
theorem heads_of_loops_element :
    let x := Identifier.ofString "x"
    let m : Module := ⟨[], [.forOf x (.global x) [], .forCount x (.global x) []]⟩
    (∃ w ∈ m.writings .javaScript, w.node = .statement (.forOf x (.global x) []) ∧
      let head : Writing := ⟨w.place, w.inHead, .expr (.global x)⟩
      head.all ⊆ m.writings .javaScript ∧
        List.Forall₂
          (fun q a => q.node = a.node ∧ ∀ g table, q.node = .expr (.global g) →
            spellAll table q.lexemes = .ok (Lexeme.qualified
              (a.place.values.contains g.text || w.place.values.contains g.text) g))
          head.all head.alone.all) ∧
    ∃ w ∈ m.writings .javaScript, w.node = .statement (.forCount x (.global x) []) ∧
      let head : Writing := ⟨w.place.bindValues [x], w.inHead, .expr (.global x)⟩
      head.all ⊆ m.writings .javaScript ∧
        ∀ q ∈ head.all, ∀ table, q.node = .expr (.global x) →
          spellAll table q.lexemes = .ok ("globalThis." ++ x.text) := by
  intro x m
  have hblock : ⟨m.place .javaScript, false, .block [] m.statements⟩ ∈ m.writings .javaScript :=
    mem_writings_of_mem List.mem_cons_self
  have hover := mem_writings_of_mem_parts hblock List.mem_cons_self
  have hcount := mem_writings_of_mem_parts hblock (List.mem_cons_of_mem _ List.mem_cons_self)
  exact ⟨⟨_, hover, rfl, (heads_of_loops hover).1 x (.global x) [] rfl⟩,
    _, hcount, rfl, (heads_of_loops hcount).2 x (.global x) [] rfl⟩

/-- The built-in value that the element of a loop is named after is left bare where the loop
goes over it. -/
theorem exists_element_in_head :
    let x := Identifier.ofString "x"
    let m : Module := ⟨[], [.forOf x (.global x) []]⟩
    let head : Writing :=
      ⟨(m.place .javaScript).enterBlock [] m.statements, false, .expr (.global x)⟩
    head ∈ m.writings .javaScript ∧ spellAll ⟨[]⟩ head.lexemes = .ok "x" ∧
      m.generate ⟨.javaScript, [], .reject⟩ = .ok ("/* eslint-disable */\n"
        ++ "/* generated by gen-js. Do not edit! */\n\n"
        ++ "\x7b\n  for (const x of x) \x7b\x7d\n\x7d\n") := by
  refine ⟨?_, rfl, rfl⟩
  exact mem_writings_of_mem_parts (mem_writings_of_mem_parts (mem_writings_of_mem
    List.mem_cons_self) List.mem_cons_self) List.mem_cons_self

end Module

end EcmaWriter
