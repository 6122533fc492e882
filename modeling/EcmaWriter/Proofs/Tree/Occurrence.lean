import EcmaWriter.Census
import Mathlib.Data.List.Nodup

/-!
# EcmaWriter - Occurrences

Everything that stands somewhere in a module, at any depth, with the names that
are visible where it stands.  A node lists the parts it is made of directly; the
occurrences of a tree are found by going from a node to its parts again and again,
a node before its parts and the parts from left to right.

The parts say which names a construct makes visible, and where: parameters in the
body of their function, declarations in all statements of their block, the counter
of a loop in its bound and its body, the element of a loop and the parameter of a
handler in the block that follows them.

Main results:

- Definition `Occurrence.parts`: the parts of a node, each in its scope.
- Definition `Module.occurrences`: all occurrences of a module in document order.
- Theorem `Occurrence.scope_of_mem_parts`: a part sees what the node sees, and what the
  node binds.
- Theorem `Occurrence.all_eq`: a node comes before everything inside it.
- Theorem `Occurrence.induction_on`: induction from the parts of a node to the node.
- Theorem `Module.occurrences_induction`: induction from a module down to what is in it.
-/

namespace EcmaWriter

/-! ## Nodes -/

/-- A node of a tree, of any kind. -/
inductive Node
  | definition (definition : Definition)
  /-- Statements in braces, with the names that the construct around them binds. -/
  | block (bindings : List Identifier) (body : List Statement)
  | statement (statement : Statement)
  | expr (expr : Expr)
  | type (type : TypeExpr)

/-- A node with the scope in which it stands. -/
structure Occurrence where
  scope : Scope
  node : Node

/-- The names visible in a scope. -/
def Scope.names : Scope → List Identifier
  | .root names => names
  | .child parent names => names ++ parent.names

/-- New names come first. -/
@[simp] theorem Scope.names_push (s : Scope) (names : List Identifier) :
    (s.push names).names = names ++ s.names := rfl

/-- Looking up a text finds the visible names with this text. -/
theorem Scope.contains_text_iff (s : Scope) (name : Identifier) :
    s.contains name.text = true ↔ name ∈ s.names := by
  have hframe : ∀ names : List Identifier,
      Scope.frameHas names name.text = true ↔ name ∈ names := by
    intro names
    simp only [Scope.frameHas, List.any_eq_true, beq_iff_eq]
    constructor
    · rintro ⟨other, hmem, htext⟩
      have hsame : other = name := by
        rw [← Identifier.ofString_text other, htext, Identifier.ofString_text]
      exact hsame ▸ hmem
    · intro hmem
      exact ⟨name, hmem, rfl⟩
  induction s with
  | root names => exact hframe names
  | child parent names ih =>
      rw [Scope.contains, Bool.or_eq_true, hframe, Scope.names, List.mem_append]
      exact or_congr Iff.rfl ih

namespace Occurrence

/-- Expressions that stand in the same scope. -/
def ofExprs (s : Scope) (es : List Expr) : List Occurrence :=
  es.map fun e => ⟨s, .expr e⟩

/-- Types that stand in the same scope. -/
def ofTypes (s : Scope) (ts : List TypeExpr) : List Occurrence :=
  ts.map fun t => ⟨s, .type t⟩

@[simp] theorem ofExprs_nil (s : Scope) : ofExprs s [] = [] := rfl

@[simp] theorem ofExprs_cons (s : Scope) (e : Expr) (es : List Expr) :
    ofExprs s (e :: es) = ⟨s, .expr e⟩ :: ofExprs s es := rfl

@[simp] theorem ofTypes_nil (s : Scope) : ofTypes s [] = [] := rfl

@[simp] theorem ofTypes_cons (s : Scope) (t : TypeExpr) (ts : List TypeExpr) :
    ofTypes s (t :: ts) = ⟨s, .type t⟩ :: ofTypes s ts := rfl

@[simp] theorem ofTypes_append (s : Scope) (ts us : List TypeExpr) :
    ofTypes s (ts ++ us) = ofTypes s ts ++ ofTypes s us :=
  List.map_append

end Occurrence

/-! ## Parts -/

/-- The types in the head of a function: constraints, types of parameters and the
type of the result. -/
def signatureTypes (typeParameters : List TypeParameter) (parameters : List Parameter)
    (result : List TypeExpr) : List TypeExpr :=
  typeParameters.filterMap TypeParameter.constraint
    ++ parameters.filterMap Parameter.type ++ result

/-- The expressions in a member of an object literal. -/
def Member.exprs : Member → List Expr
  | .spread e => [e]
  | .keyValue key value => [key, value]

/-- The expressions in the name of a member of an object type. -/
def PropertyName.exprs : PropertyName → List Expr
  | .string _ => []
  | .computed e => [e]

open Occurrence

/-- The parts of an expression. -/
def Expr.parts (s : Scope) : Expr → List Occurrence
  | .unary _ e => ofExprs s [e]
  | .binary _ left right => ofExprs s [left, right]
  | .conditional condition thenExpr elseExpr => ofExprs s [condition, thenExpr, elseExpr]
  | .array items => ofExprs s (items.map ArrayItem.expr)
  | .object members => ofExprs s (members.flatMap Member.exprs)
  | .lambda _ typeParameters parameters returnType body =>
    ofTypes s (signatureTypes typeParameters parameters returnType.toList)
      ++ [⟨s, .block (parameters.map Parameter.name) body⟩]
  | .get base property => ofExprs s [base, property]
  | .call callee arguments => ofExprs s (callee :: arguments)
  | .new callee arguments => ofExprs s (callee :: arguments)
  | .assertion e type => ofExprs s [e] ++ ofTypes s [type]
  | .instantiation e arguments => ofExprs s [e] ++ ofTypes s arguments
  | _ => []

/-- The parts of a statement. The bound of a counting loop sees the counter. -/
def Statement.parts (s : Scope) : Statement → List Occurrence
  | .evaluate e => ofExprs s [e]
  | .set target _ value => ofExprs s [target, value]
  | .ifElse condition thenBody elseBody =>
    ofExprs s [condition] ++ [⟨s, .block [] thenBody⟩, ⟨s, .block [] elseBody⟩]
  | .throwError e => ofExprs s [e]
  | .returnValue e => ofExprs s [e]
  | .binding _ _ type value => ofTypes s type.toList ++ ofExprs s [value]
  | .function _ _ typeParameters parameters returnType body =>
    ofTypes s (signatureTypes typeParameters parameters [returnType])
      ++ [⟨s, .block (parameters.map Parameter.name) body⟩]
  | .forCount counter bound body =>
    ofExprs (s.push [counter]) [bound] ++ [⟨s, .block [counter] body⟩]
  | .forOf element iterable body => ofExprs s [iterable] ++ [⟨s, .block [element] body⟩]
  | .whileTrue body => [⟨s, .block [] body⟩]
  | .switch subject cases =>
    ofExprs s [subject] ++ cases.map fun c => ⟨s, .block [] c.body⟩
  | .tryCatch body parameter handler =>
    [⟨s, .block [] body⟩, ⟨s, .block [parameter] handler⟩]
  | _ => []

/-- The parts of a type. -/
def TypeExpr.parts (s : Scope) : TypeExpr → List Occurrence
  | .object members =>
    members.flatMap fun m => ofExprs s m.name.exprs ++ ofTypes s [m.type]
  | .function typeParameters parameters result =>
    ofTypes s (typeParameters.filterMap TypeParameter.constraint ++ parameters ++ [result])
  | .union types => ofTypes s types
  | .intersection left right => ofTypes s [left, right]
  | .imported _ _ arguments => ofTypes s arguments
  | .inFile _ arguments => ofTypes s arguments
  | .global _ arguments => ofTypes s arguments
  | .namespaced _ _ arguments => ofTypes s arguments
  | _ => []

/-- The parts of a definition. -/
def Definition.parts (s : Scope) : Definition → List Occurrence
  | .typeAlias a =>
    ofTypes s (a.typeParameters.filterMap TypeParameter.constraint ++ [a.type])
  | .function f =>
    ofTypes s (signatureTypes f.typeParameters
        (f.parameters.map DocumentedParameter.toParameter) [f.returnType])
      ++ [⟨s, .block (f.parameters.map DocumentedParameter.name) f.body⟩]
  | .binding b => ofTypes s b.type.toList ++ ofExprs s [b.value]

namespace Occurrence

/-- The parts of a node. The declarations of a block are visible in all its
statements. -/
def parts : Occurrence → List Occurrence
  | ⟨s, .definition d⟩ => d.parts s
  | ⟨s, .block bindings body⟩ =>
    body.map fun statement =>
      ⟨s.push (bindings ++ blockBindings body), .statement statement⟩
  | ⟨s, .statement statement⟩ => statement.parts s
  | ⟨s, .expr e⟩ => e.parts s
  | ⟨s, .type t⟩ => t.parts s

/-! ## All occurrences -/

/-- Size of a node. The bindings of a block belong to the construct around it. -/
noncomputable def extent (o : Occurrence) : Nat :=
  match o.node with
  | .definition d => sizeOf d
  | .block _ body => sizeOf body
  | .statement statement => sizeOf statement
  | .expr e => sizeOf e
  | .type t => sizeOf t

/-- Expressions in a node have less extent than the node. -/
theorem extent_lt_of_mem_ofExprs {s : Scope} {es : List Expr} {q : Occurrence} {n : Nat}
    (hq : q ∈ ofExprs s es) (hes : ∀ e ∈ es, sizeOf e < n) : q.extent < n := by
  rw [ofExprs, List.mem_map] at hq
  rcases hq with ⟨e, he, rfl⟩
  exact hes e he

/-- Types in a node have less extent than the node. -/
theorem extent_lt_of_mem_ofTypes {s : Scope} {ts : List TypeExpr} {q : Occurrence} {n : Nat}
    (hq : q ∈ ofTypes s ts) (hts : ∀ t ∈ ts, sizeOf t < n) : q.extent < n := by
  rw [ofTypes, List.mem_map] at hq
  rcases hq with ⟨t, ht, rfl⟩
  exact hts t ht

end Occurrence

/-! ### Nodes are larger than their parts -/

/-- A constraint is smaller than the type parameters it is in. -/
theorem sizeOf_lt_of_mem_constraint {t : TypeExpr} {ps : List TypeParameter}
    (h : t ∈ ps.filterMap TypeParameter.constraint) : sizeOf t < sizeOf ps := by
  rcases List.mem_filterMap.mp h with ⟨⟨name, constraint⟩, hp, hc⟩
  have hlt := List.sizeOf_lt_of_mem hp
  have hconstraint : constraint = some t := hc
  subst hconstraint
  simp only [TypeParameter.mk.sizeOf_spec, Option.some.sizeOf_spec] at hlt
  omega

/-- The type of a parameter is smaller than the parameters it is in. -/
theorem sizeOf_lt_of_mem_parameterType {t : TypeExpr} {ps : List Parameter}
    (h : t ∈ ps.filterMap Parameter.type) : sizeOf t < sizeOf ps := by
  rcases List.mem_filterMap.mp h with ⟨⟨name, type⟩, hp, hc⟩
  have hlt := List.sizeOf_lt_of_mem hp
  have htype : type = some t := hc
  subst htype
  simp only [Parameter.mk.sizeOf_spec, Option.some.sizeOf_spec] at hlt
  omega

/-- The documents do not make parameters smaller. -/
theorem sizeOf_lt_of_mem_documentedType {t : TypeExpr} {ps : List DocumentedParameter}
    (h : t ∈ (ps.map DocumentedParameter.toParameter).filterMap Parameter.type) :
    sizeOf t < sizeOf ps := by
  rcases List.mem_filterMap.mp h with ⟨parameter, hparameter, htype⟩
  rcases List.mem_map.mp hparameter with ⟨⟨name, document, type⟩, hp, rfl⟩
  have hlt := List.sizeOf_lt_of_mem hp
  have hsame : type = t := Option.some.inj htype
  subst hsame
  simp only [DocumentedParameter.mk.sizeOf_spec] at hlt
  omega

/-- Each type of a signature is smaller than what has the signature. -/
theorem sizeOf_lt_of_mem_signature {t : TypeExpr} {typeParameters : List TypeParameter}
    {parameters : List Parameter} {result : List TypeExpr} {n : Nat}
    (h : t ∈ signatureTypes typeParameters parameters result)
    (hn : sizeOf typeParameters + sizeOf parameters < n) (hresult : ∀ r ∈ result, sizeOf r < n) :
    sizeOf t < n := by
  rw [signatureTypes, List.mem_append, List.mem_append] at h
  rcases h with (h | h) | h
  · have hlt := sizeOf_lt_of_mem_constraint h
    omega
  · have hlt := sizeOf_lt_of_mem_parameterType h
    omega
  · exact hresult t h

/-- Parts of an expression have less extent. -/
theorem Expr.extent_lt_of_mem_parts {s : Scope} {e : Expr} {q : Occurrence}
    (h : q ∈ e.parts s) : q.extent < sizeOf e := by
  cases e
  case array items =>
    refine Occurrence.extent_lt_of_mem_ofExprs h ?_
    intro e he
    rcases List.mem_map.mp he with ⟨⟨e, spread⟩, hitem, rfl⟩
    have hlt := List.sizeOf_lt_of_mem hitem
    simp only [ArrayItem.mk.sizeOf_spec, Expr.array.sizeOf_spec] at hlt ⊢
    omega
  case object members =>
    refine Occurrence.extent_lt_of_mem_ofExprs h ?_
    intro e he
    rcases List.mem_flatMap.mp he with ⟨m, hmember, hexpr⟩
    have hlt := List.sizeOf_lt_of_mem hmember
    have hm : sizeOf e < sizeOf m := by
      cases m <;> simp [Member.exprs] at hexpr <;> grind
    simp only [Expr.object.sizeOf_spec]
    omega
  case lambda isAsync typeParameters parameters returnType body =>
    rw [Expr.parts, List.mem_append, List.mem_singleton] at h
    rcases h with h | rfl
    · refine Occurrence.extent_lt_of_mem_ofTypes h ?_
      intro t ht
      refine sizeOf_lt_of_mem_signature ht ?_ ?_
      · simp only [Expr.lambda.sizeOf_spec]
        omega
      · intro r hr
        rw [Option.mem_toList] at hr
        simp only [hr, Expr.lambda.sizeOf_spec, Option.some.sizeOf_spec]
        omega
    · simp only [Occurrence.extent, Expr.lambda.sizeOf_spec]
      omega
  case call callee arguments =>
    refine Occurrence.extent_lt_of_mem_ofExprs h (List.forall_mem_cons.mpr ⟨?_, ?_⟩)
    · simp only [Expr.call.sizeOf_spec]
      omega
    · intro e he
      have hlt := List.sizeOf_lt_of_mem he
      simp only [Expr.call.sizeOf_spec]
      omega
  case new callee arguments =>
    refine Occurrence.extent_lt_of_mem_ofExprs h (List.forall_mem_cons.mpr ⟨?_, ?_⟩)
    · simp only [Expr.new.sizeOf_spec]
      omega
    · intro e he
      have hlt := List.sizeOf_lt_of_mem he
      simp only [Expr.new.sizeOf_spec]
      omega
  case assertion e type =>
    rcases List.mem_append.mp h with h | h
    · exact Occurrence.extent_lt_of_mem_ofExprs h (by simp +arith)
    · exact Occurrence.extent_lt_of_mem_ofTypes h (by simp +arith)
  case instantiation e arguments =>
    rcases List.mem_append.mp h with h | h
    · exact Occurrence.extent_lt_of_mem_ofExprs h (by simp +arith)
    · refine Occurrence.extent_lt_of_mem_ofTypes h ?_
      intro t ht
      have hlt := List.sizeOf_lt_of_mem ht
      simp only [Expr.instantiation.sizeOf_spec]
      omega
  all_goals
    first
      | exact absurd h List.not_mem_nil
      | exact Occurrence.extent_lt_of_mem_ofExprs h (by simp +arith)

/-- Parts of a statement have less extent. -/
theorem Statement.extent_lt_of_mem_parts {s : Scope} {statement : Statement} {q : Occurrence}
    (h : q ∈ statement.parts s) : q.extent < sizeOf statement := by
  cases statement
  case ifElse condition thenBody elseBody =>
    rcases List.mem_append.mp h with h | h
    · exact Occurrence.extent_lt_of_mem_ofExprs h (by simp +arith)
    · rw [List.mem_cons, List.mem_singleton] at h
      rcases h with rfl | rfl <;> simp only [Occurrence.extent, Statement.ifElse.sizeOf_spec] <;>
        omega
  case binding isConst name type value =>
    rcases List.mem_append.mp h with h | h
    · refine Occurrence.extent_lt_of_mem_ofTypes h ?_
      intro t ht
      rw [Option.mem_toList] at ht
      simp only [ht, Statement.binding.sizeOf_spec, Option.some.sizeOf_spec]
      omega
    · exact Occurrence.extent_lt_of_mem_ofExprs h (by simp +arith)
  case function isAsync name typeParameters parameters returnType body =>
    rw [Statement.parts, List.mem_append, List.mem_singleton] at h
    rcases h with h | rfl
    · refine Occurrence.extent_lt_of_mem_ofTypes h ?_
      intro t ht
      refine sizeOf_lt_of_mem_signature ht ?_ ?_
      · simp only [Statement.function.sizeOf_spec]
        omega
      · intro r hr
        rw [List.mem_singleton] at hr
        simp only [hr, Statement.function.sizeOf_spec]
        omega
    · simp only [Occurrence.extent, Statement.function.sizeOf_spec]
      omega
  case forCount counter bound body =>
    rw [Statement.parts, List.mem_append, List.mem_singleton] at h
    rcases h with h | rfl
    · exact Occurrence.extent_lt_of_mem_ofExprs h (by simp +arith)
    · simp only [Occurrence.extent, Statement.forCount.sizeOf_spec]
      omega
  case forOf element iterable body =>
    rw [Statement.parts, List.mem_append, List.mem_singleton] at h
    rcases h with h | rfl
    · exact Occurrence.extent_lt_of_mem_ofExprs h (by simp +arith)
    · simp only [Occurrence.extent, Statement.forOf.sizeOf_spec]
      omega
  case whileTrue body =>
    rw [Statement.parts, List.mem_singleton] at h
    subst h
    simp only [Occurrence.extent, Statement.whileTrue.sizeOf_spec]
    omega
  case switch subject cases =>
    rcases List.mem_append.mp h with h | h
    · exact Occurrence.extent_lt_of_mem_ofExprs h (by simp +arith)
    · rcases List.mem_map.mp h with ⟨⟨label, body⟩, hcase, rfl⟩
      have hlt := List.sizeOf_lt_of_mem hcase
      simp only [Occurrence.extent, SwitchCase.mk.sizeOf_spec,
        Statement.switch.sizeOf_spec] at hlt ⊢
      omega
  case tryCatch body parameter handler =>
    rw [Statement.parts, List.mem_cons, List.mem_singleton] at h
    rcases h with rfl | rfl <;> simp only [Occurrence.extent, Statement.tryCatch.sizeOf_spec] <;>
      omega
  all_goals
    first
      | exact absurd h List.not_mem_nil
      | exact Occurrence.extent_lt_of_mem_ofExprs h (by simp +arith)

/-- Parts of a type have less extent. -/
theorem TypeExpr.extent_lt_of_mem_parts {s : Scope} {t : TypeExpr} {q : Occurrence}
    (h : q ∈ t.parts s) : q.extent < sizeOf t := by
  have hlist : ∀ {ts : List TypeExpr} {n : Nat}, q ∈ Occurrence.ofTypes s ts →
      sizeOf ts < n → q.extent < n := by
    intro ts n hq hn
    refine Occurrence.extent_lt_of_mem_ofTypes hq ?_
    intro t ht
    have hlt := List.sizeOf_lt_of_mem ht
    omega
  cases t
  case object members =>
    rcases List.mem_flatMap.mp h with ⟨⟨name, required, readonly, type, document⟩, hmember, hq⟩
    have hlt := List.sizeOf_lt_of_mem hmember
    simp only [MemberType.mk.sizeOf_spec, TypeExpr.object.sizeOf_spec] at hlt ⊢
    rcases List.mem_append.mp hq with hq | hq
    · refine Occurrence.extent_lt_of_mem_ofExprs hq ?_
      intro e he
      cases name with
      | string name => exact absurd he List.not_mem_nil
      | computed expr =>
          have hexpr : e = expr := List.mem_singleton.mp he
          simp only [PropertyName.computed.sizeOf_spec] at hlt
          rw [hexpr]
          omega
    · refine Occurrence.extent_lt_of_mem_ofTypes hq ?_
      intro t ht
      have htype : t = type := List.mem_singleton.mp ht
      rw [htype]
      omega
  case function typeParameters parameters result =>
    refine Occurrence.extent_lt_of_mem_ofTypes h ?_
    intro t ht
    rw [List.mem_append, List.mem_append, List.mem_singleton] at ht
    simp only [TypeExpr.function.sizeOf_spec]
    rcases ht with (ht | ht) | rfl
    · have hlt := sizeOf_lt_of_mem_constraint ht
      omega
    · have hlt := List.sizeOf_lt_of_mem ht
      omega
    · omega
  case intersection left right =>
    exact Occurrence.extent_lt_of_mem_ofTypes h (by simp +arith)
  all_goals
    first
      | exact absurd h List.not_mem_nil
      | exact hlist h (by simp +arith)

/-- Parts of a definition have less extent. -/
theorem Definition.extent_lt_of_mem_parts {s : Scope} {d : Definition} {q : Occurrence}
    (h : q ∈ d.parts s) : q.extent < sizeOf d := by
  cases d with
  | typeAlias a =>
      rcases a with ⟨exported, name, typeParameters, document, type⟩
      refine Occurrence.extent_lt_of_mem_ofTypes h ?_
      intro t ht
      simp only [Definition.typeAlias.sizeOf_spec, TypeAlias.mk.sizeOf_spec]
      rcases List.mem_append.mp ht with ht | ht
      · have hlt : sizeOf t < sizeOf typeParameters := sizeOf_lt_of_mem_constraint ht
        omega
      · have htype : t = type := List.mem_singleton.mp ht
        rw [htype]
        omega
  | function f =>
      obtain ⟨exported, isAsync, name, document, typeParameters, parameters, returnType, body⟩ := f
      simp only [Definition.function.sizeOf_spec, FunctionDefinition.mk.sizeOf_spec]
      rw [Definition.parts, List.mem_append, List.mem_singleton] at h
      rcases h with h | rfl
      · refine Occurrence.extent_lt_of_mem_ofTypes h ?_
        intro t ht
        rw [signatureTypes, List.mem_append, List.mem_append, List.mem_singleton] at ht
        rcases ht with (ht | ht) | ht
        · have hlt : sizeOf t < sizeOf typeParameters := sizeOf_lt_of_mem_constraint ht
          omega
        · have hlt : sizeOf t < sizeOf parameters := sizeOf_lt_of_mem_documentedType ht
          omega
        · have hsame : t = returnType := ht
          rw [hsame]
          omega
      · simp only [Occurrence.extent]
        omega
  | binding b =>
      rcases b with ⟨exported, name, document, type, value⟩
      simp only [Definition.binding.sizeOf_spec, VariableDefinition.mk.sizeOf_spec]
      rcases List.mem_append.mp h with h | h
      · refine Occurrence.extent_lt_of_mem_ofTypes h ?_
        intro t ht
        have htype : type = some t := Option.mem_toList.mp ht
        simp only [htype, Option.some.sizeOf_spec]
        omega
      · exact Occurrence.extent_lt_of_mem_ofExprs h (by simp +arith)

/-- A node is larger than its parts. -/
theorem Occurrence.extent_lt_of_mem_parts {o q : Occurrence} (h : q ∈ o.parts) :
    q.extent < o.extent := by
  rcases o with ⟨s, node⟩
  cases node with
  | definition d => exact Definition.extent_lt_of_mem_parts h
  | block bindings body =>
      rcases List.mem_map.mp h with ⟨statement, hstatement, rfl⟩
      exact List.sizeOf_lt_of_mem hstatement
  | statement statement => exact Statement.extent_lt_of_mem_parts h
  | expr e => exact Expr.extent_lt_of_mem_parts h
  | type t => exact TypeExpr.extent_lt_of_mem_parts h

/-! ### What parts see and declare -/

/-- The names that a node declares where it stands. -/
def Node.declares : Node → List Identifier
  | .definition d => d.typeName?.toList ++ d.valueName?.toList
  | .statement s => s.declared?.toList
  | _ => []

/-- The names that a node binds for its parts. -/
def Node.binds : Node → List Identifier
  | .block bindings body => bindings ++ blockBindings body
  | .statement (.forCount counter _ _) => [counter]
  | _ => []

/-- Expressions declare nothing for what is around them. -/
theorem of_mem_ofExprs {s : Scope} {es : List Expr} {q : Occurrence}
    (h : q ∈ Occurrence.ofExprs s es) : q.scope = s ∧ q.node.declares = [] := by
  rcases List.mem_map.mp h with ⟨e, -, rfl⟩
  exact ⟨rfl, rfl⟩

/-- Types declare nothing for what is around them. -/
theorem of_mem_ofTypes {s : Scope} {ts : List TypeExpr} {q : Occurrence}
    (h : q ∈ Occurrence.ofTypes s ts) : q.scope = s ∧ q.node.declares = [] := by
  rcases List.mem_map.mp h with ⟨t, -, rfl⟩
  exact ⟨rfl, rfl⟩

/-- A block declares nothing for what is around it. -/
theorem of_mem_block {s : Scope} {bindings : List Identifier} {body : List Statement}
    {q : Occurrence} (h : q ∈ [Occurrence.mk s (.block bindings body)]) :
    q.scope = s ∧ q.node.declares = [] := by
  rw [List.mem_singleton.mp h]
  exact ⟨rfl, rfl⟩

/-- Parts of an expression stand in its scope. -/
theorem Expr.of_mem_parts {s : Scope} {e : Expr} {q : Occurrence} (h : q ∈ e.parts s) :
    q.scope = s ∧ q.node.declares = [] := by
  cases e <;> simp only [Expr.parts, List.mem_append, List.not_mem_nil] at h <;>
    grind [of_mem_ofExprs, of_mem_ofTypes, of_mem_block]

/-- Parts of a type stand in its scope. -/
theorem TypeExpr.of_mem_parts {s : Scope} {t : TypeExpr} {q : Occurrence} (h : q ∈ t.parts s) :
    q.scope = s ∧ q.node.declares = [] := by
  cases t <;>
    simp only [TypeExpr.parts, List.mem_append, List.mem_flatMap, List.not_mem_nil] at h <;>
    grind [of_mem_ofExprs, of_mem_ofTypes, of_mem_block]

/-- Parts of a definition stand in its scope. -/
theorem Definition.of_mem_parts {s : Scope} {d : Definition} {q : Occurrence}
    (h : q ∈ d.parts s) : q.scope = s ∧ q.node.declares = [] := by
  cases d <;> simp only [Definition.parts, List.mem_append] at h <;>
    grind [of_mem_ofExprs, of_mem_ofTypes, of_mem_block]

/-- Parts of a statement stand in its scope, except in a counting loop. -/
theorem Statement.of_mem_parts {s : Scope} {statement : Statement} {q : Occurrence}
    (h : q ∈ statement.parts s) :
    (q.scope = s ∨ ∃ counter bound body, statement = .forCount counter bound body ∧
      q.scope = s.push [counter]) ∧ q.node.declares = [] := by
  cases statement <;>
    simp only [Statement.parts, List.mem_append, List.mem_cons, List.mem_map,
      List.not_mem_nil] at h <;>
    grind [of_mem_ofExprs, of_mem_ofTypes, of_mem_block]

/-- A part sees what the node sees, and may see what the node binds. No other part of the
node has a say in it, and nothing further inside has. -/
theorem Occurrence.scope_of_mem_parts {o q : Occurrence} (h : q ∈ o.parts) :
    q.scope = o.scope ∨ q.scope = o.scope.push o.node.binds := by
  rcases o with ⟨s, node⟩
  cases node with
  | definition d => exact Or.inl (Definition.of_mem_parts h).1
  | block bindings body =>
      rcases List.mem_map.mp h with ⟨statement, -, rfl⟩
      exact Or.inr rfl
  | statement statement =>
      obtain ⟨hscope | ⟨counter, bound, body, rfl, hscope⟩, -⟩ := Statement.of_mem_parts h
      · exact Or.inl hscope
      · exact Or.inr hscope
  | expr e => exact Or.inl (Expr.of_mem_parts h).1
  | type t => exact Or.inl (TypeExpr.of_mem_parts h).1

namespace Occurrence

/-! ## All occurrences -/

/-- A node and everything inside it, in document order. -/
def all (o : Occurrence) : List Occurrence :=
  o :: o.parts.attach.flatMap fun ⟨q, _⟩ => q.all
termination_by o.extent
decreasing_by exact extent_lt_of_mem_parts ‹_›

/-- A node comes before everything inside it. -/
theorem all_eq (o : Occurrence) : o.all = o :: o.parts.flatMap all := by
  rw [all]
  simp

/-- What holds of a node whenever it holds of its parts holds of all nodes. -/
theorem induction_on {P : Occurrence → Prop} (o : Occurrence)
    (step : ∀ o : Occurrence, (∀ q ∈ o.parts, P q) → P o) : P o := by
  induction hn : o.extent using Nat.strongRecOn generalizing o with
  | ind n ih =>
      refine step o ?_
      intro q hq
      have hlt := extent_lt_of_mem_parts hq
      exact ih q.extent (hn ▸ hlt) q rfl

/-- What holds of a node and passes on to parts holds of everything inside the node. -/
theorem all_induction {P : Occurrence → Prop} {root : Occurrence} (hroot : P root)
    (step : ∀ o, P o → ∀ q ∈ o.parts, P q) : ∀ q ∈ root.all, P q := by
  induction root using induction_on with
  | step o ih =>
      intro q hq
      rw [all_eq, List.mem_cons, List.mem_flatMap] at hq
      rcases hq with rfl | ⟨p, hp, hqp⟩
      · exact hroot
      · exact ih p hp (step o hroot p hp) q hqp

/-- The parts of what is inside a node are inside it, too. -/
theorem mem_all_of_mem_parts {root o q : Occurrence} (ho : o ∈ root.all) (hq : q ∈ o.parts) :
    q ∈ root.all := by
  induction root using induction_on with
  | step root ih =>
      rw [all_eq, List.mem_cons, List.mem_flatMap] at ho ⊢
      rcases ho with rfl | ⟨p, hp, hop⟩
      · refine Or.inr ⟨q, hq, ?_⟩
        rw [all_eq]
        exact List.mem_cons_self
      · exact Or.inr ⟨p, hp, ih p hp hop⟩

end Occurrence

namespace Module

/-- What a module is made of: its definitions, and the block of its statements. -/
def parts (m : Module) : List Occurrence :=
  m.definitions.map (fun d => ⟨m.scope, .definition d⟩) ++ [⟨m.scope, .block [] m.statements⟩]

/-- Everything that stands in a module, in document order. -/
def occurrences (m : Module) : List Occurrence :=
  m.parts.flatMap Occurrence.all

/-- What a module has by itself occurs in it. -/
theorem mem_occurrences_of_mem {m : Module} {o : Occurrence} (ho : o ∈ m.parts) :
    o ∈ m.occurrences := by
  refine List.mem_flatMap.mpr ⟨o, ho, ?_⟩
  rw [Occurrence.all_eq]
  exact List.mem_cons_self

/-- Parts of what occurs in a module occur in it. -/
theorem mem_occurrences_of_mem_parts {m : Module} {o q : Occurrence} (ho : o ∈ m.occurrences)
    (hq : q ∈ o.parts) : q ∈ m.occurrences := by
  rcases List.mem_flatMap.mp ho with ⟨p, hp, hop⟩
  exact List.mem_flatMap.mpr ⟨p, hp, Occurrence.mem_all_of_mem_parts hop hq⟩

/-- What holds of the parts of a module and passes on to parts holds of everything in
the module. -/
theorem occurrences_induction {P : Occurrence → Prop} {m : Module} (hparts : ∀ o ∈ m.parts, P o)
    (step : ∀ o, P o → ∀ q ∈ o.parts, P q) : ∀ q ∈ m.occurrences, P q := by
  intro q hq
  rcases List.mem_flatMap.mp hq with ⟨o, ho, hqo⟩
  exact Occurrence.all_induction (hparts o ho) step q hqo

end Module

end EcmaWriter
