import EcmaWriter.Proofs.Tree.Occurrence

/-!
# EcmaWriter - Mentions of occurrences

The census goes through a module once and lists its mentions.  This file ties the
list to the occurrences of the module: apart from the names to avoid, which may
come between the parts of a node, what a tree mentions is what its nodes mention,
one after the other in document order.

Main results:

- Theorem `Occurrence.filterMap_mentions`: every reading of the mentions that skips
  names goes over the occurrences in document order.
- Theorem `Module.filterMap_mentions`: the same for a whole module.
- Theorem `Occurrence.mentions_subset`: a node mentions what its parts mention.
-/

namespace EcmaWriter

namespace Occurrence

/-- What a tree mentions that stands in a scope. -/
def mentions : Occurrence → List Mention
  | ⟨s, .definition d⟩ => d.mentions s
  | ⟨s, .block bindings body⟩ =>
    Mention.block bindings body (Statement.listMentions (s.enterBlock bindings body) body)
  | ⟨s, .statement statement⟩ => statement.mentions s
  | ⟨s, .expr e⟩ => e.mentions s
  | ⟨s, .type t⟩ => t.mentions s

end Occurrence

/-! ## Lists of parts -/

section Lists

variable (s : Scope)

open Occurrence (ofExprs ofTypes)

/-- Mentions of expressions are those of the single ones. -/
theorem Expr.listMentions_eq (es : List Expr) :
    Expr.listMentions s es = (ofExprs s es).flatMap Occurrence.mentions := by
  induction es with
  | nil => rfl
  | cons e es ih =>
      rw [Expr.listMentions, ih]
      rfl

/-- Mentions of array items, spread or not. -/
theorem ArrayItem.listMentions_eq (items : List ArrayItem) :
    ArrayItem.listMentions s items =
      (ofExprs s (items.map ArrayItem.expr)).flatMap Occurrence.mentions := by
  induction items with
  | nil => rfl
  | cons item items ih =>
      rcases item with ⟨e, spread⟩
      rw [ArrayItem.listMentions, ih]
      rfl

/-- Mentions of members: of the key and of the value, in this order. -/
theorem Member.listMentions_eq (members : List Member) :
    Member.listMentions s members =
      (ofExprs s (members.flatMap Member.exprs)).flatMap Occurrence.mentions := by
  induction members with
  | nil => rfl
  | cons member members ih =>
      cases member with
      | spread e =>
          rw [Member.listMentions, ih]
          rfl
      | keyValue key value =>
          rw [Member.listMentions, ih, List.append_assoc]
          rfl

/-- Mentions of a type, if it is there. -/
theorem TypeExpr.optionMentions_eq (t : Option TypeExpr) :
    TypeExpr.optionMentions s t = (ofTypes s t.toList).flatMap Occurrence.mentions := by
  cases t with
  | none => rfl
  | some t => exact (List.append_nil _).symm

/-- Mentions of types are those of the single ones. -/
theorem TypeExpr.listMentions_eq (ts : List TypeExpr) :
    TypeExpr.listMentions s ts = (ofTypes s ts).flatMap Occurrence.mentions := by
  induction ts with
  | nil => rfl
  | cons t ts ih =>
      rw [TypeExpr.listMentions, ih]
      rfl

/-- Mentions of parameters are those of their types. -/
theorem Parameter.listMentions_eq (ps : List Parameter) :
    Parameter.listMentions s ps =
      (ofTypes s (ps.filterMap Parameter.type)).flatMap Occurrence.mentions := by
  induction ps with
  | nil => rfl
  | cons p ps ih =>
      rcases p with ⟨name, type⟩
      rw [Parameter.listMentions, ih]
      cases type <;> rfl

/-- Mentions of type parameters are those of their constraints. -/
theorem TypeParameter.listMentions_eq (ps : List TypeParameter) :
    TypeParameter.listMentions s ps =
      (ofTypes s (ps.filterMap TypeParameter.constraint)).flatMap Occurrence.mentions := by
  induction ps with
  | nil => rfl
  | cons p ps ih =>
      rcases p with ⟨name, constraint⟩
      rw [TypeParameter.listMentions, ih]
      cases constraint <;> rfl

/-- Mentions of members of an object type: of computed keys and of types. -/
theorem MemberType.listMentions_eq (members : List MemberType) :
    MemberType.listMentions s members =
      (members.flatMap fun m => ofExprs s m.name.exprs ++ ofTypes s [m.type]).flatMap
        Occurrence.mentions := by
  induction members with
  | nil => rfl
  | cons member members ih =>
      rcases member with ⟨name, required, readonly, type, document⟩
      cases name with
      | string name =>
          rw [MemberType.listMentions, ih]
          rfl
      | computed e =>
          rw [MemberType.listMentions, ih, List.append_assoc]
          rfl

/-- Mentions of a body are those of its statements. -/
theorem Statement.listMentions_eq (body : List Statement) :
    Statement.listMentions s body =
      (body.map fun statement => (⟨s, .statement statement⟩ : Occurrence)).flatMap
        Occurrence.mentions := by
  induction body with
  | nil => rfl
  | cons statement body ih =>
      rw [Statement.listMentions, ih]
      rfl

/-- Mentions of cases are those of their bodies, each a block. -/
theorem SwitchCase.listMentions_eq (cases : List SwitchCase) :
    SwitchCase.listMentions s cases =
      (cases.map fun c => (⟨s, .block [] c.body⟩ : Occurrence)).flatMap
        Occurrence.mentions := by
  induction cases with
  | nil => rfl
  | cons c cases ih =>
      rcases c with ⟨label, body⟩
      rw [SwitchCase.listMentions, ih]
      rfl

end Lists

/-! ## One node -/

/-- What a node mentions by itself, apart from names to avoid. -/
def Occurrence.own : Occurrence → List Mention
  | ⟨_, .definition (.typeAlias a)⟩ =>
    [.distinctAs .typeAliasTypeParameter (a.typeParameters.map TypeParameter.name)]
  | ⟨_, .definition (.function f)⟩ =>
    [.distinctAs .functionParameter (f.parameters.map DocumentedParameter.name),
      .distinctAs .functionTypeParameter (f.typeParameters.map TypeParameter.name)]
  | ⟨_, .block _ body⟩ => [.distinctAs .blockLocal (blockBindings body)]
  | ⟨_, .statement (.function _ _ typeParameters parameters _ _)⟩ =>
    [.distinctAs .localFunctionParameter (parameters.map Parameter.name),
      .distinctAs .localFunctionTypeParameter (typeParameters.map TypeParameter.name)]
  | ⟨_, .expr (.lambda _ typeParameters parameters _ _)⟩ =>
    [.distinctAs .lambdaParameter (parameters.map Parameter.name),
      .distinctAs .lambdaTypeParameter (typeParameters.map TypeParameter.name)]
  | ⟨s, .expr (.reference name)⟩ => [.reference s name]
  | ⟨_, .expr (.imported path _)⟩ => [.path path]
  | ⟨_, .type (.function typeParameters _ _)⟩ =>
    [.distinctAs .functionTypeTypeParameter (typeParameters.map TypeParameter.name)]
  | ⟨_, .type (.imported path _ _)⟩ => [.path path]
  | _ => []

/-- The names of documented parameters do not change with the documents. -/
@[simp] theorem map_name_map_toParameter (ps : List DocumentedParameter) :
    (ps.map DocumentedParameter.toParameter).map Parameter.name =
      ps.map DocumentedParameter.name := by
  rw [List.map_map]
  rfl

section Reading

variable {β : Type} (f : Mention → Option β) (hname : ∀ name, f (.name name) = none)

include hname

/-- What is read off other mentions is not read off names. -/
theorem filterMap_names (names : List Identifier) :
    (Mention.names names).filterMap f = [] := by
  induction names with
  | nil => rfl
  | cons name names ih =>
      rw [Mention.names, List.map_cons, List.filterMap_cons_none (hname name)]
      exact ih

/-- Names that must differ are mentioned as a group and then one by one. -/
theorem filterMap_group (group : Mention) (names : List Identifier) (rest : List Mention) :
    (group :: Mention.names names ++ rest).filterMap f =
      [group].filterMap f ++ rest.filterMap f := by
  rw [← List.singleton_append, List.filterMap_append, List.filterMap_append,
    filterMap_names f hname, List.append_nil]

/-- A block adds the names that it binds, and nothing else. -/
theorem filterMap_block (bindings : List Identifier) (body : List Statement)
    (inside : List Mention) :
    (Mention.block bindings body inside).filterMap f =
      [Mention.distinctAs .blockLocal (blockBindings body)].filterMap f
        ++ inside.filterMap f :=
  filterMap_group f hname _ _ _

/-- A signature adds names, and the mentions of its types. -/
theorem filterMap_signature (pk tk : NameKind) (typeParameters : List TypeParameter)
    (parameters : List Parameter) (constraints types result : List Mention) :
    (Mention.signature pk tk typeParameters parameters constraints types result).filterMap f =
      [Mention.distinctAs pk (parameters.map Parameter.name),
          Mention.distinctAs tk (typeParameters.map TypeParameter.name)].filterMap f
        ++ (constraints ++ types ++ result).filterMap f := by
  simp only [Mention.signature, List.filterMap_append, filterMap_names f hname, List.nil_append,
    List.append_assoc]

/-- What is read off the mentions of a definition is read off its parts. -/
theorem Definition.filterMap_mentions (s : Scope) (d : Definition) :
    (d.mentions s).filterMap f =
      (Occurrence.own ⟨s, .definition d⟩).filterMap f
        ++ ((d.parts s).flatMap Occurrence.mentions).filterMap f := by
  cases d with
  | typeAlias a =>
      rw [Definition.mentions, List.append_assoc, filterMap_group f hname,
        TypeParameter.listMentions_eq]
      simp [Occurrence.own, Definition.parts, Occurrence.mentions]
  | function fn =>
      simp [Definition.mentions, filterMap_signature f hname, filterMap_block f hname,
        TypeParameter.listMentions_eq, Parameter.listMentions_eq, Occurrence.own,
        Definition.parts, signatureTypes, Occurrence.mentions, -List.map_map]
  | binding b =>
      simp [Definition.mentions, TypeExpr.optionMentions_eq, Occurrence.own, Definition.parts,
        Occurrence.mentions]

/-- What is read off the mentions of a statement is read off its parts. -/
theorem Statement.filterMap_mentions (s : Scope) (statement : Statement) :
    (statement.mentions s).filterMap f =
      (Occurrence.own ⟨s, .statement statement⟩).filterMap f
        ++ ((statement.parts s).flatMap Occurrence.mentions).filterMap f := by
  cases statement <;>
    simp [Statement.mentions, filterMap_signature f hname, filterMap_block f hname,
      TypeParameter.listMentions_eq, Parameter.listMentions_eq, TypeExpr.optionMentions_eq,
      SwitchCase.listMentions_eq, Occurrence.own, Statement.parts, signatureTypes,
      Occurrence.mentions]

/-- What an expression mentions by itself comes first, and then its parts. -/
theorem Expr.filterMap_mentions (s : Scope) (e : Expr) :
    (e.mentions s).filterMap f =
      (Occurrence.own ⟨s, .expr e⟩).filterMap f
        ++ ((e.parts s).flatMap Occurrence.mentions).filterMap f := by
  cases e <;>
    simp [Expr.mentions, filterMap_signature f hname, filterMap_block f hname, hname,
      ArrayItem.listMentions_eq, Member.listMentions_eq, Expr.listMentions_eq,
      TypeExpr.listMentions_eq, TypeParameter.listMentions_eq, Parameter.listMentions_eq,
      TypeExpr.optionMentions_eq, Occurrence.own, Expr.parts, signatureTypes,
      Occurrence.mentions]

/-- What a type mentions by itself comes first, and then its parts. -/
theorem TypeExpr.filterMap_mentions (s : Scope) (t : TypeExpr) :
    (t.mentions s).filterMap f =
      (Occurrence.own ⟨s, .type t⟩).filterMap f
        ++ ((t.parts s).flatMap Occurrence.mentions).filterMap f := by
  cases t with
  | function typeParameters parameters result =>
      rw [TypeExpr.mentions, List.append_assoc, List.append_assoc, filterMap_group f hname,
        TypeParameter.listMentions_eq, TypeExpr.listMentions_eq]
      simp [Occurrence.own, TypeExpr.parts, Occurrence.mentions]
  | imported path name arguments =>
      rw [TypeExpr.mentions, ← List.singleton_append, List.filterMap_append,
        List.filterMap_cons_none (hname name), TypeExpr.listMentions_eq]
      rfl
  | _ =>
      simp [TypeExpr.mentions, filterMap_names f hname, hname, MemberType.listMentions_eq,
        TypeExpr.listMentions_eq, Occurrence.own, TypeExpr.parts, Occurrence.mentions]

/-- A node mentions what it mentions by itself and then what its parts mention. -/
theorem Occurrence.filterMap_mentions_step (o : Occurrence) :
    o.mentions.filterMap f =
      o.own.filterMap f ++ o.parts.flatMap fun q => q.mentions.filterMap f := by
  rw [← List.filterMap_flatMap]
  rcases o with ⟨s, node⟩
  cases node with
  | definition d => exact Definition.filterMap_mentions f hname s d
  | block bindings body =>
      rw [Occurrence.mentions, filterMap_block f hname, Statement.listMentions_eq]
      rfl
  | statement statement => exact Statement.filterMap_mentions f hname s statement
  | expr e => exact Expr.filterMap_mentions f hname s e
  | type t => exact TypeExpr.filterMap_mentions f hname s t

/-- What a tree mentions, names apart, is what its nodes mention in document order. -/
theorem Occurrence.filterMap_mentions (o : Occurrence) :
    o.mentions.filterMap f = o.all.flatMap fun q => q.own.filterMap f := by
  induction o using Occurrence.induction_on with
  | step o ih =>
      rw [Occurrence.filterMap_mentions_step f hname, Occurrence.all_eq, List.flatMap_cons,
        List.flatMap_assoc]
      congr 1
      exact List.flatMap_congr ih

/-- What a module mentions, names apart: the names of its definitions must differ,
and then come its occurrences in document order. -/
theorem Module.filterMap_mentions (m : Module) :
    m.mentions.filterMap f =
      [Mention.distinct (m.definitions.map Definition.declared)].filterMap f
        ++ m.occurrences.flatMap fun q => q.own.filterMap f := by
  have hparts : m.definitions.flatMap (Definition.mentions m.scope)
      ++ Mention.block [] m.statements
        (Statement.listMentions (m.scope.enterBlock [] m.statements) m.statements) =
      m.parts.flatMap Occurrence.mentions := by
    simp [Module.parts, List.flatMap_map, Occurrence.mentions]
  rw [Module.mentions, List.append_assoc, List.append_assoc, filterMap_group f hname,
    List.filterMap_append, filterMap_names f hname, hparts, List.nil_append,
    List.filterMap_flatMap, Module.occurrences, List.flatMap_assoc]
  congr 1
  exact List.flatMap_congr fun o _ => Occurrence.filterMap_mentions f hname o

end Reading

/-! ## Mentions of parts -/

section Parts

variable {s : Scope} {x : Mention}

/-- What a part of a definition mentions, the definition mentions. -/
theorem Definition.mem_mentions_of_parts {d : Definition}
    (h : x ∈ (d.parts s).flatMap Occurrence.mentions) : x ∈ d.mentions s := by
  cases d <;>
    simp [Definition.parts, Definition.mentions, Mention.signature, signatureTypes,
      TypeParameter.listMentions_eq, Parameter.listMentions_eq, TypeExpr.optionMentions_eq,
      Occurrence.mentions, -List.mem_flatMap, -List.map_map] at h ⊢ <;> tauto

/-- What a part of a statement mentions, the statement mentions. -/
theorem Statement.mem_mentions_of_parts {statement : Statement}
    (h : x ∈ (statement.parts s).flatMap Occurrence.mentions) : x ∈ statement.mentions s := by
  cases statement <;>
    simp [Statement.parts, Statement.mentions, Mention.signature, signatureTypes,
      TypeParameter.listMentions_eq, Parameter.listMentions_eq, TypeExpr.optionMentions_eq,
      SwitchCase.listMentions_eq, Occurrence.mentions, -List.mem_flatMap] at h ⊢ <;> tauto

/-- What a part of an expression mentions, the expression mentions. -/
theorem Expr.mem_mentions_of_parts {e : Expr}
    (h : x ∈ (e.parts s).flatMap Occurrence.mentions) : x ∈ e.mentions s := by
  cases e <;>
    simp [Expr.parts, Expr.mentions, Mention.signature, signatureTypes,
      ArrayItem.listMentions_eq, Member.listMentions_eq, Expr.listMentions_eq,
      TypeExpr.listMentions_eq, TypeParameter.listMentions_eq, Parameter.listMentions_eq,
      TypeExpr.optionMentions_eq, Occurrence.mentions, -List.mem_flatMap] at h ⊢ <;> tauto

/-- What a part of a type mentions, the type mentions. -/
theorem TypeExpr.mem_mentions_of_parts {t : TypeExpr}
    (h : x ∈ (t.parts s).flatMap Occurrence.mentions) : x ∈ t.mentions s := by
  cases t <;>
    simp [TypeExpr.parts, TypeExpr.mentions, MemberType.listMentions_eq,
      TypeExpr.listMentions_eq, TypeParameter.listMentions_eq, Occurrence.mentions,
      -List.mem_flatMap] at h ⊢ <;> tauto

/-- A node mentions what its parts mention. -/
theorem Occurrence.mentions_subset {o q : Occurrence} (hq : q ∈ o.parts) :
    q.mentions ⊆ o.mentions := by
  intro x hx
  have h : x ∈ o.parts.flatMap Occurrence.mentions := List.mem_flatMap.mpr ⟨q, hq, hx⟩
  rcases o with ⟨s, node⟩
  cases node with
  | definition d => exact Definition.mem_mentions_of_parts h
  | block bindings body =>
      rw [Occurrence.mentions, Mention.block, Statement.listMentions_eq]
      exact List.mem_append_right _ h
  | statement statement => exact Statement.mem_mentions_of_parts h
  | expr e => exact Expr.mem_mentions_of_parts h
  | type t => exact TypeExpr.mem_mentions_of_parts h

end Parts

end EcmaWriter
