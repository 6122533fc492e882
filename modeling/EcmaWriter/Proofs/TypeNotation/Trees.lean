import EcmaWriter.ImportTable
import EcmaWriter.Scope
import EcmaWriter.Proofs.Script.Scanner
import EcmaWriter.Proofs.TypeNotation.Grammar

/-!
# EcmaWriter - Trees of types

The tree that a type is to be read back as, and when two trees are the same type.  Trees
are compared by a normal form, in which a union stands in no union and an intersection in
no intersection.  A union of one member is that member, a union of none is `never`, and a
type parameter without a bound is bounded by `unknown`.

Main results:

- Definition `TypeExpr.tree?`: the tree of a type.
- Definition `TypeNotation.Tree.normal`: the normal form of a tree.
- Theorem `TypeNotation.Tree.unionOf_unionMembers`: a normal form is the union of its
  members.
- Definition `TypeExpr.bindsPlainly`: when no type parameter is named like a modifier.
- Theorem `TypeExpr.exists_tree`: a type that can be read back has a tree.
-/

namespace EcmaWriter

namespace TypeNotation

/-! ## Normal forms -/

namespace Tree

/-- The members of a union. Another type is the only member of itself. -/
def unionMembers : Tree → List Tree
  | .union members => members
  | t => [t]

/-- The members of an intersection. -/
def intersectionMembers : Tree → List Tree
  | .intersection members => members
  | t => [t]

/-- The union of types that are no unions. -/
def unionOf : List Tree → Tree
  | [] => .keyword "never"
  | [t] => t
  | members => .union members

end Tree

mutual

/-- The normal form of a tree. -/
def Tree.normal : Tree → Tree
  | .keyword name => .keyword name
  | .string value => .string value
  | .reference path arguments => .reference path (Tree.normals arguments)
  | .object fields => .object (Field.normals fields)
  | .array element => .array element.normal
  | .indexed base index => .indexed base.normal index.normal
  | .operation op operand => .operation op operand.normal
  | .function binders parameters result =>
    .function (Binder.normals binders) (Tree.normals parameters) result.normal
  | .union members => Tree.unionOf ((Tree.normals members).flatMap Tree.unionMembers)
  | .intersection members =>
    .intersection ((Tree.normals members).flatMap Tree.intersectionMembers)

/-- The normal forms of trees. -/
def Tree.normals : List Tree → List Tree
  | [] => []
  | t :: ts => t.normal :: Tree.normals ts

/-- The normal form of a bound. -/
def Tree.boundNormal : Option Tree → Tree
  | none => .keyword "unknown"
  | some t => t.normal

/-- The normal forms of the members of an object type. -/
def Field.normals : List Field → List Field
  | [] => []
  | ⟨name, isReadonly, isOptional, type⟩ :: fields =>
    ⟨name, isReadonly, isOptional, type.normal⟩ :: Field.normals fields

/-- The normal forms of type parameters. -/
def Binder.normals : List Binder → List Binder
  | [] => []
  | ⟨name, bound⟩ :: binders => ⟨name, some (Tree.boundNormal bound)⟩ :: Binder.normals binders

end

namespace Tree

/-- Members of a union that has at least one and in which no union stands. -/
def Flat (members : List Tree) : Prop :=
  members ≠ [] ∧ ∀ t ∈ members, t.unionMembers = [t]

/-- Flat members are those of their union. -/
theorem unionMembers_unionOf {members : List Tree} (h : Flat members) :
    (unionOf members).unionMembers = members := by
  rcases h with ⟨hne, hall⟩
  unfold unionOf
  split
  · exact absurd rfl hne
  · exact hall _ List.mem_cons_self
  · rfl

theorem flat_singleton {t : Tree} (h : t.unionMembers = [t]) : Flat [t] := by
  refine ⟨List.cons_ne_nil t [], ?_⟩
  intro u hu
  rw [List.mem_singleton.mp hu]
  exact h

theorem Flat.append {members others : List Tree} (h : Flat members) (h' : Flat others) :
    Flat (members ++ others) := by
  refine ⟨List.append_ne_nil_of_left_ne_nil h.1 others, ?_⟩
  intro t ht
  rcases List.mem_append.mp ht with ht | ht
  · exact h.2 t ht
  · exact h'.2 t ht

mutual

/-- No union stands in a union of normal forms. -/
theorem flat_normal : (t : Tree) → Flat t.normal.unionMembers
  | .keyword _ | .string _ | .reference _ _ | .object _ | .array _ | .indexed _ _
  | .operation _ _ | .function _ _ _ | .intersection _ => flat_singleton rfl
  | .union [] => flat_singleton rfl
  | .union (t :: ts) => by
      have hflat := flat_normals (t :: ts) (List.cons_ne_nil t ts)
      rw [normal, unionMembers_unionOf hflat]
      exact hflat

theorem flat_normals :
    (ts : List Tree) → ts ≠ [] → Flat ((normals ts).flatMap unionMembers)
  | [], h => absurd rfl h
  | t :: ts, _ => by
      have ht := flat_normal t
      have hts := flat_normals ts
      rw [normals, List.flatMap_cons]
      by_cases h : ts = []
      · subst h
        rw [normals, List.flatMap_nil, List.append_nil]
        exact ht
      · exact ht.append (hts h)

end

/-- A normal form is the union of its members. -/
theorem unionOf_unionMembers (t : Tree) : unionOf t.normal.unionMembers = t.normal := by
  cases t with
  | union ts =>
      cases ts with
      | nil => rfl
      | cons t ts =>
          rw [normal, unionMembers_unionOf (flat_normals (t :: ts) (List.cons_ne_nil t ts))]
  | _ => rfl

end Tree

end TypeNotation

/-! ## Trees of types -/

open TypeNotation Lexeme

/-- A reference to a type, unless a type operator would be its first name. -/
def TypeNotation.reference? (path : List String) (arguments : List Tree) : Option Tree :=
  if path.head?.any (operatorWords.contains ·) then none else some (.reference path arguments)

mutual

/-- The tree that a type is to be read back as, among the types of a scope. A built-in type
that is hidden is reached through `globalThis`, an export of another module through the
namespace of the module. There is no tree where a member has a computed name, a module has
no namespace, or a reference would start with a type operator. -/
def TypeExpr.tree? (table : ImportTable) (types : Scope) : TypeExpr → Option Tree
  | .number => some (.keyword "number")
  | .string => some (.keyword "string")
  | .boolean => some (.keyword "boolean")
  | .undefined => some (.keyword "undefined")
  | .null => some (.keyword "null")
  | .never => some (.keyword "never")
  | .void => some (.keyword "void")
  | .unknown => some (.keyword "unknown")
  | .object members => do
    let fields ← MemberType.fields? table types members
    some (.object fields)
  | .function typeParameters parameters result => do
    let inner := types.push (typeParameters.map TypeParameter.name)
    let binders ← TypeParameter.binders? table inner typeParameters
    let list ← TypeExpr.trees? table inner parameters
    let t ← result.tree? table inner
    some (.function binders list t)
  | .union members => do
    let list ← TypeExpr.trees? table types members
    some (.union list)
  | .intersection left right => do
    let t ← left.tree? table types
    let u ← right.tree? table types
    some (.intersection [t, u])
  | .imported path n arguments => do
    let home ← table.find? path
    let list ← TypeExpr.trees? table types arguments
    reference? [home.text, n.text] list
  | .inFile n arguments => do
    let list ← TypeExpr.trees? table types arguments
    reference? [n.text] list
  | .global n arguments => do
    let list ← TypeExpr.trees? table types arguments
    reference? (if types.contains n.text then ["globalThis", n.text] else [n.text]) list
  | .namespaced path n arguments => do
    let list ← TypeExpr.trees? table types arguments
    reference? ((path ++ [n]).map Identifier.text) list
  | .stringLiteral value => some (.string (readBack value))
  | .uniqueSymbol => some (.operation .unique (.keyword "symbol"))

/-- The trees of types. -/
def TypeExpr.trees? (table : ImportTable) (types : Scope) : List TypeExpr → Option (List Tree)
  | [] => some []
  | t :: ts => do
    let u ← t.tree? table types
    let list ← TypeExpr.trees? table types ts
    some (u :: list)

/-- The tree of a bound, if there is one. -/
def TypeExpr.bound? (table : ImportTable) (types : Scope) :
    Option TypeExpr → Option (Option Tree)
  | none => some none
  | some t => do
    let u ← t.tree? table types
    some (some u)

/-- Members of an object type. -/
def MemberType.fields? (table : ImportTable) (types : Scope) :
    List MemberType → Option (List Field)
  | [] => some []
  | ⟨.string key, required, readonly, type, _⟩ :: members => do
    let t ← type.tree? table types
    let list ← MemberType.fields? table types members
    some (⟨readBack key, readonly, !required, t⟩ :: list)
  | ⟨.computed _, _, _, _, _⟩ :: _ => none

/-- Type parameters. -/
def TypeParameter.binders? (table : ImportTable) (types : Scope) :
    List TypeParameter → Option (List Binder)
  | [] => some []
  | ⟨n, constraint⟩ :: parameters => do
    let bound ← TypeExpr.bound? table types constraint
    let list ← TypeParameter.binders? table types parameters
    some (⟨n.text, bound⟩ :: list)

end

/-! ## Types that have trees -/

/-- Whether a reference can start with a name. -/
def TypeNotation.isLeading (name : String) : Bool :=
  !operatorWords.contains name

mutual

/-- Whether a type can be read back: all members of object types have names that are not
computed, all modules have namespaces, and no reference starts with a type operator. -/
def TypeExpr.isReadable (table : ImportTable) (types : Scope) : TypeExpr → Bool
  | .object members => MemberType.areReadable table types members
  | .function typeParameters parameters result =>
    let inner := types.push (typeParameters.map TypeParameter.name)
    TypeParameter.areReadable table inner typeParameters
      && TypeExpr.areReadable table inner parameters && result.isReadable table inner
  | .union members => TypeExpr.areReadable table types members
  | .intersection left right => left.isReadable table types && right.isReadable table types
  | .imported path _ arguments =>
    (table.find? path).any (isLeading ·.text) && TypeExpr.areReadable table types arguments
  | .inFile n arguments => isLeading n.text && TypeExpr.areReadable table types arguments
  | .global n arguments =>
    (types.contains n.text || isLeading n.text) && TypeExpr.areReadable table types arguments
  | .namespaced path n arguments =>
    (path ++ [n]).head?.all (isLeading ·.text) && TypeExpr.areReadable table types arguments
  | _ => true

/-- Whether types can be read back. -/
def TypeExpr.areReadable (table : ImportTable) (types : Scope) : List TypeExpr → Bool
  | [] => true
  | t :: ts => t.isReadable table types && TypeExpr.areReadable table types ts

/-- Whether a bound can be read back. -/
def TypeExpr.isReadableBound (table : ImportTable) (types : Scope) : Option TypeExpr → Bool
  | none => true
  | some t => t.isReadable table types

/-- Whether members of an object type can be read back. -/
def MemberType.areReadable (table : ImportTable) (types : Scope) : List MemberType → Bool
  | [] => true
  | ⟨.string _, _, _, type, _⟩ :: members =>
    type.isReadable table types && MemberType.areReadable table types members
  | ⟨.computed _, _, _, _, _⟩ :: _ => false

/-- Whether type parameters can be read back. -/
def TypeParameter.areReadable (table : ImportTable) (types : Scope) : List TypeParameter → Bool
  | [] => true
  | ⟨_, constraint⟩ :: parameters =>
    TypeExpr.isReadableBound table types constraint
      && TypeParameter.areReadable table types parameters

end

/-! ## Names of type parameters -/

mutual

/-- Whether no type parameter in a type has the name of a modifier. -/
def TypeExpr.bindsPlainly : TypeExpr → Bool
  | .object members => MemberType.bindPlainly members
  | .function typeParameters parameters result =>
    TypeParameter.bindPlainly typeParameters && TypeExpr.bindPlainly parameters
      && result.bindsPlainly
  | .union members => TypeExpr.bindPlainly members
  | .intersection left right => left.bindsPlainly && right.bindsPlainly
  | .imported _ _ arguments => TypeExpr.bindPlainly arguments
  | .inFile _ arguments => TypeExpr.bindPlainly arguments
  | .global _ arguments => TypeExpr.bindPlainly arguments
  | .namespaced _ _ arguments => TypeExpr.bindPlainly arguments
  | _ => true

/-- Whether no type parameter in types has the name of a modifier. -/
def TypeExpr.bindPlainly : List TypeExpr → Bool
  | [] => true
  | t :: ts => t.bindsPlainly && TypeExpr.bindPlainly ts

/-- Whether no type parameter in a bound has the name of a modifier. -/
def TypeExpr.boundBindsPlainly : Option TypeExpr → Bool
  | none => true
  | some t => t.bindsPlainly

/-- Whether no type parameter in members of an object type has the name of a modifier. -/
def MemberType.bindPlainly : List MemberType → Bool
  | [] => true
  | ⟨_, _, _, type, _⟩ :: members => type.bindsPlainly && MemberType.bindPlainly members

/-- Whether no type parameter of a list, and none in the bounds, has the name of a modifier. -/
def TypeParameter.bindPlainly : List TypeParameter → Bool
  | [] => true
  | ⟨n, constraint⟩ :: parameters =>
    !isModifier n.text && TypeExpr.boundBindsPlainly constraint
      && TypeParameter.bindPlainly parameters

end

/-! ## Existence -/

variable {table : ImportTable}

theorem TypeNotation.exists_reference {head : String} (rest : List String)
    (arguments : List Tree) (h : isLeading head = true) :
    ∃ u, reference? (head :: rest) arguments = some u := by
  rw [isLeading, Bool.not_eq_true'] at h
  refine ⟨.reference (head :: rest) arguments, ?_⟩
  rw [reference?, List.head?_cons, Option.any_some, h]
  rfl

mutual

/-- A type that can be read back has a tree. -/
theorem TypeExpr.exists_tree :
    (t : TypeExpr) → {types : Scope} → t.isReadable table types = true →
      ∃ u, t.tree? table types = some u
  | .number, _, _ | .string, _, _ | .boolean, _, _ | .undefined, _, _ | .null, _, _
  | .never, _, _ | .void, _, _ | .unknown, _, _ | .stringLiteral _, _, _
  | .uniqueSymbol, _, _ => ⟨_, rfl⟩
  | .object members, types, h => by
      obtain ⟨fields, hfields⟩ := MemberType.exists_fields members h
      exact ⟨.object fields, by simp [TypeExpr.tree?, hfields]⟩
  | .function typeParameters parameters result, types, h => by
      rw [TypeExpr.isReadable, Bool.and_eq_true, Bool.and_eq_true] at h
      obtain ⟨binders, hbinders⟩ := TypeParameter.exists_binders typeParameters h.1.1
      obtain ⟨list, hlist⟩ := TypeExpr.exists_trees parameters h.1.2
      obtain ⟨t, ht⟩ := TypeExpr.exists_tree result h.2
      exact ⟨.function binders list t, by simp [TypeExpr.tree?, hbinders, hlist, ht]⟩
  | .union members, types, h => by
      obtain ⟨list, hlist⟩ := TypeExpr.exists_trees members h
      exact ⟨.union list, by simp [TypeExpr.tree?, hlist]⟩
  | .intersection left right, types, h => by
      rw [TypeExpr.isReadable, Bool.and_eq_true] at h
      obtain ⟨t, ht⟩ := TypeExpr.exists_tree left h.1
      obtain ⟨u, hu⟩ := TypeExpr.exists_tree right h.2
      exact ⟨.intersection [t, u], by simp [TypeExpr.tree?, ht, hu]⟩
  | .imported path n arguments, types, h => by
      rw [TypeExpr.isReadable, Bool.and_eq_true, Option.any_eq_true] at h
      obtain ⟨⟨home, hhome, hleading⟩, harguments⟩ := h
      obtain ⟨list, hlist⟩ := TypeExpr.exists_trees arguments harguments
      obtain ⟨u, hu⟩ := exists_reference [n.text] list hleading
      exact ⟨u, by simp [TypeExpr.tree?, hhome, hlist, hu]⟩
  | .inFile n arguments, types, h => by
      rw [TypeExpr.isReadable, Bool.and_eq_true] at h
      obtain ⟨list, hlist⟩ := TypeExpr.exists_trees arguments h.2
      obtain ⟨u, hu⟩ := exists_reference [] list h.1
      exact ⟨u, by simp [TypeExpr.tree?, hlist, hu]⟩
  | .global n arguments, types, h => by
      rw [TypeExpr.isReadable, Bool.and_eq_true] at h
      obtain ⟨list, hlist⟩ := TypeExpr.exists_trees arguments h.2
      cases hhidden : types.contains n.text with
      | true =>
          have hleading : isLeading "globalThis" = true := by decide
          obtain ⟨u, hu⟩ := exists_reference [n.text] list hleading
          exact ⟨u, by simp [TypeExpr.tree?, hlist, hhidden, hu]⟩
      | false =>
          rw [hhidden, Bool.false_or] at h
          obtain ⟨u, hu⟩ := exists_reference [] list h.1
          exact ⟨u, by simp [TypeExpr.tree?, hlist, hhidden, hu]⟩
  | .namespaced [] n arguments, types, h => by
      rw [TypeExpr.isReadable, Bool.and_eq_true] at h
      obtain ⟨list, hlist⟩ := TypeExpr.exists_trees arguments h.2
      obtain ⟨u, hu⟩ := exists_reference [] list h.1
      exact ⟨u, by simp [TypeExpr.tree?, hlist, hu]⟩
  | .namespaced (q :: path) n arguments, types, h => by
      rw [TypeExpr.isReadable, Bool.and_eq_true] at h
      obtain ⟨list, hlist⟩ := TypeExpr.exists_trees arguments h.2
      obtain ⟨u, hu⟩ := exists_reference ((path ++ [n]).map Identifier.text) list h.1
      refine ⟨u, ?_⟩
      rw [TypeExpr.tree?, hlist]
      exact hu

theorem TypeExpr.exists_trees :
    (ts : List TypeExpr) → {types : Scope} → TypeExpr.areReadable table types ts = true →
      ∃ list, TypeExpr.trees? table types ts = some list
  | [], _, _ => ⟨[], rfl⟩
  | t :: ts, types, h => by
      rw [TypeExpr.areReadable, Bool.and_eq_true] at h
      obtain ⟨u, hu⟩ := TypeExpr.exists_tree t h.1
      obtain ⟨list, hlist⟩ := TypeExpr.exists_trees ts h.2
      exact ⟨u :: list, by simp [TypeExpr.trees?, hu, hlist]⟩

theorem TypeExpr.exists_bound :
    (t : Option TypeExpr) → {types : Scope} → TypeExpr.isReadableBound table types t = true →
      ∃ bound, TypeExpr.bound? table types t = some bound
  | none, _, _ => ⟨none, rfl⟩
  | some t, types, h => by
      obtain ⟨u, hu⟩ := TypeExpr.exists_tree t h
      exact ⟨some u, by simp [TypeExpr.bound?, hu]⟩

theorem MemberType.exists_fields :
    (members : List MemberType) → {types : Scope} →
      MemberType.areReadable table types members = true →
        ∃ fields, MemberType.fields? table types members = some fields
  | [], _, _ => ⟨[], rfl⟩
  | ⟨.string key, required, readonly, type, _⟩ :: members, types, h => by
      rw [MemberType.areReadable, Bool.and_eq_true] at h
      obtain ⟨t, ht⟩ := TypeExpr.exists_tree type h.1
      obtain ⟨list, hlist⟩ := MemberType.exists_fields members h.2
      exact ⟨⟨readBack key, readonly, !required, t⟩ :: list,
        by simp [MemberType.fields?, ht, hlist]⟩

theorem TypeParameter.exists_binders :
    (parameters : List TypeParameter) → {types : Scope} →
      TypeParameter.areReadable table types parameters = true →
        ∃ binders, TypeParameter.binders? table types parameters = some binders
  | [], _, _ => ⟨[], rfl⟩
  | ⟨n, constraint⟩ :: parameters, types, h => by
      rw [TypeParameter.areReadable, Bool.and_eq_true] at h
      obtain ⟨bound, hbound⟩ := TypeExpr.exists_bound constraint h.1
      obtain ⟨list, hlist⟩ := TypeParameter.exists_binders parameters h.2
      exact ⟨⟨n.text, bound⟩ :: list, by simp [TypeParameter.binders?, hbound, hlist]⟩

end

end EcmaWriter
