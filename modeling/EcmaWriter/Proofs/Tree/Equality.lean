import EcmaWriter.Tree.Equality

/-!
# EcmaWriter - The equality test is equality

The test that goes through two trees together succeeds on equal trees and on no others.
Trees that pass it have the same constructor, so the pairs of nodes to go through are those
that the test itself looks into; the last case of each proof is the pair of nodes that fails.

Main results:

- Theorems `Expr.eq_of_same`, `Statement.eq_of_same`, `TypeExpr.eq_of_same`: the test only
  succeeds on equal nodes.
- Theorems `Expr.same_self`, `Statement.same_self`, `TypeExpr.same_self`: it does succeed.
- Theorem `Module.same_iff`: both, for modules.
-/

namespace EcmaWriter

/-! ## Trees that pass are equal -/

mutual

/-- The test on expressions, which asks for one constructor and then goes into its parts. -/
theorem Expr.eq_of_same {a b : Expr} (h : a.same b = true) : a = b := by
  unfold Expr.same at h
  split at h
  case h_1 => rw [eq_of_beq h]
  case h_2 => rw [eq_of_beq h]
  case h_3 => rw [eq_of_beq h]
  case h_4 => rfl
  case h_5 => rfl
  case h_6 =>
    simp only [Bool.and_eq_true, beq_iff_eq] at h
    obtain ⟨rfl, h2⟩ := h
    rw [Expr.eq_of_same h2]
  case h_7 =>
    simp only [Bool.and_eq_true, beq_iff_eq, and_assoc] at h
    obtain ⟨rfl, h2, h3⟩ := h
    rw [Expr.eq_of_same h2, Expr.eq_of_same h3]
  case h_8 =>
    simp only [Bool.and_eq_true, and_assoc] at h
    obtain ⟨h1, h2, h3⟩ := h
    rw [Expr.eq_of_same h1, Expr.eq_of_same h2, Expr.eq_of_same h3]
  case h_9 => rw [ArrayItem.eq_of_sameList h]
  case h_10 => rw [Member.eq_of_sameList h]
  case h_11 =>
    simp only [Bool.and_eq_true, beq_iff_eq, and_assoc] at h
    obtain ⟨rfl, h2, h3, h4, h5⟩ := h
    rw [TypeParameter.eq_of_sameList h2, Parameter.eq_of_sameList h3,
      TypeExpr.eq_of_sameOption h4, Statement.eq_of_sameList h5]
  case h_12 => rw [eq_of_beq h]
  case h_13 => rw [eq_of_beq h]
  case h_14 =>
    simp only [Bool.and_eq_true, beq_iff_eq] at h
    obtain ⟨rfl, rfl⟩ := h
    rfl
  case h_15 =>
    simp only [Bool.and_eq_true] at h
    obtain ⟨h1, h2⟩ := h
    rw [Expr.eq_of_same h1, Expr.eq_of_same h2]
  case h_16 =>
    simp only [Bool.and_eq_true] at h
    obtain ⟨h1, h2⟩ := h
    rw [Expr.eq_of_same h1, Expr.eq_of_sameList h2]
  case h_17 =>
    simp only [Bool.and_eq_true] at h
    obtain ⟨h1, h2⟩ := h
    rw [Expr.eq_of_same h1, Expr.eq_of_sameList h2]
  case h_18 =>
    simp only [Bool.and_eq_true] at h
    obtain ⟨h1, h2⟩ := h
    rw [Expr.eq_of_same h1, TypeExpr.eq_of_same h2]
  case h_19 =>
    simp only [Bool.and_eq_true] at h
    obtain ⟨h1, h2⟩ := h
    rw [Expr.eq_of_same h1, TypeExpr.eq_of_sameList h2]
  case h_20 => contradiction
termination_by sizeOf a
decreasing_by all_goals (subst_vars; simp +arith)

/-- Lists that pass have one length and equal expressions, place by place. -/
theorem Expr.eq_of_sameList {a b : List Expr} (h : Expr.sameList a b = true) : a = b := by
  unfold Expr.sameList at h
  split at h
  case h_1 => rfl
  case h_2 =>
    simp only [Bool.and_eq_true] at h
    obtain ⟨h1, h2⟩ := h
    rw [Expr.eq_of_same h1, Expr.eq_of_sameList h2]
  case h_3 => contradiction
termination_by sizeOf a
decreasing_by all_goals (subst_vars; simp +arith)

/-- Array items, which also agree on whether they are spread. -/
theorem ArrayItem.eq_of_sameList {a b : List ArrayItem}
    (h : ArrayItem.sameList a b = true) : a = b := by
  unfold ArrayItem.sameList at h
  split at h
  case h_1 => rfl
  case h_2 =>
    simp only [Bool.and_eq_true, beq_iff_eq, and_assoc] at h
    obtain ⟨h1, rfl, h3⟩ := h
    rw [Expr.eq_of_same h1, ArrayItem.eq_of_sameList h3]
  case h_3 => contradiction
termination_by sizeOf a
decreasing_by all_goals (subst_vars; simp +arith)

/-- Members of an object: a key with its value never passes for a spread. -/
theorem Member.eq_of_sameList {a b : List Member} (h : Member.sameList a b = true) : a = b := by
  unfold Member.sameList at h
  split at h
  case h_1 => rfl
  case h_2 =>
    simp only [Bool.and_eq_true] at h
    obtain ⟨h1, h2⟩ := h
    rw [Expr.eq_of_same h1, Member.eq_of_sameList h2]
  case h_3 =>
    simp only [Bool.and_eq_true, and_assoc] at h
    obtain ⟨h1, h2, h3⟩ := h
    rw [Expr.eq_of_same h1, Expr.eq_of_same h2, Member.eq_of_sameList h3]
  case h_4 => contradiction
termination_by sizeOf a
decreasing_by all_goals (subst_vars; simp +arith)

/-- Parameters agree on the name and on the type, if there is one. -/
theorem Parameter.eq_of_sameList {a b : List Parameter}
    (h : Parameter.sameList a b = true) : a = b := by
  unfold Parameter.sameList at h
  split at h
  case h_1 => rfl
  case h_2 =>
    simp only [Bool.and_eq_true, beq_iff_eq, and_assoc] at h
    obtain ⟨rfl, h2, h3⟩ := h
    rw [TypeExpr.eq_of_sameOption h2, Parameter.eq_of_sameList h3]
  case h_3 => contradiction
termination_by sizeOf a
decreasing_by all_goals (subst_vars; simp +arith)

/-- Type parameters agree on the name and on the constraint, if there is one. -/
theorem TypeParameter.eq_of_sameList {a b : List TypeParameter}
    (h : TypeParameter.sameList a b = true) : a = b := by
  unfold TypeParameter.sameList at h
  split at h
  case h_1 => rfl
  case h_2 =>
    simp only [Bool.and_eq_true, beq_iff_eq, and_assoc] at h
    obtain ⟨rfl, h2, h3⟩ := h
    rw [TypeExpr.eq_of_sameOption h2, TypeParameter.eq_of_sameList h3]
  case h_3 => contradiction
termination_by sizeOf a
decreasing_by all_goals (subst_vars; simp +arith)

/-- The test on statements, with the bodies that they hold. -/
theorem Statement.eq_of_same {a b : Statement} (h : a.same b = true) : a = b := by
  unfold Statement.same at h
  split at h
  case h_1 => rw [Expr.eq_of_same h]
  case h_2 =>
    simp only [Bool.and_eq_true, beq_iff_eq, and_assoc] at h
    obtain ⟨h1, rfl, h3⟩ := h
    rw [Expr.eq_of_same h1, Expr.eq_of_same h3]
  case h_3 =>
    simp only [Bool.and_eq_true, and_assoc] at h
    obtain ⟨h1, h2, h3⟩ := h
    rw [Expr.eq_of_same h1, Statement.eq_of_sameList h2, Statement.eq_of_sameList h3]
  case h_4 => rw [Expr.eq_of_same h]
  case h_5 => rw [Expr.eq_of_same h]
  case h_6 => rfl
  case h_7 => rfl
  case h_8 => rfl
  case h_9 =>
    simp only [Bool.and_eq_true, beq_iff_eq, and_assoc] at h
    obtain ⟨rfl, rfl, h3, h4⟩ := h
    rw [TypeExpr.eq_of_sameOption h3, Expr.eq_of_same h4]
  case h_10 =>
    simp only [Bool.and_eq_true, beq_iff_eq, and_assoc] at h
    obtain ⟨rfl, rfl, h3, h4, h5, h6⟩ := h
    rw [TypeParameter.eq_of_sameList h3, Parameter.eq_of_sameList h4, TypeExpr.eq_of_same h5,
      Statement.eq_of_sameList h6]
  case h_11 =>
    simp only [Bool.and_eq_true, beq_iff_eq, and_assoc] at h
    obtain ⟨rfl, h2, h3⟩ := h
    rw [Expr.eq_of_same h2, Statement.eq_of_sameList h3]
  case h_12 =>
    simp only [Bool.and_eq_true, beq_iff_eq, and_assoc] at h
    obtain ⟨rfl, h2, h3⟩ := h
    rw [Expr.eq_of_same h2, Statement.eq_of_sameList h3]
  case h_13 => rw [Statement.eq_of_sameList h]
  case h_14 =>
    simp only [Bool.and_eq_true] at h
    obtain ⟨h1, h2⟩ := h
    rw [Expr.eq_of_same h1, SwitchCase.eq_of_sameList h2]
  case h_15 =>
    simp only [Bool.and_eq_true, beq_iff_eq, and_assoc] at h
    obtain ⟨h1, rfl, h3⟩ := h
    rw [Statement.eq_of_sameList h1, Statement.eq_of_sameList h3]
  case h_16 => contradiction
termination_by sizeOf a
decreasing_by all_goals (subst_vars; simp +arith)

/-- Bodies that pass are equal statement by statement. -/
theorem Statement.eq_of_sameList {a b : List Statement}
    (h : Statement.sameList a b = true) : a = b := by
  unfold Statement.sameList at h
  split at h
  case h_1 => rfl
  case h_2 =>
    simp only [Bool.and_eq_true] at h
    obtain ⟨h1, h2⟩ := h
    rw [Statement.eq_of_same h1, Statement.eq_of_sameList h2]
  case h_3 => contradiction
termination_by sizeOf a
decreasing_by all_goals (subst_vars; simp +arith)

/-- Cases of a `switch` agree on the label and on the body. -/
theorem SwitchCase.eq_of_sameList {a b : List SwitchCase}
    (h : SwitchCase.sameList a b = true) : a = b := by
  unfold SwitchCase.sameList at h
  split at h
  case h_1 => rfl
  case h_2 =>
    simp only [Bool.and_eq_true, beq_iff_eq, and_assoc] at h
    obtain ⟨rfl, h2, h3⟩ := h
    rw [Statement.eq_of_sameList h2, SwitchCase.eq_of_sameList h3]
  case h_3 => contradiction
termination_by sizeOf a
decreasing_by all_goals (subst_vars; simp +arith)

/-- The test on types. -/
theorem TypeExpr.eq_of_same {a b : TypeExpr} (h : a.same b = true) : a = b := by
  unfold TypeExpr.same at h
  split at h
  case h_1 => rfl
  case h_2 => rfl
  case h_3 => rfl
  case h_4 => rfl
  case h_5 => rfl
  case h_6 => rfl
  case h_7 => rfl
  case h_8 => rfl
  case h_9 => rw [MemberType.eq_of_sameList h]
  case h_10 =>
    simp only [Bool.and_eq_true, and_assoc] at h
    obtain ⟨h1, h2, h3⟩ := h
    rw [TypeParameter.eq_of_sameList h1, TypeExpr.eq_of_sameList h2, TypeExpr.eq_of_same h3]
  case h_11 => rw [TypeExpr.eq_of_sameList h]
  case h_12 =>
    simp only [Bool.and_eq_true] at h
    obtain ⟨h1, h2⟩ := h
    rw [TypeExpr.eq_of_same h1, TypeExpr.eq_of_same h2]
  case h_13 =>
    simp only [Bool.and_eq_true, beq_iff_eq, and_assoc] at h
    obtain ⟨rfl, rfl, h3⟩ := h
    rw [TypeExpr.eq_of_sameList h3]
  case h_14 =>
    simp only [Bool.and_eq_true, beq_iff_eq] at h
    obtain ⟨rfl, h2⟩ := h
    rw [TypeExpr.eq_of_sameList h2]
  case h_15 =>
    simp only [Bool.and_eq_true, beq_iff_eq] at h
    obtain ⟨rfl, h2⟩ := h
    rw [TypeExpr.eq_of_sameList h2]
  case h_16 =>
    simp only [Bool.and_eq_true, beq_iff_eq, and_assoc] at h
    obtain ⟨rfl, rfl, h3⟩ := h
    rw [TypeExpr.eq_of_sameList h3]
  case h_17 => rw [eq_of_beq h]
  case h_18 => rfl
  case h_19 => contradiction
termination_by sizeOf a
decreasing_by all_goals (subst_vars; simp +arith)

/-- A type that is left out only passes with one that is left out as well. -/
theorem TypeExpr.eq_of_sameOption {a b : Option TypeExpr}
    (h : TypeExpr.sameOption a b = true) : a = b := by
  unfold TypeExpr.sameOption at h
  split at h
  case h_1 => rfl
  case h_2 => rw [TypeExpr.eq_of_same h]
  case h_3 => contradiction
termination_by sizeOf a
decreasing_by all_goals (subst_vars; simp +arith)

/-- Lists of types, place by place. -/
theorem TypeExpr.eq_of_sameList {a b : List TypeExpr}
    (h : TypeExpr.sameList a b = true) : a = b := by
  unfold TypeExpr.sameList at h
  split at h
  case h_1 => rfl
  case h_2 =>
    simp only [Bool.and_eq_true] at h
    obtain ⟨h1, h2⟩ := h
    rw [TypeExpr.eq_of_same h1, TypeExpr.eq_of_sameList h2]
  case h_3 => contradiction
termination_by sizeOf a
decreasing_by all_goals (subst_vars; simp +arith)

/-- Members of an object type, their flags and documents included. -/
theorem MemberType.eq_of_sameList {a b : List MemberType}
    (h : MemberType.sameList a b = true) : a = b := by
  unfold MemberType.sameList at h
  split at h
  case h_1 => rfl
  case h_2 =>
    simp only [Bool.and_eq_true, beq_iff_eq, and_assoc] at h
    obtain ⟨h1, rfl, rfl, h4, rfl, h6⟩ := h
    rw [PropertyName.eq_of_same h1, TypeExpr.eq_of_same h4, MemberType.eq_of_sameList h6]
  case h_3 => contradiction
termination_by sizeOf a
decreasing_by all_goals (subst_vars; simp +arith)

/-- A key that is text never passes for a computed one. -/
theorem PropertyName.eq_of_same {a b : PropertyName} (h : a.same b = true) : a = b := by
  unfold PropertyName.same at h
  split at h
  case h_1 => rw [eq_of_beq h]
  case h_2 => rw [Expr.eq_of_same h]
  case h_3 => contradiction
termination_by sizeOf a
decreasing_by all_goals (subst_vars; simp +arith)

end

/-! ## Equal trees pass -/

mutual

/-- Every expression passes the test with itself. -/
theorem Expr.same_self : ∀ e : Expr, e.same e = true
  | .number _ | .string _ | .boolean _ | .reference _ | .global _ | .imported _ _ => by
      simp [Expr.same]
  | .null | .undefined => by simp [Expr.same]
  | .unary _ e => by simp [Expr.same, Expr.same_self e]
  | .binary _ l r => by simp [Expr.same, Expr.same_self l, Expr.same_self r]
  | .conditional c t e => by
      simp [Expr.same, Expr.same_self c, Expr.same_self t, Expr.same_self e]
  | .array items => by simp [Expr.same, ArrayItem.sameList_self items]
  | .object members => by simp [Expr.same, Member.sameList_self members]
  | .lambda _ ts ps r body => by
      simp [Expr.same, TypeParameter.sameList_self ts, Parameter.sameList_self ps,
        TypeExpr.sameOption_self r, Statement.sameList_self body]
  | .get e p => by simp [Expr.same, Expr.same_self e, Expr.same_self p]
  | .call f es => by simp [Expr.same, Expr.same_self f, Expr.sameList_self es]
  | .new f es => by simp [Expr.same, Expr.same_self f, Expr.sameList_self es]
  | .assertion e t => by simp [Expr.same, Expr.same_self e, TypeExpr.same_self t]
  | .instantiation e ts => by simp [Expr.same, Expr.same_self e, TypeExpr.sameList_self ts]

/-- A list of expressions passes with itself. -/
theorem Expr.sameList_self : ∀ es : List Expr, Expr.sameList es es = true
  | [] => by simp [Expr.sameList]
  | e :: es => by simp [Expr.sameList, Expr.same_self e, Expr.sameList_self es]

/-- Array items pass with themselves. -/
theorem ArrayItem.sameList_self : ∀ items : List ArrayItem, ArrayItem.sameList items items = true
  | [] => by simp [ArrayItem.sameList]
  | ⟨e, _⟩ :: items => by
      simp [ArrayItem.sameList, Expr.same_self e, ArrayItem.sameList_self items]

/-- Members of an object pass with themselves. -/
theorem Member.sameList_self : ∀ ms : List Member, Member.sameList ms ms = true
  | [] => by simp [Member.sameList]
  | .spread e :: ms => by simp [Member.sameList, Expr.same_self e, Member.sameList_self ms]
  | .keyValue k v :: ms => by
      simp [Member.sameList, Expr.same_self k, Expr.same_self v, Member.sameList_self ms]

/-- Parameters pass with themselves. -/
theorem Parameter.sameList_self : ∀ ps : List Parameter, Parameter.sameList ps ps = true
  | [] => by simp [Parameter.sameList]
  | ⟨_, t⟩ :: ps => by
      simp [Parameter.sameList, TypeExpr.sameOption_self t, Parameter.sameList_self ps]

/-- Type parameters pass with themselves. -/
theorem TypeParameter.sameList_self :
    ∀ ps : List TypeParameter, TypeParameter.sameList ps ps = true
  | [] => by simp [TypeParameter.sameList]
  | ⟨_, t⟩ :: ps => by
      simp [TypeParameter.sameList, TypeExpr.sameOption_self t, TypeParameter.sameList_self ps]

/-- Every statement passes the test with itself. -/
theorem Statement.same_self : ∀ s : Statement, s.same s = true
  | .returnVoid | .continueLoop | .breakLoop => by simp [Statement.same]
  | .evaluate e | .throwError e | .returnValue e => by simp [Statement.same, Expr.same_self e]
  | .set t _ v => by simp [Statement.same, Expr.same_self t, Expr.same_self v]
  | .ifElse c t e => by
      simp [Statement.same, Expr.same_self c, Statement.sameList_self t,
        Statement.sameList_self e]
  | .binding _ _ t e => by
      simp [Statement.same, TypeExpr.sameOption_self t, Expr.same_self e]
  | .function _ _ ts ps r body => by
      simp [Statement.same, TypeParameter.sameList_self ts, Parameter.sameList_self ps,
        TypeExpr.same_self r, Statement.sameList_self body]
  | .forCount _ e body | .forOf _ e body => by
      simp [Statement.same, Expr.same_self e, Statement.sameList_self body]
  | .whileTrue body => by simp [Statement.same, Statement.sameList_self body]
  | .switch e cs => by simp [Statement.same, Expr.same_self e, SwitchCase.sameList_self cs]
  | .tryCatch body _ handler => by
      simp [Statement.same, Statement.sameList_self body, Statement.sameList_self handler]

/-- A body passes with itself. -/
theorem Statement.sameList_self : ∀ ss : List Statement, Statement.sameList ss ss = true
  | [] => by simp [Statement.sameList]
  | s :: ss => by simp [Statement.sameList, Statement.same_self s, Statement.sameList_self ss]

/-- Cases of a `switch` pass with themselves. -/
theorem SwitchCase.sameList_self : ∀ cs : List SwitchCase, SwitchCase.sameList cs cs = true
  | [] => by simp [SwitchCase.sameList]
  | ⟨_, body⟩ :: cs => by
      simp [SwitchCase.sameList, Statement.sameList_self body, SwitchCase.sameList_self cs]

/-- Every type passes the test with itself. -/
theorem TypeExpr.same_self : ∀ t : TypeExpr, t.same t = true
  | .number | .string | .boolean | .undefined | .null | .never | .void | .unknown
  | .uniqueSymbol | .stringLiteral _ => by simp [TypeExpr.same]
  | .object ms => by simp [TypeExpr.same, MemberType.sameList_self ms]
  | .function ts ps r => by
      simp [TypeExpr.same, TypeParameter.sameList_self ts, TypeExpr.sameList_self ps,
        TypeExpr.same_self r]
  | .union ts | .imported _ _ ts | .inFile _ ts | .global _ ts | .namespaced _ _ ts => by
      simp [TypeExpr.same, TypeExpr.sameList_self ts]
  | .intersection l r => by simp [TypeExpr.same, TypeExpr.same_self l, TypeExpr.same_self r]

/-- An optional type passes with itself. -/
theorem TypeExpr.sameOption_self : ∀ t : Option TypeExpr, TypeExpr.sameOption t t = true
  | none => by simp [TypeExpr.sameOption]
  | some t => by simp [TypeExpr.sameOption, TypeExpr.same_self t]

/-- A list of types passes with itself. -/
theorem TypeExpr.sameList_self : ∀ ts : List TypeExpr, TypeExpr.sameList ts ts = true
  | [] => by simp [TypeExpr.sameList]
  | t :: ts => by simp [TypeExpr.sameList, TypeExpr.same_self t, TypeExpr.sameList_self ts]

/-- Members of an object type pass with themselves. -/
theorem MemberType.sameList_self : ∀ ms : List MemberType, MemberType.sameList ms ms = true
  | [] => by simp [MemberType.sameList]
  | ⟨name, _, _, t, _⟩ :: ms => by
      simp [MemberType.sameList, PropertyName.same_self name, TypeExpr.same_self t,
        MemberType.sameList_self ms]

/-- A key passes with itself. -/
theorem PropertyName.same_self : ∀ name : PropertyName, name.same name = true
  | .string _ => by simp [PropertyName.same]
  | .computed e => by simp [PropertyName.same, Expr.same_self e]

end

/-! ## Modules -/

/-- The test decides equality of expressions. -/
theorem Expr.same_iff {a b : Expr} : a.same b = true ↔ a = b :=
  ⟨Expr.eq_of_same, fun h => h ▸ Expr.same_self a⟩

/-- The test decides equality of types. -/
theorem TypeExpr.same_iff {a b : TypeExpr} : a.same b = true ↔ a = b :=
  ⟨TypeExpr.eq_of_same, fun h => h ▸ TypeExpr.same_self a⟩

/-- The test decides equality of optional types. -/
theorem TypeExpr.sameOption_iff {a b : Option TypeExpr} :
    TypeExpr.sameOption a b = true ↔ a = b :=
  ⟨TypeExpr.eq_of_sameOption, fun h => h ▸ TypeExpr.sameOption_self a⟩

/-- The test decides equality of lists of type parameters. -/
theorem TypeParameter.sameList_iff {a b : List TypeParameter} :
    TypeParameter.sameList a b = true ↔ a = b :=
  ⟨TypeParameter.eq_of_sameList, fun h => h ▸ TypeParameter.sameList_self a⟩

/-- The test decides equality of bodies. -/
theorem Statement.sameList_iff {a b : List Statement} :
    Statement.sameList a b = true ↔ a = b :=
  ⟨Statement.eq_of_sameList, fun h => h ▸ Statement.sameList_self a⟩

/-- The test decides equality of documented parameters, documents included. -/
theorem DocumentedParameter.sameList_iff {ps ps' : List DocumentedParameter} :
    DocumentedParameter.sameList ps ps' = true ↔ ps = ps' := by
  induction ps generalizing ps' with
  | nil => cases ps' <;> simp [DocumentedParameter.sameList]
  | cons p ps ih =>
      cases ps' with
      | nil => simp [DocumentedParameter.sameList]
      | cons p' ps' =>
          rcases p with ⟨name, document, type⟩
          rcases p' with ⟨name', document', type'⟩
          simp [DocumentedParameter.sameList, TypeExpr.same_iff, ih, and_assoc]

/-- The test decides equality of definitions. -/
theorem Definition.same_iff {a b : Definition} : a.same b = true ↔ a = b := by
  cases a with
  | typeAlias a =>
      cases b with
      | typeAlias b =>
          rcases a with ⟨exported, name, typeParameters, document, type⟩
          rcases b with ⟨exported', name', typeParameters', document', type'⟩
          simp [Definition.same, TypeParameter.sameList_iff, TypeExpr.same_iff, and_assoc]
      | _ => exact ⟨nofun, nofun⟩
  | function a =>
      cases b with
      | function b =>
          rcases a with ⟨exported, isAsync, name, document, typeParameters, ps, type, body⟩
          rcases b with ⟨exported', isAsync', name', document', typeParameters', ps', type', body'⟩
          simp [Definition.same, TypeParameter.sameList_iff, DocumentedParameter.sameList_iff,
            TypeExpr.same_iff, Statement.sameList_iff, and_assoc]
      | _ => exact ⟨nofun, nofun⟩
  | binding a =>
      cases b with
      | binding b =>
          rcases a with ⟨exported, name, document, type, value⟩
          rcases b with ⟨exported', name', document', type', value'⟩
          simp [Definition.same, TypeExpr.sameOption_iff, Expr.same_iff, and_assoc]
      | _ => exact ⟨nofun, nofun⟩

/-- The test decides equality of lists of definitions. -/
theorem Definition.sameList_iff {as bs : List Definition} :
    Definition.sameList as bs = true ↔ as = bs := by
  induction as generalizing bs with
  | nil => cases bs <;> simp [Definition.sameList]
  | cons a as ih =>
      cases bs with
      | nil => simp [Definition.sameList]
      | cons b bs => simp [Definition.sameList, Definition.same_iff, ih]

/-- The equality test on modules is equality. -/
theorem Module.same_iff {a b : Module} : a.same b = true ↔ a = b := by
  rcases a with ⟨definitions, statements⟩
  rcases b with ⟨definitions', statements'⟩
  rw [Module.same, Bool.and_eq_true, Definition.sameList_iff, Statement.sameList_iff,
    Module.mk.injEq]

end EcmaWriter
