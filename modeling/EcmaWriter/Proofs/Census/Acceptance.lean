import EcmaWriter.Proofs.Census.Mentions
import EcmaWriter.Proofs.Census.Stock

/-!
# EcmaWriter - Which modules are accepted

A module is well formed when the names that stand together in one construct differ,
wherever the construct is, and closed when every reference finds its name among the
names visible where it stands.  The census accepts exactly these modules, and it
reports the fault that comes first in document order.

Main results:

- Definitions `Module.WellFormed`, `Module.Closed`: what is asked of a module.
- Definition `Module.FirstFault`: the first fault of a module in document order.
- Theorem `Module.census_accepts_iff_and_reports_first`: the census accepts exactly
  the well-formed modules, closed ones if references must resolve, and reports the
  first fault of any other.
-/

namespace EcmaWriter

/-! ## What must differ -/

namespace Node

/-- The parameters of a function of any kind. -/
def parameterNames : Node → List Identifier
  | .definition (.function f) => f.parameters.map DocumentedParameter.name
  | .statement (.function _ _ _ parameters _ _) => parameters.map Parameter.name
  | .expr (.lambda _ _ parameters _ _) => parameters.map Parameter.name
  | _ => []

/-- What the parameters of a node are called. -/
def parameterKind : Node → NameKind
  | .definition _ => .functionParameter
  | .statement _ => .localFunctionParameter
  | _ => .lambdaParameter

/-- The type parameters of a type alias, a function of any kind or a function type. -/
def typeParameterNames : Node → List Identifier
  | .definition (.typeAlias a) => a.typeParameters.map TypeParameter.name
  | .definition (.function f) => f.typeParameters.map TypeParameter.name
  | .statement (.function _ _ typeParameters _ _ _) => typeParameters.map TypeParameter.name
  | .expr (.lambda _ typeParameters _ _ _) => typeParameters.map TypeParameter.name
  | .type (.function typeParameters _ _) => typeParameters.map TypeParameter.name
  | _ => []

/-- What the type parameters of a node are called. -/
def typeParameterKind : Node → NameKind
  | .definition (.typeAlias _) => .typeAliasTypeParameter
  | .definition _ => .functionTypeParameter
  | .statement _ => .localFunctionTypeParameter
  | .expr _ => .lambdaTypeParameter
  | _ => .functionTypeTypeParameter

/-- The names declared directly in a list of statements. -/
def localNames : Node → List Identifier
  | .block _ body => blockBindings body
  | _ => []

end Node

namespace Module

/-- The names that stand together in one construct differ, everywhere in the
module. -/
structure WellFormed (m : Module) : Prop where
  typeNames : m.typeNames.Nodup
  valueNames : m.valueNames.Nodup
  parameters : ∀ o ∈ m.occurrences, o.node.parameterNames.Nodup
  typeParameters : ∀ o ∈ m.occurrences, o.node.typeParameterNames.Nodup
  locals : ∀ o ∈ m.occurrences, o.node.localNames.Nodup

/-- Every reference is to a name visible where it stands. -/
def Closed (m : Module) : Prop :=
  ∀ o ∈ m.occurrences, ∀ name, o.node = .expr (.reference name) → name ∈ o.scope.names

end Module

/-! ## Faults -/

/-- A fault of a node by itself. Parameters are looked at before type parameters. -/
inductive Occurrence.HasFault (policy : UnresolvedPolicy) (o : Occurrence) : Fault → Prop
  | parameter {x : Identifier} (h : IsFirstRepeat o.node.parameterNames x) :
    o.HasFault policy (.duplicateName ⟨o.node.parameterKind, x⟩)
  | typeParameter {x : Identifier} (hparameters : o.node.parameterNames.Nodup)
      (h : IsFirstRepeat o.node.typeParameterNames x) :
    o.HasFault policy (.duplicateName ⟨o.node.typeParameterKind, x⟩)
  | blockLocal {x : Identifier} (h : IsFirstRepeat o.node.localNames x) :
    o.HasFault policy (.duplicateName ⟨.blockLocal, x⟩)
  | unresolved {x : Identifier} (hreference : o.node = .expr (.reference x))
      (hpolicy : policy = .reject) (h : x ∉ o.scope.names) :
    o.HasFault policy (.unresolvedVariable x)

/-- The first fault of a module: among its definitions, or at the first occurrence
that has one. -/
inductive Module.FirstFault (policy : UnresolvedPolicy) (m : Module) : Fault → Prop
  | definitions {d : Declared} (h : IsFirstRepeat (m.definitions.map Definition.declared) d) :
    m.FirstFault policy (.duplicateName d)
  | occurrence {before after : List Occurrence} {o : Occurrence} {f : Fault}
      (hdefinitions : (m.definitions.map Definition.declared).Nodup)
      (hsplit : m.occurrences = before ++ o :: after)
      (hbefore : ∀ q ∈ before, ∀ g, ¬ q.HasFault policy g) (h : o.HasFault policy f) :
    m.FirstFault policy f

/-! ## Faults of one node -/

/-- A repeat among names, as a fault. -/
def duplicate? (kind : NameKind) (names : List Identifier) : Option Fault :=
  (firstRepeat? [] names).map fun x => .duplicateName ⟨kind, x⟩

theorem duplicate?_eq_none_iff {kind : NameKind} {names : List Identifier} :
    duplicate? kind names = none ↔ names.Nodup := by
  rw [duplicate?, Option.map_eq_none_iff, firstRepeat?_eq_none_iff]

theorem duplicate?_eq_some_iff {kind : NameKind} {names : List Identifier} {f : Fault} :
    duplicate? kind names = some f ↔
      ∃ x, IsFirstRepeat names x ∧ .duplicateName ⟨kind, x⟩ = f := by
  rw [duplicate?, Option.map_eq_some_iff]
  simp only [firstRepeat?_eq_some_iff]

theorem firstRepeat?_map_declared (kind : NameKind) (seen names : List Identifier) :
    firstRepeat? (seen.map (Declared.mk kind)) (names.map (Declared.mk kind)) =
      (firstRepeat? seen names).map (Declared.mk kind) := by
  induction names generalizing seen with
  | nil => rfl
  | cons x names ih =>
      have hmem : Declared.mk kind x ∈ seen.map (Declared.mk kind) ↔ x ∈ seen := by
        simp
      rw [List.map_cons, firstRepeat?, firstRepeat?]
      by_cases hx : x ∈ seen
      · rw [if_pos (hmem.mpr hx), if_pos hx]
        rfl
      · rw [if_neg (hmem.not.mpr hx), if_neg hx]
        exact ih (x :: seen)

theorem Mention.fault?_distinctAs (policy : UnresolvedPolicy) (kind : NameKind)
    (names : List Identifier) :
    (Mention.distinctAs kind names).fault? policy = duplicate? kind names := by
  have h := firstRepeat?_map_declared kind [] names
  rw [List.map_nil] at h
  rw [Mention.distinctAs, Mention.fault?, h, Option.map_map]
  rfl

namespace Occurrence

/-- The fault of a reference that does not resolve. -/
def unresolved? (policy : UnresolvedPolicy) (o : Occurrence) : Option Fault :=
  match o.node with
  | .expr (.reference x) => (Mention.reference o.scope x).fault? policy
  | _ => none

theorem unresolved?_eq_some_iff {policy : UnresolvedPolicy} {o : Occurrence} {f : Fault} :
    o.unresolved? policy = some f ↔
      ∃ x, o.node = .expr (.reference x) ∧ policy = .reject ∧ x ∉ o.scope.names ∧
        .unresolvedVariable x = f := by
  by_cases h : ∃ x, o.node = .expr (.reference x)
  · rcases h with ⟨x, hx⟩
    have hcontains := Scope.contains_text_iff o.scope x
    simp only [unresolved?, hx, Mention.fault?]
    by_cases hmem : x ∈ o.scope.names
    · simp [hcontains.mpr hmem, hmem]
    · cases policy <;> simp [hcontains.not.mpr hmem, hmem]
  · have hnone : o.unresolved? policy = none := by
      rw [unresolved?]
      split
      · exact absurd ⟨_, ‹_›⟩ h
      · rfl
    rw [hnone]
    refine iff_of_false (by simp) ?_
    rintro ⟨x, hx, -⟩
    exact h ⟨x, hx⟩

/-- The faults of a node by itself, in the order in which they are looked for. -/
def faults (policy : UnresolvedPolicy) (o : Occurrence) : List Fault :=
  (duplicate? o.node.parameterKind o.node.parameterNames).toList
    ++ (duplicate? o.node.typeParameterKind o.node.typeParameterNames).toList
    ++ (duplicate? .blockLocal o.node.localNames).toList
    ++ (o.unresolved? policy).toList

theorem filterMap_fault?_own (policy : UnresolvedPolicy) (o : Occurrence) :
    o.own.filterMap (Mention.fault? policy) = o.faults policy := by
  have hone : ∀ kind names, [Mention.distinctAs kind names].filterMap (Mention.fault? policy) =
      (duplicate? kind names).toList := by
    intro kind names
    rw [List.filterMap_cons, Mention.fault?_distinctAs]
    cases duplicate? kind names <;> rfl
  have htwo : ∀ kind names kind' names',
      [Mention.distinctAs kind names, .distinctAs kind' names'].filterMap
          (Mention.fault? policy) =
        (duplicate? kind names).toList ++ (duplicate? kind' names').toList ++ [] ++ [] := by
    intro kind names kind' names'
    rw [← List.singleton_append, List.filterMap_append, hone, hone, List.append_nil,
      List.append_nil]
  have hend : ∀ fs : List Fault, fs = fs ++ [] ++ [] := by
    intro fs
    rw [List.append_nil, List.append_nil]
  rcases o with ⟨s, node⟩
  rcases node with (a | f | b) | ⟨bindings, body⟩ | statement | e | t
  · exact (hone _ _).trans (hend _)
  · exact htwo _ _ _ _
  · rfl
  · exact (hone _ _).trans (List.append_nil _).symm
  · cases statement
    case function => exact htwo _ _ _ _
    all_goals rfl
  · cases e
    case lambda => exact htwo _ _ _ _
    case reference name =>
      have hown : Occurrence.faults policy ⟨s, .expr (.reference name)⟩ =
          ((Mention.reference s name).fault? policy).toList := rfl
      rw [hown, own, List.filterMap_cons]
      cases (Mention.reference s name).fault? policy <;> rfl
    all_goals rfl
  · cases t
    case function => exact (hone _ _).trans (hend _)
    all_goals rfl

/-- Only a block has names of its own, and it has no parameters. -/
theorem exists_block_of_localNames {node : Node} {x : Identifier}
    (h : IsFirstRepeat node.localNames x) : ∃ bindings body, node = .block bindings body := by
  rcases h with ⟨before, after, hsplit, -, hmem⟩
  cases node with
  | block bindings body => exact ⟨bindings, body, rfl⟩
  | _ =>
      have hnil : [] = before ++ x :: after := hsplit
      simp at hnil

/-- What is found first at a node is a fault of the node. -/
theorem head?_faults_eq_some_iff {policy : UnresolvedPolicy} {o : Occurrence} {f : Fault} :
    (o.faults policy).head? = some f ↔ o.HasFault policy f := by
  rw [faults, List.head?_append, List.head?_append, List.head?_append, Option.head?_toList,
    Option.head?_toList, Option.head?_toList, Option.head?_toList, Option.or_eq_some_iff,
    Option.or_eq_some_iff, Option.or_eq_some_iff, Option.or_eq_none_iff,
    Option.or_eq_none_iff, Option.or_eq_none_iff, duplicate?_eq_none_iff, duplicate?_eq_none_iff,
    duplicate?_eq_none_iff, duplicate?_eq_some_iff, duplicate?_eq_some_iff,
    duplicate?_eq_some_iff, unresolved?_eq_some_iff]
  constructor
  · rintro (((⟨x, hx, rfl⟩ | ⟨hparameters, x, hx, rfl⟩) | ⟨-, x, hx, rfl⟩) |
      ⟨-, x, hreference, hpolicy, hx, rfl⟩)
    · exact .parameter hx
    · exact .typeParameter hparameters hx
    · exact .blockLocal hx
    · exact .unresolved hreference hpolicy hx
  · intro h
    cases h with
    | parameter hx => exact .inl (.inl (.inl ⟨_, hx, rfl⟩))
    | typeParameter hparameters hx => exact .inl (.inl (.inr ⟨hparameters, _, hx, rfl⟩))
    | blockLocal hx =>
        rcases exists_block_of_localNames hx with ⟨bindings, body, hnode⟩
        refine .inl (.inr ⟨⟨?_, ?_⟩, _, hx, rfl⟩)
        · rw [hnode]
          exact List.nodup_nil
        · rw [hnode]
          exact List.nodup_nil
    | unresolved hreference hpolicy hx =>
        refine .inr ⟨⟨⟨?_, ?_⟩, ?_⟩, _, hreference, hpolicy, hx, rfl⟩
        all_goals
          rw [hreference]
          exact List.nodup_nil

/-- A node at which nothing is found has no fault. -/
theorem head?_faults_eq_none_iff {policy : UnresolvedPolicy} {o : Occurrence} :
    (o.faults policy).head? = none ↔ ∀ f, ¬ o.HasFault policy f := by
  rw [Option.eq_none_iff_forall_ne_some]
  exact forall_congr' fun f => not_congr head?_faults_eq_some_iff

/-- A node has no fault if its names differ and it resolves, should it have to. -/
theorem forall_not_hasFault_iff {policy : UnresolvedPolicy} {o : Occurrence} :
    (∀ f, ¬ o.HasFault policy f) ↔
      o.node.parameterNames.Nodup ∧ o.node.typeParameterNames.Nodup ∧
        o.node.localNames.Nodup ∧
        (policy = .reject → ∀ x, o.node = .expr (.reference x) → x ∈ o.scope.names) := by
  have hunresolved : o.unresolved? policy = none ↔
      (policy = .reject → ∀ x, o.node = .expr (.reference x) → x ∈ o.scope.names) := by
    rw [Option.eq_none_iff_forall_ne_some]
    constructor
    · intro h hpolicy x hx
      by_contra hmem
      exact h _ (unresolved?_eq_some_iff.mpr ⟨x, hx, hpolicy, hmem, rfl⟩)
    · intro h f hf
      rcases unresolved?_eq_some_iff.mp hf with ⟨x, hx, hpolicy, hmem, -⟩
      exact hmem (h hpolicy x hx)
  rw [← head?_faults_eq_none_iff, List.head?_eq_none_iff, faults, List.append_eq_nil_iff,
    List.append_eq_nil_iff, List.append_eq_nil_iff, Option.toList_eq_nil_iff,
    Option.toList_eq_nil_iff, Option.toList_eq_nil_iff, Option.toList_eq_nil_iff,
    duplicate?_eq_none_iff, duplicate?_eq_none_iff, duplicate?_eq_none_iff, hunresolved]
  tauto

end Occurrence

/-! ## Faults of a module -/

/-- The definitions of a module are declared apart if its types and its values are. -/
theorem nodup_map_declared_iff (ds : List Definition) :
    (ds.map Definition.declared).Nodup ↔
      (ds.filterMap Definition.typeName?).Nodup ∧ (ds.filterMap Definition.valueName?).Nodup := by
  have htype : ∀ (ds : List Definition) (x : Identifier),
      ⟨.rootTypeAlias, x⟩ ∈ ds.map Definition.declared ↔
        x ∈ ds.filterMap Definition.typeName? := by
    intro ds x
    rw [List.mem_map, List.mem_filterMap]
    refine exists_congr fun d => and_congr Iff.rfl ?_
    cases d <;> simp [Definition.declared, Definition.typeName?]
  have hvalue : ∀ (ds : List Definition) (x : Identifier),
      ⟨.rootVariable, x⟩ ∈ ds.map Definition.declared ↔
        x ∈ ds.filterMap Definition.valueName? := by
    intro ds x
    rw [List.mem_map, List.mem_filterMap]
    refine exists_congr fun d => and_congr Iff.rfl ?_
    cases d <;> simp [Definition.declared, Definition.valueName?]
  induction ds with
  | nil => simp
  | cons d ds ih =>
      rw [List.map_cons, List.nodup_cons]
      refine (and_congr_right' ih).trans ?_
      cases d with
      | typeAlias a =>
          rw [List.filterMap_cons_none (f := Definition.valueName?) rfl]
          change Declared.mk .rootTypeAlias a.name ∉ _ ∧ _ ↔
            (a.name :: ds.filterMap Definition.typeName?).Nodup ∧ _
          rw [htype, List.nodup_cons, and_assoc]
      | function f =>
          rw [List.filterMap_cons_none (f := Definition.typeName?) rfl]
          change Declared.mk .rootVariable f.name ∉ _ ∧ _ ↔
            _ ∧ (f.name :: ds.filterMap Definition.valueName?).Nodup
          rw [hvalue, List.nodup_cons, and_left_comm]
      | binding b =>
          rw [List.filterMap_cons_none (f := Definition.typeName?) rfl]
          change Declared.mk .rootVariable b.name ∉ _ ∧ _ ↔
            _ ∧ (b.name :: ds.filterMap Definition.valueName?).Nodup
          rw [hvalue, List.nodup_cons, and_left_comm]

namespace Module

/-- The repeats among the definitions and the faults of the occurrences are all that
the census can find. -/
theorem filterMap_fault?_mentions (policy : UnresolvedPolicy) (m : Module) :
    m.mentions.filterMap (Mention.fault? policy) =
      ((firstRepeat? [] (m.definitions.map Definition.declared)).map .duplicateName).toList
        ++ m.occurrences.flatMap (Occurrence.faults policy) := by
  rw [Module.filterMap_mentions _ (fun _ => rfl)]
  have hdefinitions : ∀ declared, [Mention.distinct declared].filterMap (Mention.fault? policy) =
      ((firstRepeat? [] declared).map Fault.duplicateName).toList := by
    intro declared
    rw [List.filterMap_cons, Mention.fault?]
    cases firstRepeat? [] declared <;> rfl
  rw [hdefinitions, List.flatMap_congr fun o _ => o.filterMap_fault?_own policy]

/-- The census fails with the first fault. -/
theorem census_eq_error_iff_firstFault {policy : UnresolvedPolicy} {m : Module} {f : Fault} :
    m.census policy = .error f ↔ m.FirstFault policy f := by
  rw [census_eq_error_iff, filterMap_fault?_mentions, List.head?_append, Option.head?_toList,
    Option.or_eq_some_iff, Option.map_eq_some_iff, Option.map_eq_none_iff,
    firstRepeat?_eq_none_iff, List.head?_flatMap, List.findSome?_eq_some_iff]
  constructor
  · rintro (⟨d, hd, rfl⟩ | ⟨hdefinitions, before, o, after, hsplit, ho, hbefore⟩)
    · exact .definitions (firstRepeat?_eq_some_iff.mp hd)
    · refine .occurrence hdefinitions hsplit ?_ (Occurrence.head?_faults_eq_some_iff.mp ho)
      intro q hq
      exact Occurrence.head?_faults_eq_none_iff.mp (hbefore q hq)
  · intro h
    cases h with
    | definitions hd => exact .inl ⟨_, firstRepeat?_eq_some_iff.mpr hd, rfl⟩
    | occurrence hdefinitions hsplit hbefore ho =>
        refine .inr ⟨hdefinitions, _, _, _, hsplit,
          Occurrence.head?_faults_eq_some_iff.mpr ho, ?_⟩
        intro q hq
        exact Occurrence.head?_faults_eq_none_iff.mpr (hbefore q hq)

/-- The census succeeds without faults. -/
theorem census_ok_iff_of_policy {policy : UnresolvedPolicy} {m : Module} :
    (∃ c, m.census policy = .ok c) ↔ m.WellFormed ∧ (policy = .reject → m.Closed) := by
  have hok : (∃ c, m.census policy = .ok c) ↔
      m.mentions.filterMap (Mention.fault? policy) = [] := by
    constructor
    · rintro ⟨c, hc⟩
      exact (census_eq_ok_iff.mp hc).1
    · intro h
      exact ⟨_, census_eq_ok_iff.mpr ⟨h, rfl⟩⟩
  have hoccurrences : m.occurrences.flatMap (Occurrence.faults policy) = [] ↔
      ∀ o ∈ m.occurrences, ∀ f, ¬ o.HasFault policy f := by
    rw [List.flatMap_eq_nil_iff]
    refine forall₂_congr fun o _ => ?_
    rw [← Occurrence.head?_faults_eq_none_iff, List.head?_eq_none_iff]
  rw [hok, filterMap_fault?_mentions, List.append_eq_nil_iff, Option.toList_eq_nil_iff,
    Option.map_eq_none_iff, firstRepeat?_eq_none_iff, nodup_map_declared_iff, hoccurrences]
  simp only [Occurrence.forall_not_hasFault_iff]
  constructor
  · rintro ⟨⟨htypes, hvalues⟩, h⟩
    refine ⟨⟨htypes, hvalues, fun o ho => (h o ho).1, fun o ho => (h o ho).2.1,
      fun o ho => (h o ho).2.2.1⟩, ?_⟩
    intro hpolicy o ho x hx
    exact (h o ho).2.2.2 hpolicy x hx
  · rintro ⟨hwell, hclosed⟩
    refine ⟨⟨hwell.typeNames, hwell.valueNames⟩, ?_⟩
    intro o ho
    exact ⟨hwell.parameters o ho, hwell.typeParameters o ho, hwell.locals o ho,
      fun hpolicy x hx => hclosed hpolicy o ho x hx⟩

/-- The census accepts the well-formed modules, closed ones if references must
resolve; of any other module it reports the first fault in document order. -/
theorem census_accepts_iff_and_reports_first (m : Module) :
    ((∃ c, m.census .reject = .ok c) ↔ m.WellFormed ∧ m.Closed) ∧
      ((∃ c, m.census .tolerate = .ok c) ↔ m.WellFormed) ∧
      ∀ policy f, m.census policy = .error f ↔ m.FirstFault policy f := by
  refine ⟨?_, ?_, ?_⟩
  · rw [census_ok_iff_of_policy]
    simp
  · rw [census_ok_iff_of_policy]
    simp
  · intro policy f
    exact census_eq_error_iff_firstFault

end Module

end EcmaWriter
