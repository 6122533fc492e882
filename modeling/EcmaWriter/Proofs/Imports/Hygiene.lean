import EcmaWriter.ImportTable
import EcmaWriter.Proofs.Census.Mentions
import EcmaWriter.Proofs.Census.Stock
import EcmaWriter.Proofs.Identifier.Minting

/-!
# EcmaWriter - Import namespaces capture nothing

Every name that a construct binds and every name that a reference is written with is
mentioned, and so are all names that are visible anywhere.  Import namespaces are
minted past the mentioned names, so that none of them is any of these.

Main results:

- Definition `Node.names`: the names that a node binds or is written with.
- Theorem `Module.mentioned_of_mem_occurrences`: all of these are mentioned.
- Theorem `Module.import_names_differ`: no import namespace is one of them.
-/

namespace EcmaWriter

/-! ## Names of nodes -/

/-- The names that a node binds, and those that a built-in value or a type is written
with. Of a namespace only the first segment matters. -/
def Node.names : Node → List Identifier
  | .definition (.typeAlias a) => a.name :: a.typeParameters.map TypeParameter.name
  | .definition (.function f) =>
    f.name :: f.typeParameters.map TypeParameter.name
      ++ f.parameters.map DocumentedParameter.name
  | .definition (.binding b) => [b.name]
  | .block bindings body => bindings ++ blockBindings body
  | .statement (.binding _ name _ _) => [name]
  | .statement (.function _ name typeParameters parameters _ _) =>
    name :: typeParameters.map TypeParameter.name ++ parameters.map Parameter.name
  | .statement (.forCount counter _ _) => [counter]
  | .statement (.forOf element _ _) => [element]
  | .statement (.tryCatch _ parameter _) => [parameter]
  | .expr (.lambda _ typeParameters parameters _ _) =>
    typeParameters.map TypeParameter.name ++ parameters.map Parameter.name
  | .expr (.global name) => [name]
  | .type (.function typeParameters _ _) => typeParameters.map TypeParameter.name
  | .type (.imported _ name _) => [name]
  | .type (.inFile name _) => [name]
  | .type (.global name _) => [name]
  | .type (.namespaced path name _) => path.take 1 ++ [name]
  | _ => []

/-! ## One node -/

section Step

variable {M : List Mention} {name : Identifier}

theorem mem_names_iff {names : List Identifier} :
    Mention.name name ∈ Mention.names names ↔ name ∈ names := by
  simp [Mention.names]

/-- A name of a node is declared by the node or mentioned inside it. -/
theorem Occurrence.mem_mentions_of_mem_names {o : Occurrence} (h : name ∈ o.node.names) :
    name ∈ o.node.declares ∨ Mention.name name ∈ o.mentions := by
  rcases o with ⟨s, node⟩
  rcases node with (a | f | b) | ⟨bindings, body⟩ | statement | e | t
  case statement =>
    cases statement <;>
      simp [Node.names, Node.declares, Statement.declared?, mentions, Statement.mentions,
        Mention.signature, Mention.block, mem_names_iff, -List.mem_map] at h ⊢ <;> tauto
  case expr =>
    cases e <;>
      simp [Node.names, mentions, Expr.mentions, Mention.signature, mem_names_iff,
        -List.mem_map] at h ⊢ <;> tauto
  case type =>
    cases t <;>
      simp [Node.names, mentions, TypeExpr.mentions, mem_names_iff, -List.mem_map] at h ⊢ <;>
      tauto
  all_goals
    simp [Node.names, Node.declares, Definition.typeName?, Definition.valueName?, mentions,
      Definition.mentions, Mention.signature, Mention.block, mem_names_iff, -List.mem_map,
      -List.map_map] at h ⊢
    tauto

/-- What an import namespace could capture at an occurrence is mentioned. -/
structure Occurrence.Mentioned (M : List Mention) (o : Occurrence) : Prop where
  scope : ∀ name ∈ o.scope.names, Mention.name name ∈ M
  declares : ∀ name ∈ o.node.declares, Mention.name name ∈ M
  inside : o.mentions ⊆ M

/-- The invariant of going down a tree. -/
theorem Occurrence.Mentioned.part {o q : Occurrence} (h : o.Mentioned M) (hq : q ∈ o.parts) :
    q.Mentioned M := by
  have hinside : q.mentions ⊆ M := fun x hx => h.inside (Occurrence.mentions_subset hq hx)
  have hsame : q.scope = o.scope ∧ q.node.declares = [] → q.Mentioned M := by
    rintro ⟨hscope, hdeclares⟩
    refine ⟨hscope ▸ h.scope, ?_, hinside⟩
    rw [hdeclares]
    exact List.forall_mem_nil _
  rcases o with ⟨s, node⟩
  cases node with
  | definition d => exact hsame (Definition.of_mem_parts hq)
  | expr e => exact hsame (Expr.of_mem_parts hq)
  | type t => exact hsame (TypeExpr.of_mem_parts hq)
  | block bindings body =>
      rcases List.mem_map.mp hq with ⟨statement, hstatement, rfl⟩
      have hblock : ∀ name ∈ bindings ++ blockBindings body, Mention.name name ∈ M := by
        intro name hname
        refine h.inside (List.mem_append_left _ (List.mem_cons_of_mem _ ?_))
        exact mem_names_iff.mpr hname
      refine ⟨?_, ?_, hinside⟩
      · intro name hname
        rw [Scope.names_push, List.mem_append] at hname
        rcases hname with hname | hname
        · exact hblock name hname
        · exact h.scope name hname
      · intro name hname
        refine hblock name (List.mem_append_right _ (List.mem_filterMap.mpr ?_))
        exact ⟨statement, hstatement, Option.mem_toList.mp hname⟩
  | statement statement =>
      obtain ⟨hscope | ⟨counter, bound, body, rfl, hscope⟩, hdeclares⟩ :=
        Statement.of_mem_parts hq
      · exact hsame ⟨hscope, hdeclares⟩
      · refine ⟨?_, ?_, hinside⟩
        · intro name hname
          rw [hscope, Scope.names_push, List.singleton_append, List.mem_cons] at hname
          rcases hname with rfl | hname
          · exact h.inside (by simp [mentions, Statement.mentions, Mention.block, mem_names_iff])
          · exact h.scope name hname
        · rw [hdeclares]
          exact List.forall_mem_nil _

/-- The names of a node are mentioned. -/
theorem Occurrence.Mentioned.names {o : Occurrence} (h : o.Mentioned M) :
    ∀ name ∈ o.node.names, Mention.name name ∈ M := by
  intro name hname
  rcases Occurrence.mem_mentions_of_mem_names hname with hdeclared | hinside
  · exact h.declares name hdeclared
  · exact h.inside hinside

end Step

/-! ## Modules -/

namespace Module

variable {m : Module}

theorem name_mem_mentions_of_mem {name : Identifier}
    (h : name ∈ m.typeNames ∨ name ∈ m.valueNames) : Mention.name name ∈ m.mentions := by
  simp only [mentions, List.mem_append, List.mem_cons, mem_names_iff]
  tauto

/-- What an import namespace could capture anywhere in a module is mentioned. -/
theorem mentioned_of_mem_occurrences : ∀ o ∈ m.occurrences, o.Mentioned m.mentions := by
  refine occurrences_induction ?_ fun o ho q hq => ho.part hq
  have hscope : ∀ name ∈ m.scope.names, Mention.name name ∈ m.mentions := by
    intro name hname
    exact name_mem_mentions_of_mem (Or.inr hname)
  intro o ho
  rcases List.mem_append.mp ho with ho | ho
  · rcases List.mem_map.mp ho with ⟨d, hd, rfl⟩
    refine ⟨hscope, ?_, ?_⟩
    · intro name hname
      refine name_mem_mentions_of_mem ?_
      rcases List.mem_append.mp hname with hname | hname
      · exact Or.inl (List.mem_filterMap.mpr ⟨d, hd, Option.mem_toList.mp hname⟩)
      · exact Or.inr (List.mem_filterMap.mpr ⟨d, hd, Option.mem_toList.mp hname⟩)
    · intro x hx
      have hdefinitions : x ∈ m.definitions.flatMap (Definition.mentions m.scope) :=
        List.mem_flatMap.mpr ⟨d, hd, hx⟩
      exact List.mem_append_left _ (List.mem_append_right _ hdefinitions)
  · rw [List.mem_singleton.mp ho]
    refine ⟨hscope, List.forall_mem_nil _, ?_⟩
    intro x hx
    exact List.mem_append_right _ hx

/-- The names of a census are the names that are mentioned. -/
theorem mem_census_names {policy : UnresolvedPolicy} {c : Census} {name : Identifier}
    (h : m.census policy = .ok c) : name ∈ c.names.toList ↔ Mention.name name ∈ m.mentions := by
  rcases census_eq_ok_iff.mp h with ⟨-, rfl⟩
  rw [Census.takeAll, OrderedSet.mem_toList_insertAll, List.mem_filterMap]
  constructor
  · rintro (hempty | ⟨x, hx, hname⟩)
    · exact absurd hempty List.not_mem_nil
    · cases x <;> simp [Mention.name?] at hname
      exact hname ▸ hx
  · intro hname
    exact Or.inr ⟨_, hname, rfl⟩

/-- The import namespaces are the minted names, one for each path. -/
theorem map_snd_ofCensus (c : Census) : (ImportTable.ofCensus c).entries.map Prod.snd =
    (Candidate.mintMany c.names.toList c.paths.size .first).map Prod.fst := by
  rw [ImportTable.ofCensus, List.map_snd_zip]
  simp [OrderedSet.size]

/-- No import namespace is a name that the census knows. -/
theorem namespace_not_mem_names {c : Census}
    (hends : Candidate.SearchEnds c.names.toList .first) :
    ∀ entry ∈ (ImportTable.ofCensus c).entries, entry.2 ∉ c.names.toList := by
  intro entry hentry
  rcases List.mem_map.mp (List.of_mem_zip hentry).2 with ⟨minted, hminted, hname⟩
  rw [← hname]
  exact Candidate.mintMany_not_mem hends _ minted hminted

/-- No import namespace is a name of the module, a name that a construct in it binds, a
name that a built-in value or a type is written with, or a name that is visible where
something stands; so it is not a reference that resolves either. The names are there at
all only where the search for them ends. -/
theorem import_names_differ (m : Module) (policy : UnresolvedPolicy) {c : Census}
    (h : m.census policy = .ok c) (hends : Candidate.SearchEnds c.names.toList .first) :
    ∀ entry ∈ (ImportTable.ofCensus c).entries,
      entry.2 ∉ m.typeNames ∧ entry.2 ∉ m.valueNames ∧
        (∀ o ∈ m.occurrences, entry.2 ∉ o.node.names ∧ entry.2 ∉ o.scope.names) ∧
        ∀ o ∈ m.occurrences, ∀ name, o.node = .expr (.reference name) →
          name ∈ o.scope.names → entry.2 ≠ name := by
  intro entry hentry
  have hnew : Mention.name entry.2 ∉ m.mentions := by
    rw [← mem_census_names h]
    exact namespace_not_mem_names hends entry hentry
  have hoccurrence : ∀ o ∈ m.occurrences, entry.2 ∉ o.node.names ∧ entry.2 ∉ o.scope.names := by
    intro o ho
    have hmentioned := mentioned_of_mem_occurrences o ho
    exact ⟨fun hname => hnew (hmentioned.names _ hname),
      fun hname => hnew (hmentioned.scope _ hname)⟩
  refine ⟨?_, ?_, hoccurrence, ?_⟩
  · intro hname
    exact hnew (name_mem_mentions_of_mem (Or.inl hname))
  · intro hname
    exact hnew (name_mem_mentions_of_mem (Or.inr hname))
  · intro o ho name _ hname hsame
    exact (hoccurrence o ho).2 (hsame ▸ hname)

/-- A variable named like the first candidate is not captured. -/
theorem import_names_differ_from_variable :
    ∃ c, (⟨[.binding ⟨false, .ofString "a", "", none, .imported "m.js" "x"⟩], []⟩ :
        Module).census .reject = .ok c ∧
      Candidate.SearchEnds c.names.toList .first ∧
      (ImportTable.ofCensus c).entries.length = 1 ∧
      ∀ entry ∈ (ImportTable.ofCensus c).entries, entry.2 ∉ [Identifier.ofString "a"] :=
  ⟨_, rfl, Candidate.searchEnds_of_length_lt _ (by decide), rfl, fun entry hentry =>
    (import_names_differ ⟨[.binding ⟨false, .ofString "a", "", none, .imported "m.js" "x"⟩], []⟩
      .reject rfl (Candidate.searchEnds_of_length_lt _ (by decide)) entry hentry).2.1⟩

end Module

end EcmaWriter
