import EcmaWriter.ImportTable
import EcmaWriter.Proofs.Census.Acceptance
import EcmaWriter.Proofs.Imports.Hygiene

/-!
# EcmaWriter - Names that are declared together

A program is malformed if a name is declared twice in one declaration scope.  At the top
of a file these are the import namespaces and the values of the module; further down they
are the declarations of a block.  The parameters of a function share a scope with the
declarations in its body, and so does the parameter of a handler with those in the
handler.  A loop variable does not: its body may declare the name again.

The census looks at each of these lists by itself.  What it does not see is a name that
is in the head of a construct and declared in its body.

Main results:

- Definition `Module.DeclaresOnce`: no name is declared twice in a scope.
- Theorem `Module.declaresOnce_iff`: an accepted module declares its names once, unless
  a body repeats a parameter.
-/

namespace EcmaWriter

namespace Node

/-- The names in the head of a node that share a scope with the declarations in its
body. -/
def headNames : Node → List Identifier
  | .statement (.tryCatch _ parameter _) => [parameter]
  | node => node.parameterNames

/-- The names declared directly in the body of a node. -/
def bodyNames : Node → List Identifier
  | .definition (.function f) => blockBindings f.body
  | .block _ body => blockBindings body
  | .statement (.function _ _ _ _ _ body) => blockBindings body
  | .statement (.tryCatch _ _ handler) => blockBindings handler
  | .expr (.lambda _ _ _ _ body) => blockBindings body
  | _ => []

theorem headNames_eq (node : Node) :
    node.headNames = node.parameterNames ∨ ∃ parameter, node.headNames = [parameter] := by
  cases node with
  | statement statement =>
      cases statement with
      | tryCatch body parameter handler => exact Or.inr ⟨parameter, rfl⟩
      | _ => exact Or.inl rfl
  | _ => exact Or.inl rfl

end Node

namespace Module

/-- No name is declared twice in one declaration scope. -/
structure DeclaresOnce (m : Module) (table : ImportTable) : Prop where
  root : (table.entries.map Prod.snd ++ m.valueNames).Nodup
  inside : ∀ o ∈ m.occurrences, (o.node.headNames ++ o.node.bodyNames).Nodup

end Module

/-! ## One node -/

/-- The names in a body are the names of a block among the parts, if it is not a block
itself. -/
theorem Occurrence.exists_block_of_bodyNames (o : Occurrence) :
    o.node.bodyNames = o.node.localNames ∨
      ∃ q ∈ o.parts, q.node.localNames = o.node.bodyNames := by
  rcases o with ⟨s, node⟩
  rcases node with (a | f | b) | ⟨bindings, body⟩ | statement | e | t
  case definition.function =>
    exact Or.inr ⟨_, List.mem_append_right _ List.mem_cons_self, rfl⟩
  case statement =>
    cases statement
    case function => exact Or.inr ⟨_, List.mem_append_right _ List.mem_cons_self, rfl⟩
    case tryCatch => exact Or.inr ⟨_, List.mem_cons_of_mem _ List.mem_cons_self, rfl⟩
    all_goals exact Or.inl rfl
  case expr =>
    cases e
    case lambda => exact Or.inr ⟨_, List.mem_append_right _ List.mem_cons_self, rfl⟩
    all_goals exact Or.inl rfl
  all_goals exact Or.inl rfl

namespace Module

variable {m : Module}

theorem WellFormed.nodup_headNames (h : m.WellFormed) {o : Occurrence}
    (ho : o ∈ m.occurrences) : o.node.headNames.Nodup := by
  rcases o.node.headNames_eq with hsame | ⟨parameter, hone⟩
  · exact hsame ▸ h.parameters o ho
  · exact hone ▸ List.nodup_singleton parameter

theorem WellFormed.nodup_bodyNames (h : m.WellFormed) {o : Occurrence}
    (ho : o ∈ m.occurrences) : o.node.bodyNames.Nodup := by
  rcases o.exists_block_of_bodyNames with hsame | ⟨q, hq, hnames⟩
  · exact hsame ▸ h.locals o ho
  · exact hnames ▸ h.locals q (mem_occurrences_of_mem_parts ho hq)

/-- The import namespaces and the values of an accepted module differ, if there are
positions enough for that many namespaces. -/
theorem nodup_root_names {policy : UnresolvedPolicy} {c : Census} (h : m.census policy = .ok c)
    (hpositions : (Candidate.taken c.names.toList).length + c.paths.size ≤ UInt64.size) :
    ((ImportTable.ofCensus c).entries.map Prod.snd ++ m.valueNames).Nodup := by
  have hwell := (census_ok_iff_of_policy.mp ⟨c, h⟩).1
  refine List.Nodup.append ?_ hwell.valueNames ?_
  · rw [map_snd_ofCensus]
    exact Candidate.nodup_map_fst_mintMany _ hpositions
  · intro name hname hvalue
    rcases List.mem_map.mp hname with ⟨entry, hentry, rfl⟩
    have hsize : 0 < c.paths.size := by
      have hlength := List.length_pos_of_mem hname
      rwa [map_snd_ofCensus, List.length_map, Candidate.length_mintMany] at hlength
    refine namespace_not_mem_names (Candidate.searchEnds_of_length_lt _ (by omega)) entry
      hentry ?_
    exact (mem_census_names h).mpr (name_mem_mentions_of_mem (Or.inr hvalue))

/-- An accepted module has different names at its top, in the head of each construct and
in each body.  It declares all its names once unless a body declares a name that is in
the head: a parameter of the function or the parameter of the handler. -/
theorem declaresOnce_iff (m : Module) (policy : UnresolvedPolicy) {c : Census}
    (h : m.census policy = .ok c)
    (hpositions : (Candidate.taken c.names.toList).length + c.paths.size ≤ UInt64.size) :
    ((ImportTable.ofCensus c).entries.map Prod.snd ++ m.valueNames).Nodup ∧
      (∀ o ∈ m.occurrences, o.node.headNames.Nodup ∧ o.node.bodyNames.Nodup) ∧
      (m.DeclaresOnce (.ofCensus c) ↔
        ∀ o ∈ m.occurrences, o.node.headNames.Disjoint o.node.bodyNames) := by
  have hwell := (census_ok_iff_of_policy.mp ⟨c, h⟩).1
  have hroot := nodup_root_names h hpositions
  refine ⟨hroot, ?_, ?_⟩
  · intro o ho
    exact ⟨hwell.nodup_headNames ho, hwell.nodup_bodyNames ho⟩
  · constructor
    · intro honce o ho
      exact List.disjoint_of_nodup_append (honce.inside o ho)
    · intro hdisjoint
      refine ⟨hroot, ?_⟩
      intro o ho
      exact (hwell.nodup_headNames ho).append (hwell.nodup_bodyNames ho) (hdisjoint o ho)

/-- A lambda whose body declares a name of its own. -/
theorem declaresOnce_iff_lambda :
    let m : Module := ⟨[], [.evaluate (.lambda false [] [⟨.ofString "a", none⟩] none
      [.binding true (.ofString "b") none (.imported "m.js" "x")])]⟩
    ∃ c, m.census .reject = .ok c ∧
      (Candidate.taken c.names.toList).length + c.paths.size ≤ UInt64.size ∧
      ((ImportTable.ofCensus c).entries.map Prod.snd ++ m.valueNames).Nodup :=
  ⟨_, rfl, by decide, (declaresOnce_iff _ .reject rfl (by decide)).1⟩

/-- The census accepts a function whose body declares its parameter, and a handler that
declares its own. -/
theorem exists_accepted_not_declaresOnce :
    let f : FunctionDefinition :=
      ⟨false, false, .ofString "f", "", [], [⟨.ofString "a", "", .number⟩], .void,
        [.binding true (.ofString "a") none (.number 1)]⟩
    let s : Statement :=
      .tryCatch [] (.ofString "e") [.binding true (.ofString "e") none (.number 1)]
    (∃ c, (⟨[.function f], []⟩ : Module).census .reject = .ok c ∧
        ¬ (⟨[.function f], []⟩ : Module).DeclaresOnce (.ofCensus c)) ∧
      ∃ c, (⟨[], [s]⟩ : Module).census .reject = .ok c ∧
        ¬ (⟨[], [s]⟩ : Module).DeclaresOnce (.ofCensus c) := by
  intro f s
  have hrepeat : ∀ n : Identifier, ¬ [n, n].Nodup := by simp
  refine ⟨⟨_, rfl, ?_⟩, _, rfl, ?_⟩
  · intro honce
    exact hrepeat _ (honce.inside _ (mem_occurrences_of_mem List.mem_cons_self))
  · intro honce
    have hblock : ⟨.root [], .block [] [s]⟩ ∈ (⟨[], [s]⟩ : Module).occurrences :=
      mem_occurrences_of_mem List.mem_cons_self
    exact hrepeat _ (honce.inside _ (mem_occurrences_of_mem_parts hblock List.mem_cons_self))

end Module

end EcmaWriter
