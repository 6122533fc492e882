import EcmaWriter.Proofs.Imports.Hygiene

/-!
# EcmaWriter - Import namespaces and tolerated references

A reference to a name that nothing binds is written as it stands where such references are
tolerated.  The census takes no note of its name, so an import namespace may be given the
name, and then captures the reference.  This happens to the names that come early in the
supply of names and are not mentioned in another way.

Main results:

- Definition `Module.Tolerated`: the names of references that nothing binds.
- Theorem `Candidate.exists_mintMany_iff`: which names are minted.
- Theorem `Module.captures_tolerated_iff`: which tolerated references are captured.
-/

namespace EcmaWriter

/-- A name is minted if it is not in use and few free names come before it in the supply,
where the positions are enough for all minted names. -/
theorem Candidate.exists_mintMany_iff {inUse : List Identifier} {n : Nat} {name : Identifier}
    (h : (taken inUse).length + n ≤ UInt64.size) :
    name ∈ (mintMany inUse n .first).map Prod.fst ↔
      name ∉ inUse ∧ ∃ k : Candidate, k.text = name.text ∧
        (freeSteps inUse .first k.position.toNat).length < n := by
  cases n with
  | zero =>
      refine iff_of_false List.not_mem_nil ?_
      rintro ⟨-, k, -, hfew⟩
      exact absurd hfew (Nat.not_lt_zero _)
  | succ n => exact mem_mintMany_iff (searchEnds_of_length_lt _ (by omega))

/-! ## Modules -/

namespace Module

/-- Whether some reference has a name that nothing around it binds. -/
def Tolerated (m : Module) (name : Identifier) : Prop :=
  ∃ o ∈ m.occurrences, o.node = .expr (.reference name) ∧ name ∉ o.scope.names

/-- An import namespace captures a tolerated reference exactly if the name of the reference
is mentioned in no other way and comes so early in the supply that fewer free names than
there are imports come before it. -/
theorem captures_tolerated_iff (m : Module) {c : Census} (h : m.census .tolerate = .ok c)
    (hpositions : (Candidate.taken c.names.toList).length + c.paths.size ≤ UInt64.size) :
    (∃ entry ∈ (ImportTable.ofCensus c).entries, m.Tolerated entry.2) ↔
      ∃ name, m.Tolerated name ∧ Mention.name name ∉ m.mentions ∧
        ∃ k : Candidate, k.text = name.text ∧
          (Candidate.freeSteps c.names.toList .first k.position.toNat).length < c.paths.size := by
  have hminted : ∀ name, (∃ entry ∈ (ImportTable.ofCensus c).entries, entry.2 = name) ↔
      Mention.name name ∉ m.mentions ∧ ∃ k : Candidate, k.text = name.text ∧
        (Candidate.freeSteps c.names.toList .first k.position.toNat).length < c.paths.size := by
    intro name
    rw [← List.mem_map, map_snd_ofCensus, Candidate.exists_mintMany_iff hpositions,
      mem_census_names h]
  constructor
  · rintro ⟨entry, hentry, htolerated⟩
    exact ⟨entry.2, htolerated, (hminted entry.2).mp ⟨entry, hentry, rfl⟩⟩
  · rintro ⟨name, htolerated, hearly⟩
    obtain ⟨entry, hentry, rfl⟩ := (hminted name).mpr hearly
    exact ⟨entry, hentry, htolerated⟩

/-- A reference to the first name that is free, where the one before it is in use. -/
theorem captures_tolerated_iff_second_name :
    let m : Module := ⟨[.binding ⟨false, .ofString "a", "", none, .imported "m.js" "x"⟩],
      [.evaluate (.reference (.ofString "b"))]⟩
    ∃ c, m.census .tolerate = .ok c ∧
      (Candidate.taken c.names.toList).length + c.paths.size ≤ UInt64.size ∧
      ∃ entry ∈ (ImportTable.ofCensus c).entries, m.Tolerated entry.2 := by
  intro m
  have hblock : ⟨m.scope, .block [] m.statements⟩ ∈ m.occurrences :=
    mem_occurrences_of_mem (List.mem_append_right _ List.mem_cons_self)
  have hstatement := mem_occurrences_of_mem_parts hblock List.mem_cons_self
  have hreference := mem_occurrences_of_mem_parts hstatement List.mem_cons_self
  have htolerated : m.Tolerated (.ofString "b") := ⟨_, hreference, rfl, by decide⟩
  have hcensus : m.census .tolerate = .ok _ := rfl
  have hnew : Mention.name (.ofString "b") ∉ m.mentions :=
    (mem_census_names hcensus).not.mp (by decide)
  exact ⟨_, hcensus, by decide, (captures_tolerated_iff m hcensus (by decide)).mpr
    ⟨_, htolerated, hnew, ⟨1⟩, by decide +kernel, by decide +kernel⟩⟩

/-- Where references need not resolve, the census accepts a module whose only import gets
the name of a reference that nothing binds. -/
theorem exists_captured_reference :
    let m : Module := ⟨[], [.evaluate (.reference (.ofString "a")), .evaluate (.imported "m" "x")]⟩
    ∃ c, m.census .tolerate = .ok c ∧
      ∃ entry ∈ (ImportTable.ofCensus c).entries, m.Tolerated entry.2 := by
  intro m
  have hblock : ⟨m.scope, .block [] m.statements⟩ ∈ m.occurrences :=
    mem_occurrences_of_mem List.mem_cons_self
  have hstatement := mem_occurrences_of_mem_parts hblock List.mem_cons_self
  have hreference := mem_occurrences_of_mem_parts hstatement List.mem_cons_self
  exact ⟨_, rfl, ("m", .ofString "a"), by decide +kernel, _, hreference, rfl, by decide⟩

end Module

end EcmaWriter
