import EcmaWriter.Proofs.Identifier.Search
import EcmaWriter.Proofs.Imports.Hygiene

/-!
# EcmaWriter - How import namespaces are assigned

One search is made for every path, each from where the one before ended, with the same names
in use.  Nothing compares a new namespace with those before it; they differ because the
searches move forward.  So the namespaces are the first free names of the supply, in order.

Main results:

- Definition `Candidate.calls`: the searches for a number of names.
- Theorem `Candidate.map_stop_calls`: they stop at the first free positions.
- Theorem `ImportTable.ofCensus_takes_first_free`: what the namespaces of a census are.
-/

namespace EcmaWriter

namespace Candidate

/-- Searches for `n` names, the first from `c` on and each of the others from where the one
before ended. -/
def calls (inUse : OrderedSet Identifier) : Nat → Candidate → List Call
  | 0, _ => []
  | n + 1, c => ⟨inUse, c⟩ :: calls inUse n (Call.mk inUse c).next

variable {inUse : OrderedSet Identifier}

theorem mintMany_eq_map_calls (n : Nat) (c : Candidate) :
    mintMany inUse.toList n c = (calls inUse n c).map fun call => (call.name, call.next) := by
  induction n generalizing c with
  | zero => rfl
  | succ n ih =>
      rw [mintMany, calls, List.map_cons]
      exact congrArg _ (ih _)

theorem inUse_of_mem_calls {n : Nat} {c : Candidate} :
    ∀ call ∈ calls inUse n c, call.inUse = inUse := by
  induction n generalizing c with
  | zero => exact List.forall_mem_nil _
  | succ n ih => exact List.forall_mem_cons.mpr ⟨rfl, ih⟩

theorem isChain_calls (n : Nat) (c : Candidate) : (calls inUse n c).IsChain Call.Resumes := by
  induction n generalizing c with
  | zero => exact .nil
  | succ n ih =>
      cases n with
      | zero => exact .singleton _
      | succ n => exact .cons_cons rfl (ih _)

/-- All searches end, and they stop at the free positions from `c` on, one after the other, if
there is room for them after the taken names. -/
theorem map_stop_calls {n : Nat} {c : Candidate}
    (h : (taken inUse.toList).length + Nat.count (FreeAt inUse.toList) c.position.toNat + n <
      UInt64.size) :
    (∀ call ∈ calls inUse n c, call.Ends) ∧
      (calls inUse n c).map (fun call => call.stop.position.toNat) =
        (List.range n).map fun i => Nat.nth (FreeAt inUse.toList)
          (Nat.count (FreeAt inUse.toList) c.position.toNat + i) := by
  induction n generalizing c with
  | zero => exact ⟨List.forall_mem_nil _, rfl⟩
  | succ n ih =>
      have hends : (Call.mk inUse c).Ends := Call.ends_of_lt (by dsimp only; omega)
      have hstop := isFirstFree_iff.mp hends.stops.first
      -- One more free position lies before the next search.
      have hcount : Nat.count (FreeAt inUse.toList) (Call.mk inUse c).next.position.toNat =
          Nat.count (FreeAt inUse.toList) c.position.toNat + 1 := by
        rw [hends.stops.toNat_next, hstop]
        exact Nat.count_nth_succ_of_infinite (infinite_freeAt inUse.toList) _
      obtain ⟨hrest, hstops⟩ := ih (c := (Call.mk inUse c).next) (by omega)
      refine ⟨List.forall_mem_cons.mpr ⟨hends, hrest⟩, ?_⟩
      rw [calls, List.map_cons, hstops, hcount, hstop, firstFree, List.range_succ_eq_map,
        List.map_cons, List.map_map, Nat.add_zero]
      refine congrArg _ (List.map_congr_left fun i _ => ?_)
      rw [Function.comp_apply, Nat.succ_eq_add_one, Nat.add_assoc, Nat.add_comm 1 i]

end Candidate

namespace ImportTable

open Candidate (calls Call FreeAt)

/-- The namespaces are what the searches find. -/
theorem map_snd_ofCensus_eq_map_calls (c : Census) :
    (ofCensus c).entries.map Prod.snd = (calls c.names c.paths.size .first).map Call.name := by
  rw [Module.map_snd_ofCensus, Candidate.mintMany_eq_map_calls, List.map_map]
  rfl

/-- The table has the paths of the census in their order.  If a 64-bit word has room for the
reserved words, the names and the paths, as it has for fewer than 2 to the power of 63 names and
paths, then the namespaces are the names at the first free positions, in their order.  They
differ, they are legal names and none is a name of the census.  The searches for them go on from
one another, and none leaves the 64-bit positions. -/
theorem ofCensus_takes_first_free (c : Census) :
    (ofCensus c).entries.map Prod.fst = c.paths.toList ∧
      (reservedWords.length + c.names.size + c.paths.size < UInt64.size →
        (∃ ks : List Candidate,
          (ofCensus c).entries.map (fun entry => entry.2.text) = ks.map Candidate.text ∧
          ks.map (fun k => k.position.toNat) =
            (List.range c.paths.size).map (Nat.nth (FreeAt c.names.toList)) ∧
          ks.Pairwise (fun a b => a.position < b.position) ∧
          ∀ k ∈ ks, isBareName k.text = true) ∧
        ((ofCensus c).entries.map Prod.snd).Nodup ∧
        (∀ entry ∈ (ofCensus c).entries, entry.2 ∉ c.names.toList) ∧
        (ofCensus c).entries.map Prod.snd = (calls c.names c.paths.size .first).map Call.name ∧
        (calls c.names c.paths.size .first).IsChain Call.Resumes ∧
        ∀ call ∈ calls c.names c.paths.size .first, call.inUse = c.names ∧ call.Ends) := by
  refine ⟨paths_ofCensus c, ?_⟩
  intro hroom
  have htaken : (Candidate.taken c.names.toList).length = reservedWords.length + c.names.size :=
    Candidate.length_taken _
  have hnone : Nat.count (FreeAt c.names.toList) Candidate.first.position.toNat = 0 :=
    Nat.count_zero _
  have hfits : (Candidate.taken c.names.toList).length +
      Nat.count (FreeAt c.names.toList) Candidate.first.position.toNat + c.paths.size <
        UInt64.size := by omega
  obtain ⟨hends, hstops⟩ := Candidate.map_stop_calls hfits
  have hnames := map_snd_ofCensus_eq_map_calls c
  have hrun : (calls c.names c.paths.size .first).IsChain Call.Resumes :=
    Candidate.isChain_calls _ _
  have hforward := Call.pairwise_stop_lt hrun hends
  refine ⟨⟨(calls c.names c.paths.size .first).map Call.stop, ?_, ?_, ?_, ?_⟩, ?_, ?_, hnames,
    hrun, ?_⟩
  · have htexts := congrArg (List.map Identifier.text) hnames
    rw [List.map_map, List.map_map] at htexts
    rw [List.map_map]
    exact htexts.trans (List.map_congr_left fun call hcall => (hends call hcall).stops.text_name)
  · rw [List.map_map]
    rw [hnone] at hstops
    simp only [Nat.zero_add] at hstops
    exact hstops
  · exact List.pairwise_map.mpr hforward
  · intro k hk
    obtain ⟨call, hcall, rfl⟩ := List.mem_map.mp hk
    exact Candidate.isBareName_text_of_isFree (hends call hcall).stops.first.free
  · rw [hnames]
    exact Call.nodup_map_name hforward hends
  · exact Module.namespace_not_mem_names
      (Candidate.searchEnds_of_length_lt _ (by omega))
  · intro call hcall
    exact ⟨Candidate.inUse_of_mem_calls call hcall, hends call hcall⟩

/-- Two paths, where the names of two positions are in use. -/
theorem ofCensus_takes_first_free_two_paths :
    let c : Census := ⟨.ofList [.ofString "a", .ofString "c"], .ofList ["x", "y"]⟩
    reservedWords.length + c.names.size + c.paths.size < UInt64.size ∧
      (ofCensus c).entries.map (fun entry => (entry.1, entry.2.text)) = [("x", "b"), ("y", "d")] ∧
      ((ofCensus c).entries.map Prod.snd).Nodup ∧
      ∃ ks : List Candidate, ks.map Candidate.text = ["b", "d"] ∧
        ks.map (fun k => k.position.toNat) =
          [Nat.nth (FreeAt c.names.toList) 0, Nat.nth (FreeAt c.names.toList) 1] := by
  intro c
  have hroom : reservedWords.length + c.names.size + c.paths.size < UInt64.size := by decide
  obtain ⟨⟨ks, htexts, hpositions, -⟩, hnodup, -⟩ := (ofCensus_takes_first_free c).2 hroom
  refine ⟨hroom, by decide +kernel, hnodup, ks, ?_, hpositions⟩
  rw [← htexts]
  decide +kernel

end ImportTable

end EcmaWriter
