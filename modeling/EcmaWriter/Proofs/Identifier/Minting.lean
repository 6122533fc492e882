import EcmaWriter.Identifier.Candidate
import Mathlib.Data.List.Nodup
import Mathlib.Data.List.Perm.Subperm

/-!
# EcmaWriter - Minted names are free

Different positions have different names, so of more positions than there are
reserved words and names in use one has a free name.  Minting looks at that many
positions, and so a minted name is free whenever any name is.

Main results:

- Theorem `candidateText_injective`: different positions have different names.
- Theorem `Candidate.mintMany_not_mem`: minted names are not in use.
- Theorem `Candidate.map_fst_mintMany`: minted names are the first free ones.
- Theorem `Candidate.mem_mintMany_iff`: which names are minted.
-/

namespace EcmaWriter

/-! ## Positions and names -/

theorem candidateChar_injOn {a b : Nat} (ha : a < 62) (hb : b < 62)
    (h : candidateChar a = candidateChar b) : a = b := by
  have hnodup : ((List.range 62).map candidateChar).Nodup := by decide
  exact List.inj_on_of_nodup_map hnodup (List.mem_range.mpr ha) (List.mem_range.mpr hb) h

theorem candidateText_ne_nil (n : Nat) : candidateText n ≠ [] := by
  by_cases h : n < 52
  · rw [candidateText_of_lt h]
    exact List.cons_ne_nil _ _
  · rw [candidateText_of_ge (by omega)]
    exact List.concat_ne_nil _ _

/-- Different positions have different names. -/
theorem candidateText_injective : Function.Injective candidateText := by
  intro a
  induction a using Nat.strongRecOn with
  | ind a ih =>
      intro b h
      by_cases ha : a < 52
      · rw [candidateText_of_lt ha] at h
        by_cases hb : b < 52
        · rw [candidateText_of_lt hb] at h
          exact candidateChar_injOn (by omega) (by omega) (List.singleton_inj.mp h)
        · rw [candidateText_of_ge (by omega)] at h
          have hlength := congrArg List.length h
          have hpos := List.length_pos_of_ne_nil (candidateText_ne_nil ((b - 52) / 62))
          rw [List.length_singleton, List.length_append, List.length_singleton] at hlength
          omega
      · rw [candidateText_of_ge (by omega)] at h
        by_cases hb : b < 52
        · rw [candidateText_of_lt hb] at h
          have hlength := congrArg List.length h
          have hpos := List.length_pos_of_ne_nil (candidateText_ne_nil ((a - 52) / 62))
          rw [List.length_singleton, List.length_append, List.length_singleton] at hlength
          omega
        · rw [candidateText_of_ge (by omega : 52 ≤ b)] at h
          rcases List.append_inj' h rfl with ⟨hinit, hlast⟩
          have hdiv := ih ((a - 52) / 62) (by omega) hinit
          have hmod := candidateChar_injOn (Nat.mod_lt _ (by omega)) (Nat.mod_lt _ (by omega))
            (List.singleton_inj.mp hlast)
          omega

/-- The name at a position has the shape of an identifier. -/
theorem hasIdentifierShape_candidateText (n : Nat) :
    hasIdentifierShape (candidateText n) = true := by
  have hstart : ∀ i < 52, isIdentifierStart (candidateChar i) = true := by decide
  have hpart : ∀ i < 62, isIdentifierPart (candidateChar i) = true := by decide
  induction n using Nat.strongRecOn with
  | ind n ih =>
      by_cases h : n < 52
      · rw [candidateText_of_lt h, hasIdentifierShape, hstart n h]
        rfl
      · rw [candidateText_of_ge (by omega)]
        have hinit := ih ((n - 52) / 62) (by omega)
        have hlast := hpart ((n - 52) % 62) (Nat.mod_lt _ (by omega))
        cases htext : candidateText ((n - 52) / 62) with
        | nil => exact absurd htext (candidateText_ne_nil _)
        | cons c cs =>
            rw [htext, hasIdentifierShape, Bool.and_eq_true] at hinit
            simp [hasIdentifierShape, hinit, hlast]

namespace Candidate

theorem text_injective : Function.Injective text := by
  intro a b h
  rw [text_eq, text_eq] at h
  have hchars := String.ofList_injective h
  have hposition := candidateText_injective hchars
  rcases a with ⟨a⟩
  rcases b with ⟨b⟩
  exact congrArg mk (UInt64.toNat_inj.mp hposition)

/-! ## Going on from a position -/

/-- The position `n` steps further on. -/
def advance (c : Candidate) (n : Nat) : Candidate :=
  ⟨c.position + UInt64.ofNat n⟩

@[simp] theorem advance_zero (c : Candidate) : c.advance 0 = c := by
  simp [advance]

theorem advance_next (c : Candidate) (n : Nat) : c.next.advance n = c.advance (n + 1) := by
  rw [advance, advance, next, UInt64.add_assoc, UInt64.ofNat_add, UInt64.add_comm 1]
  rfl

theorem advance_next_advance (c : Candidate) (k n : Nat) :
    (c.advance k).next.advance n = c.advance (k + (n + 1)) := by
  rw [advance_next, advance, advance, advance, UInt64.add_assoc, ← UInt64.ofNat_add]

/-- Positions less than a full turn apart differ. -/
theorem advance_injOn (c : Candidate) {i j : Nat} (hi : i < UInt64.size) (hj : j < UInt64.size)
    (h : c.advance i = c.advance j) : i = j := by
  have hposition : c.position + UInt64.ofNat i = c.position + UInt64.ofNat j :=
    congrArg position h
  have hsteps := (UInt64.add_right_inj c.position).mp hposition
  have htoNat := congrArg UInt64.toNat hsteps
  rwa [UInt64.toNat_ofNat_of_lt' hi, UInt64.toNat_ofNat_of_lt' hj] at htoNat

/-- A full turn meets every position. -/
theorem exists_advance_eq (c k : Candidate) : ∃ n < UInt64.size, c.advance n = k := by
  refine ⟨(k.position - c.position).toNat, UInt64.toNat_lt _, ?_⟩
  rw [advance, UInt64.ofNat_toNat, UInt64.add_comm, UInt64.sub_add_cancel]

/-! ## Minting -/

/-- The texts that a candidate must not have. -/
def taken (inUse : List Identifier) : List String :=
  reservedWords ++ inUse.map Identifier.text

theorem length_taken (inUse : List Identifier) :
    (taken inUse).length = reservedWords.length + inUse.length := by
  rw [taken, List.length_append, List.length_map]

theorem isFree_iff {inUse : List Identifier} {c : Candidate} :
    c.isFree inUse = true ↔ c.text ∉ taken inUse := by
  simp [isFree, taken, isReservedWord]

/-- The position at which minting stops: nothing before it is free, and it is itself
free unless all tries were in vain. -/
theorem exists_mintWithin_eq (inUse : List Identifier) (tries : Nat) (c : Candidate) :
    ∃ n ≤ tries,
      mintWithin inUse tries c = (Identifier.ofString (c.advance n).text, (c.advance n).next) ∧
        (∀ i < n, (c.advance i).isFree inUse = false) ∧
        (n < tries → (c.advance n).isFree inUse = true) := by
  induction tries generalizing c with
  | zero =>
      refine ⟨0, Nat.le_refl 0, ?_, ?_, ?_⟩
      · rw [mintWithin, advance_zero]
      · intro i hi
        omega
      · intro h
        omega
  | succ tries ih =>
      rw [mintWithin]
      by_cases hfree : c.isFree inUse = true
      · refine ⟨0, Nat.zero_le _, ?_, ?_, ?_⟩
        · rw [if_pos hfree, advance_zero]
        · intro i hi
          omega
        · intro _
          rwa [advance_zero]
      · rcases ih c.next with ⟨n, hn, hmint, hbefore, hat⟩
        refine ⟨n + 1, by omega, ?_, ?_, ?_⟩
        · rw [if_neg hfree, hmint, advance_next]
        · intro i hi
          cases i with
          | zero => rwa [advance_zero, ← Bool.not_eq_true]
          | succ i =>
              rw [← advance_next]
              exact hbefore i (by omega)
        · intro h
          rw [← advance_next]
          exact hat (by omega)

/-- The free positions among the next `n`, as steps from a position on. -/
def freeSteps (inUse : List Identifier) (c : Candidate) (n : Nat) : List Nat :=
  (List.range n).filter fun i => (c.advance i).isFree inUse

theorem mem_freeSteps {inUse : List Identifier} {c : Candidate} {n i : Nat} :
    i ∈ freeSteps inUse c n ↔ i < n ∧ (c.advance i).isFree inUse = true := by
  rw [freeSteps, List.mem_filter, List.mem_range]

/-- Within one turn, no more positions are passed over than there are texts taken. -/
theorem le_length_freeSteps (inUse : List Identifier) (c : Candidate) {n : Nat}
    (hn : n ≤ UInt64.size) : n ≤ (taken inUse).length + (freeSteps inUse c n).length := by
  have hsplit := List.length_eq_length_filter_add
    (l := List.range n) fun i => (c.advance i).isFree inUse
  rw [List.length_range] at hsplit
  have hsub : ((List.range n).filter fun i => !(c.advance i).isFree inUse).map
      (fun i => (c.advance i).text) ⊆ taken inUse := by
    intro text htext
    rcases List.mem_map.mp htext with ⟨i, hi, rfl⟩
    have hi' := (List.mem_filter.mp hi).2
    by_contra hmem
    rw [isFree_iff.mpr hmem] at hi'
    exact Bool.false_ne_true hi'
  have hnodup : (((List.range n).filter fun i => !(c.advance i).isFree inUse).map
      fun i => (c.advance i).text).Nodup := by
    refine List.Nodup.map_on ?_ (List.nodup_range.filter _)
    intro i hi j hj hij
    have hi' := List.mem_range.mp (List.mem_of_mem_filter hi)
    have hj' := List.mem_range.mp (List.mem_of_mem_filter hj)
    exact c.advance_injOn (by omega) (by omega) (text_injective hij)
  have hlength := (hnodup.subperm hsub).length_le
  rw [List.length_map] at hlength
  rw [freeSteps]
  omega

/-- Of more positions than there are texts taken, one is free. -/
theorem exists_isFree_of_lt (inUse : List Identifier) (c : Candidate) {n : Nat}
    (hn : n ≤ UInt64.size) (h : (taken inUse).length < n) :
    ∃ i < n, (c.advance i).isFree inUse = true := by
  have hlength := le_length_freeSteps inUse c hn
  have hpos : 0 < (freeSteps inUse c n).length := by omega
  rcases List.length_pos_iff_exists_mem.mp hpos with ⟨i, hi⟩
  exact ⟨i, mem_freeSteps.mp hi⟩

/-- Whether a search that passes over reserved words and names in use ever ends. It goes
round for ever where these are the names of all positions. -/
def SearchEnds (inUse : List Identifier) (c : Candidate) : Prop :=
  ∃ n, (c.advance n).isFree inUse = true

/-- Whether a search ends does not depend on where it starts. -/
theorem SearchEnds.anywhere {inUse : List Identifier} {c : Candidate} (h : SearchEnds inUse c)
    (k : Candidate) : SearchEnds inUse k := by
  rcases h with ⟨n, hfree⟩
  rcases k.exists_advance_eq (c.advance n) with ⟨m, -, hm⟩
  refine ⟨m, ?_⟩
  rw [hm]
  exact hfree

/-- A search ends unless the names taken are as many as the positions. -/
theorem searchEnds_of_length_lt {inUse : List Identifier} (c : Candidate)
    (h : (taken inUse).length < UInt64.size) : SearchEnds inUse c := by
  obtain ⟨i, -, hi⟩ := exists_isFree_of_lt inUse c (n := (taken inUse).length + 1) h
    (Nat.lt_succ_self _)
  exact ⟨i, hi⟩

/-- Minting stops at the first free name, where a search for one ends. -/
theorem exists_mint_eq {inUse : List Identifier} {c : Candidate} (h : SearchEnds inUse c) :
    ∃ n, mint inUse c = (Identifier.ofString (c.advance n).text, (c.advance n).next) ∧
      (∀ i < n, (c.advance i).isFree inUse = false) ∧ (c.advance n).isFree inUse = true := by
  obtain ⟨n, hn, hmint, hbefore, hat⟩ :=
    exists_mintWithin_eq inUse (reservedWords.length + inUse.length) c
  refine ⟨n, hmint, hbefore, ?_⟩
  by_contra hfree
  have hlast : n = reservedWords.length + inUse.length := by
    by_contra hne
    exact hfree (hat (by omega))
  have hall : ∀ i < n + 1, (c.advance i).isFree inUse = false := by
    intro i hi
    rcases Nat.lt_succ_iff_lt_or_eq.mp hi with hlt | rfl
    · exact hbefore i hlt
    · rwa [← Bool.not_eq_true]
  -- Either the tries go all the way round, or they are more than there are names taken.
  by_cases hturn : n + 1 ≤ UInt64.size
  · have htaken : (taken inUse).length = n := (length_taken inUse).trans hlast.symm
    rcases exists_isFree_of_lt inUse c hturn (by omega) with ⟨i, hi, hi'⟩
    rw [hall i hi] at hi'
    exact Bool.false_ne_true hi'
  · rcases h with ⟨k, hk⟩
    rcases c.exists_advance_eq (c.advance k) with ⟨i, hi, hik⟩
    rw [← hik, hall i (by omega)] at hk
    exact Bool.false_ne_true hk

/-- A free name is a legal name as it stands. -/
theorem isBareName_text_of_isFree {inUse : List Identifier} {c : Candidate}
    (h : c.isFree inUse = true) : isBareName c.text = true := by
  have hfree := isFree_iff.mp h
  rw [taken, List.mem_append, not_or] at hfree
  rw [isBareName, isPropertyName, Bool.and_eq_true]
  refine ⟨?_, ?_⟩
  · rw [text_eq, String.toList_ofList]
    exact hasIdentifierShape_candidateText _
  · simpa [isReservedWord] using hfree.1

theorem text_ofString_of_isFree {inUse : List Identifier} {c : Candidate}
    (h : c.isFree inUse = true) : (Identifier.ofString c.text).text = c.text :=
  Identifier.text_ofString (isBareName_text_of_isFree h)

/-- A free name is not in use. -/
theorem ofString_text_not_mem {inUse : List Identifier} {c : Candidate}
    (h : c.isFree inUse = true) : Identifier.ofString c.text ∉ inUse := by
  have hfree := isFree_iff.mp h
  rw [taken, List.mem_append, not_or] at hfree
  intro hmem
  exact hfree.2 (List.mem_map.mpr ⟨_, hmem, text_ofString_of_isFree h⟩)

/-- Minted names are not in use. -/
theorem mintMany_not_mem {inUse : List Identifier} {c : Candidate} (h : SearchEnds inUse c)
    (n : Nat) : ∀ minted ∈ mintMany inUse n c, minted.1 ∉ inUse := by
  induction n generalizing c with
  | zero => exact List.forall_mem_nil _
  | succ n ih =>
      rw [mintMany, List.forall_mem_cons]
      refine ⟨?_, ih (h.anywhere _)⟩
      rcases exists_mint_eq h with ⟨i, hmint, -, hfree⟩
      rw [hmint]
      exact ofString_text_not_mem hfree

/-! ## Minting many names -/

/-- After the first free position come the free positions after it. -/
theorem freeSteps_eq_cons {inUse : List Identifier} {c : Candidate} {k : Nat} (n : Nat)
    (hbefore : ∀ i < k, (c.advance i).isFree inUse = false)
    (hfree : (c.advance k).isFree inUse = true) :
    freeSteps inUse c (k + (n + 1)) =
      k :: (freeSteps inUse (c.advance k).next n).map fun i => k + (i + 1) := by
  have hnone : (List.range k).filter (fun i => (c.advance i).isFree inUse) = [] := by
    refine List.filter_eq_nil_iff.mpr ?_
    intro i hi
    simp [hbefore i (List.mem_range.mp hi)]
  rw [freeSteps, List.range_add, List.filter_append, hnone, List.nil_append,
    List.range_succ_eq_map, List.map_cons, Nat.add_zero,
    List.filter_cons_of_pos (p := fun i => (c.advance i).isFree inUse) hfree, freeSteps,
    List.map_map, List.filter_map]
  simp only [advance_next_advance]
  rfl

/-- Minted names are the free ones, in their order and without gaps. -/
theorem map_fst_mintMany {inUse : List Identifier} {c : Candidate} {b n : Nat}
    (h : n ≤ (freeSteps inUse c b).length) :
    (mintMany inUse n c).map Prod.fst =
      ((freeSteps inUse c b).take n).map fun i => Identifier.ofString (c.advance i).text := by
  induction n generalizing c b with
  | zero => rfl
  | succ n ih =>
      rcases List.length_pos_iff_exists_mem.mp (Nat.zero_lt_of_lt h) with ⟨i, hi⟩
      rcases mem_freeSteps.mp hi with ⟨hib, hfree⟩
      obtain ⟨k, hmint, hbefore, hk⟩ := exists_mint_eq ⟨i, hfree⟩
      have hki : k ≤ i := by
        by_contra hlt
        rw [hbefore i (by omega)] at hfree
        exact Bool.false_ne_true hfree
      obtain ⟨rest, rfl⟩ := Nat.exists_eq_add_of_lt (Nat.lt_of_le_of_lt hki hib)
      have hcons := freeSteps_eq_cons rest hbefore hk
      have hrest : n ≤ (freeSteps inUse (c.advance k).next rest).length := by
        rw [Nat.add_assoc, hcons, List.length_cons, List.length_map] at h
        omega
      rw [mintMany, List.map_cons, hmint, ih hrest, Nat.add_assoc, hcons, List.take_succ_cons,
        List.map_cons, ← List.map_take, List.map_map]
      simp only [advance_next_advance]
      rfl

/-- Minted names differ if there are enough positions for all of them. -/
theorem nodup_map_fst_mintMany {inUse : List Identifier} (c : Candidate) {n : Nat}
    (h : (taken inUse).length + n ≤ UInt64.size) : ((mintMany inUse n c).map Prod.fst).Nodup := by
  have hlength := le_length_freeSteps inUse c h
  rw [map_fst_mintMany (b := (taken inUse).length + n) (by omega)]
  refine List.Nodup.map_on ?_ ((List.nodup_range.filter _).sublist (List.take_sublist _ _))
  intro i hi j hj hij
  rcases mem_freeSteps.mp (List.mem_of_mem_take hi) with ⟨hi', hfree⟩
  rcases mem_freeSteps.mp (List.mem_of_mem_take hj) with ⟨hj', hfree'⟩
  have htext := congrArg Identifier.text hij
  rw [text_ofString_of_isFree hfree, text_ofString_of_isFree hfree'] at htext
  exact c.advance_injOn (by omega) (by omega) (text_injective htext)

/-! ## Which names are minted -/

/-- The free positions before a free position, the position itself and those after it. -/
theorem freeSteps_eq_append {inUse : List Identifier} {c : Candidate} {b i : Nat} (hi : i < b)
    (hfree : (c.advance i).isFree inUse = true) :
    ∃ after, freeSteps inUse c b = freeSteps inUse c i ++ i :: after := by
  obtain ⟨more, rfl⟩ := Nat.exists_eq_add_of_lt hi
  refine ⟨((List.range more).map fun k => i + (k + 1)).filter fun k =>
    (c.advance k).isFree inUse, ?_⟩
  have hrange : List.range (i + more + 1) =
      List.range i ++ i :: (List.range more).map fun k => i + (k + 1) := by
    rw [Nat.add_assoc, List.range_add, List.range_succ_eq_map]
    simp [Function.comp_def]
  rw [freeSteps, hrange, List.filter_append,
    List.filter_cons_of_pos (p := fun k => (c.advance k).isFree inUse) hfree]
  rfl

/-- Of free positions, the first ones are those with few free positions before them. -/
theorem mem_take_freeSteps {inUse : List Identifier} {c : Candidate} {b n i : Nat} :
    i ∈ (freeSteps inUse c b).take n ↔
      i ∈ freeSteps inUse c b ∧ (freeSteps inUse c i).length < n := by
  by_cases hmem : i ∈ freeSteps inUse c b
  · rcases mem_freeSteps.mp hmem with ⟨hi, hfree⟩
    obtain ⟨after, hsplit⟩ := freeSteps_eq_append hi hfree
    have hnew : i ∉ freeSteps inUse c i := by
      intro h
      exact Nat.lt_irrefl i (mem_freeSteps.mp h).1
    rw [List.mem_take_iff_idxOf_lt hmem, and_iff_right hmem, hsplit,
      List.idxOf_append_of_notMem hnew, List.idxOf_cons_self, Nat.add_zero]
  · constructor
    · intro h
      exact absurd (List.mem_of_mem_take h) hmem
    · rintro ⟨h, -⟩
      exact absurd h hmem

/-- Further on there are no fewer free positions. -/
theorem length_freeSteps_le {inUse : List Identifier} {c : Candidate} {a b : Nat} (h : a ≤ b) :
    (freeSteps inUse c a).length ≤ (freeSteps inUse c b).length := by
  have hsub : (freeSteps inUse c a).Sublist (freeSteps inUse c b) :=
    List.Sublist.filter _ (List.range_sublist.mpr h)
  exact hsub.length_le

/-- Where a search ends, there are as many free positions as one likes, over several turns. -/
theorem exists_le_length_freeSteps {inUse : List Identifier} {c : Candidate}
    (h : SearchEnds inUse c) (n : Nat) : ∃ b, n ≤ (freeSteps inUse c b).length := by
  induction n generalizing c with
  | zero => exact ⟨0, Nat.zero_le _⟩
  | succ n ih =>
      obtain ⟨k, -, hbefore, hfree⟩ := exists_mint_eq h
      obtain ⟨b, hb⟩ := ih (h.anywhere (c.advance k).next)
      refine ⟨k + (b + 1), ?_⟩
      rw [freeSteps_eq_cons b hbefore hfree, List.length_cons, List.length_map]
      exact Nat.succ_le_succ hb

/-- A name is minted if it is not in use and few free names come before it in the supply. -/
theorem mem_mintMany_iff {inUse : List Identifier} (h : SearchEnds inUse .first) {n : Nat}
    {name : Identifier} :
    name ∈ (mintMany inUse n .first).map Prod.fst ↔
      name ∉ inUse ∧ ∃ k : Candidate, k.text = name.text ∧
        (freeSteps inUse .first k.position.toNat).length < n := by
  obtain ⟨b, hb⟩ := exists_le_length_freeSteps h n
  rw [map_fst_mintMany hb, List.mem_map]
  constructor
  · rintro ⟨i, hi, rfl⟩
    rcases mem_take_freeSteps.mp hi with ⟨hmem, hfew⟩
    have hfree := (mem_freeSteps.mp hmem).2
    refine ⟨ofString_text_not_mem hfree, first.advance i, (text_ofString_of_isFree hfree).symm, ?_⟩
    -- After a full turn the same names come again, with more free ones before them.
    have hposition : (first.advance i).position.toNat ≤ i := by
      rw [advance, first, UInt64.zero_add, UInt64.toNat_ofNat']
      exact Nat.mod_le _ _
    exact Nat.lt_of_le_of_lt (length_freeSteps_le hposition) hfew
  · rintro ⟨hnew, k, htext, hfew⟩
    have hadvance : first.advance k.position.toNat = k := by
      rw [advance, UInt64.ofNat_toNat, first, UInt64.zero_add]
    have hfree : (first.advance k.position.toNat).isFree inUse = true := by
      have hbare := name.isBare
      rw [isBareName, Bool.and_eq_true, Bool.not_eq_true', isReservedWord] at hbare
      rw [hadvance, isFree_iff, taken, List.mem_append, not_or, htext]
      refine ⟨by simpa using hbare.2, ?_⟩
      intro hmem
      rcases List.mem_map.mp hmem with ⟨other, hother, hsame⟩
      rw [← Identifier.ofString_text other, hsame, Identifier.ofString_text] at hother
      exact hnew hother
    have hbound : k.position.toNat < b := by
      by_contra hge
      have hle : (freeSteps inUse first b).length ≤
          (freeSteps inUse first k.position.toNat).length :=
        length_freeSteps_le (Nat.le_of_not_lt hge)
      omega
    refine ⟨k.position.toNat, mem_take_freeSteps.mpr ⟨mem_freeSteps.mpr ⟨hbound, hfree⟩, hfew⟩, ?_⟩
    rw [hadvance, htext, Identifier.ofString_text]

end Candidate

end EcmaWriter
