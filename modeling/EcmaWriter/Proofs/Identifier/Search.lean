import EcmaWriter.OrderedSet
import EcmaWriter.Proofs.Identifier.Minting
import Mathlib.Data.Nat.Nth

/-!
# EcmaWriter - The search for a free name

A search goes from position to position until the name there is neither a reserved word nor in
use.  Nothing bounds it.  It ends because different positions have different names, so that
only as many positions can be passed over as there are reserved words and names in use, and it
stays within 64-bit positions if there is room for these.  Minting finds what the search finds.

Positions are natural numbers in the counting argument, with the supply of names going on past
the 64-bit ones: the first free position from `n` on is the free position that has as many free
positions before it as `n` has.

Main results:

- Definition `Candidate.Finds`: the search, step by step.
- Theorem `Candidate.finds_iff`: the search ends with the first free position from its start on.
- Theorem `Candidate.mint_eq_of_isFirstFree`: minting takes the name there.
- Theorem `Candidate.mint_takes_first_free`: when a search ends, and what searches that go on
  from one another find.
-/

namespace EcmaWriter.Candidate

/-! ## Free positions -/

section FreeAt

variable (inUse : List Identifier)

/-- Whether the name at a position is neither a reserved word nor in use. -/
def FreeAt (n : Nat) : Prop :=
  String.ofList (candidateText n) ∉ taken inUse

instance : DecidablePred (FreeAt inUse) :=
  fun n => inferInstanceAs (Decidable (String.ofList (candidateText n) ∉ taken inUse))

variable {inUse}

/-- A candidate is free if its position is. -/
theorem isFree_iff_freeAt {c : Candidate} :
    c.isFree inUse = true ↔ FreeAt inUse c.position.toNat := by
  rw [isFree_iff, text_eq, FreeAt]

/-- Different positions have different texts. -/
theorem ofList_candidateText_injective :
    Function.Injective fun n => String.ofList (candidateText n) :=
  fun _ _ h => candidateText_injective (String.ofList_injective h)

variable (inUse)

/-- All but finitely many positions are free. -/
theorem infinite_freeAt : {n | FreeAt inUse n}.Infinite := by
  have htaken : {n | String.ofList (candidateText n) ∈ (taken inUse).toFinset}.Finite :=
    (taken inUse).toFinset.finite_toSet.preimage ofList_candidateText_injective.injOn
  refine htaken.infinite_compl.mono ?_
  intro n hn
  exact fun hmem => hn (List.mem_toFinset.mpr hmem)

/-- Before any position there are no more positions with taken names than taken names. -/
theorem le_add_count_freeAt (n : Nat) : n ≤ (taken inUse).length + Nat.count (FreeAt inUse) n := by
  have hsplit : Nat.count (FreeAt inUse) n +
      ((Finset.range n).filter fun i => ¬FreeAt inUse i).card = n := by
    rw [Nat.count_eq_card_filter_range]
    exact (Finset.card_filter_add_card_filter_not _).trans (Finset.card_range n)
  have htaken : ((Finset.range n).filter fun i => ¬FreeAt inUse i).card ≤
      (taken inUse).toFinset.card := by
    refine Finset.card_le_card_of_injOn (fun i => String.ofList (candidateText i)) ?_ ?_
    · intro i hi
      exact List.mem_toFinset.mpr (not_not.mp (Finset.mem_filter.mp hi).2)
    · exact ofList_candidateText_injective.injOn
  have hlength := (taken inUse).toFinset_card_le
  omega

/-- The first free position from `n` on. -/
noncomputable def firstFree (n : Nat) : Nat :=
  Nat.nth (FreeAt inUse) (Nat.count (FreeAt inUse) n)

/-- The first free position is not before the start. -/
theorem le_firstFree (n : Nat) : n ≤ firstFree inUse n :=
  Nat.le_nth_count (infinite_freeAt inUse) n

/-- The first free position is free. -/
theorem freeAt_firstFree (n : Nat) : FreeAt inUse (firstFree inUse n) :=
  Nat.nth_mem_of_infinite (infinite_freeAt inUse) _

/-- Up to the first free position from `n` on there are as many free ones as up to `n`. -/
theorem count_firstFree (n : Nat) :
    Nat.count (FreeAt inUse) (firstFree inUse n) = Nat.count (FreeAt inUse) n :=
  Nat.count_nth_of_infinite (infinite_freeAt inUse) _

/-- From `n` on, no more positions are passed over than there are taken names. -/
theorem firstFree_le (n : Nat) :
    firstFree inUse n ≤ (taken inUse).length + Nat.count (FreeAt inUse) n := by
  rw [← count_firstFree]
  exact le_add_count_freeAt inUse _

variable {inUse}

/-- No free position is before the first one. -/
theorem firstFree_le_of_freeAt {n m : Nat} (h : n ≤ m) (hm : FreeAt inUse m) :
    firstFree inUse n ≤ m := by
  have hmono := Nat.nth_monotone (infinite_freeAt inUse) (Nat.count_monotone (FreeAt inUse) h)
  rwa [Nat.nth_count hm] at hmono

/-- A free start is the first free position. -/
theorem firstFree_eq_self {n : Nat} (h : FreeAt inUse n) : firstFree inUse n = n :=
  Nat.nth_count h

/-- A start that is not free may be left out. -/
theorem firstFree_succ {n : Nat} (h : ¬FreeAt inUse n) :
    firstFree inUse (n + 1) = firstFree inUse n := by
  rw [firstFree, Nat.count_succ, if_neg h, Nat.add_zero, firstFree]

end FreeAt

/-! ## Searching -/

variable {inUse : List Identifier} {c k : Candidate}

/-- A search from `c` on ends with a name and the position to go on from.  Every step moves on
to the next position, which a 64-bit word has to be able to hold, and ends the search if the
name at the position it leaves is free. -/
inductive Finds (inUse : List Identifier) : Candidate → String × Candidate → Prop
  | here {c : Candidate} (hroom : c.position.toNat + 1 < UInt64.size)
      (hfree : c.isFree inUse = true) : Finds inUse c (c.text, c.next)
  | further {c : Candidate} {found : String × Candidate}
      (hroom : c.position.toNat + 1 < UInt64.size) (htaken : c.isFree inUse = false)
      (hrest : Finds inUse c.next found) : Finds inUse c found

/-- `k` is the first position from `c` on that has a free name. -/
structure IsFirstFree (inUse : List Identifier) (c k : Candidate) : Prop where
  le : c.position ≤ k.position
  free : k.isFree inUse = true
  passed : ∀ j : Candidate, c.position ≤ j.position → j.position < k.position →
    j.isFree inUse = false

/-- A candidate is its position. -/
theorem eq_of_toNat_eq {a b : Candidate} (h : a.position.toNat = b.position.toNat) : a = b := by
  rcases a with ⟨a⟩
  rcases b with ⟨b⟩
  exact congrArg mk (UInt64.toNat_inj.mp h)

/-- The next candidate is one position further, short of the largest number. -/
theorem toNat_next (h : c.position.toNat + 1 < UInt64.size) :
    c.next.position.toNat = c.position.toNat + 1 := by
  rw [next, UInt64.toNat_add]
  exact Nat.mod_eq_of_lt h

/-- Candidates further on, short of the largest number. -/
theorem toNat_advance {n : Nat} (h : c.position.toNat + n < UInt64.size) :
    (c.advance n).position.toNat = c.position.toNat + n := by
  have hn : n < UInt64.size := by omega
  rw [advance, UInt64.toNat_add, UInt64.toNat_ofNat_of_lt' hn]
  exact Nat.mod_eq_of_lt h

/-- A 64-bit word can hold every smaller position. -/
theorem exists_toNat_eq {n : Nat} (h : n < UInt64.size) : ∃ k : Candidate, k.position.toNat = n :=
  ⟨⟨UInt64.ofNat n⟩, UInt64.toNat_ofNat_of_lt' h⟩

/-- The first free candidate is at the first free position. -/
theorem isFirstFree_iff :
    IsFirstFree inUse c k ↔ k.position.toNat = firstFree inUse c.position.toNat := by
  have hstart := le_firstFree inUse c.position.toNat
  have hfree := freeAt_firstFree inUse c.position.toNat
  constructor
  · intro h
    have hle := firstFree_le_of_freeAt (UInt64.le_iff_toNat_le.mp h.le)
      (isFree_iff_freeAt.mp h.free)
    obtain ⟨j, hj⟩ := exists_toNat_eq (Nat.lt_of_le_of_lt hle (UInt64.toNat_lt k.position))
    by_contra hne
    have hpassed := h.passed j (UInt64.le_iff_toNat_le.mpr (by omega))
      (UInt64.lt_iff_toNat_lt.mpr (by omega))
    rw [← hj, ← isFree_iff_freeAt, hpassed] at hfree
    exact Bool.false_ne_true hfree
  · intro h
    rw [← h] at hstart hfree
    refine ⟨UInt64.le_iff_toNat_le.mpr hstart, isFree_iff_freeAt.mpr hfree, ?_⟩
    intro j hcj hjk
    rw [← Bool.not_eq_true, isFree_iff_freeAt]
    intro hfree'
    have hle := firstFree_le_of_freeAt (UInt64.le_iff_toNat_le.mp hcj) hfree'
    have hlt := UInt64.lt_iff_toNat_lt.mp hjk
    omega

/-- There is one first free candidate. -/
theorem IsFirstFree.unique {l : Candidate} (hk : IsFirstFree inUse c k)
    (hl : IsFirstFree inUse c l) : k = l := by
  refine eq_of_toNat_eq ?_
  rw [isFirstFree_iff.mp hk, isFirstFree_iff.mp hl]

/-- To pass over a taken name does not change which position is the first free one. -/
theorem isFirstFree_next_iff (hroom : c.position.toNat + 1 < UInt64.size)
    (htaken : c.isFree inUse = false) : IsFirstFree inUse c.next k ↔ IsFirstFree inUse c k := by
  have htaken' : ¬FreeAt inUse c.position.toNat := by
    rw [← isFree_iff_freeAt, htaken]
    exact Bool.false_ne_true
  rw [isFirstFree_iff, isFirstFree_iff, toNat_next hroom, firstFree_succ htaken']

/-- A search ends with the first free position from its start on, if the position after that
is one. -/
theorem finds_iff {found : String × Candidate} :
    Finds inUse c found ↔ ∃ k : Candidate, IsFirstFree inUse c k ∧
      k.position.toNat + 1 < UInt64.size ∧ found = (k.text, k.next) := by
  constructor
  · intro h
    induction h with
    | @here c hroom hfree =>
        refine ⟨c, isFirstFree_iff.mpr ?_, hroom, rfl⟩
        exact (firstFree_eq_self (isFree_iff_freeAt.mp hfree)).symm
    | further hroom htaken _ ih =>
        obtain ⟨k, hk, hroom', rfl⟩ := ih
        exact ⟨k, (isFirstFree_next_iff hroom htaken).mp hk, hroom', rfl⟩
  · rintro ⟨k, hk, hroom, rfl⟩
    -- The induction is on the number of positions that the search passes over.
    induction hsteps : k.position.toNat - c.position.toNat generalizing c with
    | zero =>
        have hle := UInt64.le_iff_toNat_le.mp hk.le
        obtain rfl : k = c := eq_of_toNat_eq (by omega)
        exact .here hroom hk.free
    | succ steps ih =>
        have htaken := hk.passed c (UInt64.le_refl _) (UInt64.lt_iff_toNat_lt.mpr (by omega))
        have hroom' : c.position.toNat + 1 < UInt64.size := by omega
        refine .further hroom' htaken (ih ((isFirstFree_next_iff hroom' htaken).mpr hk) ?_)
        rw [toNat_next hroom']
        omega

/-- So a search ends in one way only. -/
theorem finds_iff_eq {found : String × Candidate} (hk : IsFirstFree inUse c k)
    (hroom : k.position.toNat + 1 < UInt64.size) :
    Finds inUse c found ↔ found = (k.text, k.next) := by
  rw [finds_iff]
  constructor
  · rintro ⟨l, hl, -, rfl⟩
    rw [hk.unique hl]
  · rintro rfl
    exact ⟨k, hk, hroom, rfl⟩

/-- Minting takes the first free name, with the position after it. -/
theorem mint_eq_of_isFirstFree (h : IsFirstFree inUse c k) :
    mint inUse c = (Identifier.ofString k.text, k.next) := by
  have hle := UInt64.le_iff_toNat_le.mp h.le
  have hword : k.position.toNat < UInt64.size := UInt64.toNat_lt k.position
  obtain ⟨steps, hsteps⟩ := Nat.exists_eq_add_of_le hle
  have hadvance : c.advance steps = k := by
    refine eq_of_toNat_eq ?_
    rw [toNat_advance (by omega), hsteps]
  obtain ⟨n, hmint, hbefore, hfree⟩ := exists_mint_eq ⟨steps, hadvance ▸ h.free⟩
  have hn : n = steps := by
    rcases Nat.lt_trichotomy n steps with hlt | rfl | hlt
    · have hposition := toNat_advance (c := c) (n := n) (by omega)
      have hpassed := h.passed (c.advance n)
        (UInt64.le_iff_toNat_le.mpr (by omega)) (UInt64.lt_iff_toNat_lt.mpr (by omega))
      rw [hpassed] at hfree
      exact absurd hfree Bool.false_ne_true
    · rfl
    · have hstop := hbefore steps hlt
      rw [hadvance, h.free] at hstop
      exact absurd hstop.symm Bool.false_ne_true
  rw [hmint, hn, hadvance]

/-- There is a first free position if a 64-bit word has room for all taken names after the
start. -/
theorem exists_isFirstFree
    (h : (taken inUse).length + Nat.count (FreeAt inUse) c.position.toNat + 1 < UInt64.size) :
    ∃ k, IsFirstFree inUse c k ∧ k.position.toNat + 1 < UInt64.size := by
  have hle := firstFree_le inUse c.position.toNat
  obtain ⟨k, hk⟩ := exists_toNat_eq (n := firstFree inUse c.position.toNat) (by omega)
  exact ⟨k, isFirstFree_iff.mpr hk, by omega⟩

/-! ## Searches that go on from one another -/

/-- A search for a free name, with the names that are in use when it is made. -/
structure Call where
  inUse : OrderedSet Identifier
  start : Candidate

namespace Call

/-- The name that is minted. -/
def name (call : Call) : Identifier :=
  (mint call.inUse.toList call.start).1

/-- The position to go on from. -/
def next (call : Call) : Candidate :=
  (mint call.inUse.toList call.start).2

/-- The position whose name is minted, the one before the position to go on from. -/
def stop (call : Call) : Candidate :=
  ⟨call.next.position - 1⟩

/-- Whether the search ends, which it does with what is minted. -/
def Ends (call : Call) : Prop :=
  Finds call.inUse.toList call.start (call.name.text, call.next)

/-- `b` goes on from where `a` ended.  What is in use may have changed since then. -/
def Resumes (a b : Call) : Prop :=
  b.start = a.next

variable {a b : Call}

/-- A search ends if a 64-bit word has room for all taken names after the start. -/
theorem ends_of_lt (h : (taken a.inUse.toList).length +
    Nat.count (FreeAt a.inUse.toList) a.start.position.toNat + 1 < UInt64.size) : a.Ends := by
  obtain ⟨k, hk, hroom⟩ := exists_isFirstFree h
  refine finds_iff.mpr ⟨k, hk, hroom, ?_⟩
  rw [name, next, mint_eq_of_isFirstFree hk, text_ofString_of_isFree hk.free]

/-- A search that ends does so at the first free position and takes the name there. -/
structure StopsAtFirstFree (call : Call) : Prop where
  first : IsFirstFree call.inUse.toList call.start call.stop
  name : call.name = .ofString call.stop.text
  next : call.next = call.stop.next
  toNat_next : call.next.position.toNat = call.stop.position.toNat + 1

/-- A search that ends stops at the first free candidate. -/
theorem Ends.stops (h : a.Ends) : a.StopsAtFirstFree := by
  obtain ⟨k, hk, hroom, -⟩ := finds_iff.mp h
  have hmint := mint_eq_of_isFirstFree hk
  have hnext : a.next = k.next := congrArg Prod.snd hmint
  have hstop : a.stop = k := by
    rcases k with ⟨k⟩
    rw [stop, hnext, Candidate.next, UInt64.add_sub_cancel]
  refine ⟨hstop ▸ hk, hstop ▸ congrArg Prod.fst hmint, hstop ▸ hnext, ?_⟩
  rw [hnext, hstop, Candidate.toNat_next hroom]

/-- The name of a call is that of the candidate it stops at. -/
theorem StopsAtFirstFree.text_name (h : a.StopsAtFirstFree) : a.name.text = a.stop.text := by
  rw [h.name, text_ofString_of_isFree h.first.free]

/-- Searches that go on from one another stop further and further on. -/
theorem Resumes.stop_lt (h : a.Resumes b) (ha : a.Ends) (hb : b.Ends) :
    a.stop.position < b.stop.position := by
  have hle := UInt64.le_iff_toNat_le.mp hb.stops.first.le
  rw [h, ha.stops.toNat_next] at hle
  exact UInt64.lt_iff_toNat_lt.mpr hle

/-- They do so along a whole run. -/
theorem pairwise_stop_lt {calls : List Call} (hrun : calls.IsChain Resumes)
    (hends : ∀ call ∈ calls, call.Ends) :
    calls.Pairwise fun a b => a.stop.position < b.stop.position := by
  have hchain := List.IsChain.imp_of_mem_imp
    (fun a b ha hb (h : a.Resumes b) => h.stop_lt (hends a ha) (hends b hb)) hrun
  have htrans : Trans (fun a b : Call => a.stop.position < b.stop.position)
      (fun a b : Call => a.stop.position < b.stop.position)
      (fun a b : Call => a.stop.position < b.stop.position) := ⟨UInt64.lt_trans⟩
  exact List.isChain_iff_pairwise.mp hchain

/-- Names at different positions differ. -/
theorem nodup_map_name {calls : List Call}
    (hforward : calls.Pairwise fun a b => a.stop.position < b.stop.position)
    (hends : ∀ call ∈ calls, call.Ends) : (calls.map name).Nodup := by
  rw [List.Nodup, List.pairwise_map]
  refine hforward.imp_of_mem ?_
  intro a b ha hb hlt hsame
  have htext : a.stop.text = b.stop.text := by
    rw [← (hends a ha).stops.text_name, ← (hends b hb).stops.text_name, hsame]
  rw [text_injective htext] at hlt
  exact UInt64.lt_irrefl _ hlt

end Call

/-- Where a 64-bit word has room for the reserved words and the names in use after the start,
a search ends, and in one way only: with the name at the first free position and the position
after it.  No more positions are passed over than there are reserved words and names in use,
and minting takes the same name.  Of searches that go on from one another, whatever is in use
at each of them, the names differ and come in the order of their positions; each is a legal
name that is not in use at the time, and all positions passed over for it have names that are
reserved words or in use at the time. -/
theorem mint_takes_first_free :
    (∀ (inUse : OrderedSet Identifier) (c : Candidate),
      c.position.toNat + inUse.size + reservedWords.length + 1 < UInt64.size →
        ∃ k, IsFirstFree inUse.toList c k ∧
          (∀ found, Finds inUse.toList c found ↔ found = (k.text, k.next)) ∧
          (mint inUse.toList c).1.text = k.text ∧ (mint inUse.toList c).2 = k.next ∧
          k.next.position.toNat = k.position.toNat + 1 ∧
          k.position.toNat ≤ c.position.toNat + (inUse.size + reservedWords.length)) ∧
      ∀ calls : List Call, calls.IsChain Call.Resumes → (∀ call ∈ calls, call.Ends) →
        (calls.map Call.name).Nodup ∧
        calls.Pairwise (fun a b => a.stop.position < b.stop.position) ∧
        ∀ call ∈ calls, IsFirstFree call.inUse.toList call.start call.stop ∧
          call.name.text = call.stop.text ∧ call.next = call.stop.next ∧
          isBareName call.stop.text = true ∧ call.name ∉ call.inUse.toList := by
  constructor
  · intro inUse c hroom
    have htaken : (taken inUse.toList).length = reservedWords.length + inUse.size :=
      length_taken _
    have hcount := Nat.count_le (p := FreeAt inUse.toList) (n := c.position.toNat)
    have hfits : (taken inUse.toList).length +
        Nat.count (FreeAt inUse.toList) c.position.toNat + 1 < UInt64.size := by omega
    obtain ⟨k, hk, hlast⟩ := exists_isFirstFree hfits
    have hle := firstFree_le inUse.toList c.position.toNat
    rw [← isFirstFree_iff.mp hk] at hle
    refine ⟨k, hk, fun found => finds_iff_eq hk hlast, ?_, ?_, toNat_next hlast, by omega⟩
    · rw [mint_eq_of_isFirstFree hk]
      exact text_ofString_of_isFree hk.free
    · rw [mint_eq_of_isFirstFree hk]
  · intro calls hrun hends
    have hforward := Call.pairwise_stop_lt hrun hends
    refine ⟨Call.nodup_map_name hforward hends, hforward, ?_⟩
    intro call hcall
    have hstops := (hends call hcall).stops
    refine ⟨hstops.first, hstops.text_name, hstops.next,
      isBareName_text_of_isFree hstops.first.free, ?_⟩
    rw [hstops.name]
    exact ofString_text_not_mem hstops.first.free

/-- The second of two searches passes over a name that is put in use between them. -/
theorem mint_takes_first_free_after_reserve :
    let inUse : OrderedSet Identifier := .ofList [.ofString "b"]
    let calls : List Call := [⟨.empty, first⟩, ⟨inUse, ⟨1⟩⟩]
    (1 : UInt64).toNat + inUse.size + reservedWords.length + 1 < UInt64.size ∧
      (∃ k, IsFirstFree inUse.toList ⟨1⟩ k ∧ (mint inUse.toList ⟨1⟩).1.text = k.text) ∧
      calls.IsChain Call.Resumes ∧ (∀ call ∈ calls, call.Ends) ∧
      calls.map (fun call => call.name.text) = ["a", "c"] ∧ (calls.map Call.name).Nodup := by
  intro inUse calls
  obtain ⟨hsearch, hruns⟩ := mint_takes_first_free
  obtain ⟨k, hk, -, htext, -⟩ := hsearch inUse ⟨1⟩ (by decide)
  have hrun : calls.IsChain Call.Resumes :=
    .cons_cons (by unfold Call.Resumes; decide +kernel) (.singleton _)
  have hends : ∀ call ∈ calls, call.Ends := by
    refine List.forall_mem_cons.mpr ⟨Call.ends_of_lt (by decide +kernel), ?_⟩
    exact List.forall_mem_singleton.mpr (Call.ends_of_lt (by decide +kernel))
  exact ⟨by decide, ⟨k, hk, htext⟩, hrun, hends, by decide +kernel, (hruns calls hrun hends).1⟩

end EcmaWriter.Candidate
