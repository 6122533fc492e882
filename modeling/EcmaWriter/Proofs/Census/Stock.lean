import EcmaWriter.Census
import Mathlib.Data.List.Nodup

/-!
# EcmaWriter - Taking stock

The census takes one mention after the other into account and stops at the first
fault.  This file separates the two results of the pass: which mention is at fault
depends on the mention alone, and so does what it adds to the names and the paths.

Main results:

- Theorem `Module.census_eq_ok_iff`: the census of a module without faulty mentions
  has the mentioned names and paths in the order of their first mention.
- Theorem `Module.census_eq_error_iff`: otherwise it is the first faulty mention
  that is reported.
- Theorem `firstRepeat?_eq_some_iff`: the first repeat in a list.
-/

namespace EcmaWriter

/-! ## Single mentions -/

namespace Mention

/-- What is wrong about a mention. -/
def fault? (policy : UnresolvedPolicy) : Mention → Option Fault
  | distinct declared => (firstRepeat? [] declared).map .duplicateName
  | name _ => none
  | path _ => none
  | reference scope n =>
    if scope.contains n.text then none
    else match policy with
      | .reject => some (.unresolvedVariable n)
      | .tolerate => none

/-- The name that a mention adds. -/
def name? : Mention → Option Identifier
  | name n => some n
  | _ => none

/-- The path that a mention adds. -/
def path? : Mention → Option String
  | path p => some p
  | _ => none

end Mention

namespace OrderedSet

variable {α : Type} [DecidableEq α]

@[simp] theorem insertAll_nil (s : OrderedSet α) : s.insertAll [] = s := rfl

@[simp] theorem insertAll_cons (s : OrderedSet α) (a : α) (l : List α) :
    s.insertAll (a :: l) = (s.insert a).insertAll l := rfl

/-- What was there stays, and what is inserted is there. -/
theorem mem_toList_insertAll (s : OrderedSet α) (l : List α) (b : α) :
    b ∈ (s.insertAll l).toList ↔ b ∈ s.toList ∨ b ∈ l := by
  induction l generalizing s with
  | nil => simp
  | cons a l ih =>
      rw [insertAll_cons, ih, mem_toList_insert, List.mem_cons]
      tauto

/-- A set of a list has the elements of the list. -/
@[simp] theorem mem_toList_ofList (l : List α) (b : α) : b ∈ (ofList l).toList ↔ b ∈ l := by
  rw [ofList, mem_toList_insertAll, toList_empty]
  simp

end OrderedSet

/-! ## The whole pass -/

namespace Census

/-- A census with the names and paths of further mentions. -/
def takeAll (c : Census) (mentions : List Mention) : Census where
  names := c.names.insertAll (mentions.filterMap Mention.name?)
  paths := c.paths.insertAll (mentions.filterMap Mention.path?)

/-- A mention without fault adds its name or its path. -/
theorem add_of_fault?_eq_none {policy : UnresolvedPolicy} {x : Mention} (c : Census)
    (h : x.fault? policy = none) : c.add policy x = .ok (c.takeAll [x]) := by
  cases x with
  | distinct declared =>
      have hnone : firstRepeat? [] declared = none := by
        simpa [Mention.fault?] using h
      rw [add, hnone]
      rfl
  | name n => rfl
  | path p => rfl
  | reference scope n =>
      by_cases hcontains : scope.contains n.text = true
      · simp only [add, if_pos hcontains]
        rfl
      · cases policy with
        | reject => exact absurd h (by simp [Mention.fault?, hcontains])
        | tolerate =>
            simp only [add, if_neg hcontains]
            rfl

/-- A faulty mention is the result of the pass. -/
theorem add_of_fault?_eq_some {policy : UnresolvedPolicy} {x : Mention} {f : Fault} (c : Census)
    (h : x.fault? policy = some f) : c.add policy x = .error f := by
  cases x with
  | distinct declared =>
      rw [Mention.fault?, Option.map_eq_some_iff] at h
      rcases h with ⟨d, hd, rfl⟩
      rw [add, hd]
  | name n => exact absurd h (by simp [Mention.fault?])
  | path p => exact absurd h (by simp [Mention.fault?])
  | reference scope n =>
      by_cases hcontains : scope.contains n.text = true
      · exact absurd h (by simp [Mention.fault?, hcontains])
      · cases policy with
        | reject =>
            simp only [Mention.fault?, if_neg hcontains, Option.some.injEq] at h
            simp only [add, if_neg hcontains, h]
        | tolerate => exact absurd h (by simp [Mention.fault?, hcontains])

/-- Mentions are taken one by one. -/
theorem takeAll_cons (c : Census) (x : Mention) (l : List Mention) :
    c.takeAll (x :: l) = (c.takeAll [x]).takeAll l := by
  cases x <;> rfl

/-- The pass over a list of mentions: the first fault, or all names and paths. -/
theorem foldlM_add (policy : UnresolvedPolicy) (c : Census) (l : List Mention) :
    l.foldlM (Census.add policy) c =
      match l.filterMap (Mention.fault? policy) with
      | [] => .ok (c.takeAll l)
      | f :: _ => .error f := by
  induction l generalizing c with
  | nil => rfl
  | cons x l ih =>
      rw [List.foldlM_cons]
      cases hx : x.fault? policy with
      | none =>
          rw [add_of_fault?_eq_none c hx, List.filterMap_cons_none hx, takeAll_cons c x l]
          exact ih (c.takeAll [x])
      | some f =>
          rw [add_of_fault?_eq_some c hx, List.filterMap_cons_some hx]
          rfl

end Census

namespace Module

/-- The census of a module is that of its mentions, unless one of them is faulty. -/
theorem census_eq_ok_iff {policy : UnresolvedPolicy} {m : Module} {c : Census} :
    m.census policy = .ok c ↔
      m.mentions.filterMap (Mention.fault? policy) = [] ∧
        c = Census.empty.takeAll m.mentions := by
  rw [census, Census.foldlM_add]
  cases m.mentions.filterMap (Mention.fault? policy) with
  | nil => simp [eq_comm]
  | cons f fs => simp

/-- The fault of a module is that of its first faulty mention. -/
theorem census_eq_error_iff {policy : UnresolvedPolicy} {m : Module} {f : Fault} :
    m.census policy = .error f ↔
      (m.mentions.filterMap (Mention.fault? policy)).head? = some f := by
  rw [census, Census.foldlM_add]
  cases m.mentions.filterMap (Mention.fault? policy) with
  | nil => simp
  | cons g fs => simp

end Module

/-! ## Repeats -/

section Repeats

variable {α : Type} [DecidableEq α]

/-- The first element of a list that stands further left already. -/
def IsFirstRepeat (l : List α) (a : α) : Prop :=
  ∃ before after, l = before ++ a :: after ∧ before.Nodup ∧ a ∈ before

/-- An element that is there before is the first repeat if nothing is twice before it. -/
theorem firstRepeat?_eq_some_of_split {seen before after : List α} {a : α}
    (hnodup : (seen.reverse ++ before).Nodup) (ha : a ∈ seen.reverse ++ before) :
    firstRepeat? seen (before ++ a :: after) = some a := by
  induction before generalizing seen with
  | nil =>
      have hseen : a ∈ seen := by simpa using ha
      simp [firstRepeat?, hseen]
  | cons b before ih =>
      have hb : b ∉ seen := by
        intro hmem
        have hdisjoint := List.disjoint_of_nodup_append hnodup
        exact hdisjoint (List.mem_reverse.mpr hmem) List.mem_cons_self
      have hmove : seen.reverse ++ b :: before = (b :: seen).reverse ++ before := by simp
      rw [List.cons_append, firstRepeat?, if_neg hb]
      exact ih (hmove ▸ hnodup) (hmove ▸ ha)

/-- The first repeat is there before, and nothing is twice before it. -/
theorem split_of_firstRepeat?_eq_some {seen l : List α} {a : α} (hseen : seen.Nodup)
    (h : firstRepeat? seen l = some a) :
    ∃ before after, l = before ++ a :: after ∧ (seen.reverse ++ before).Nodup ∧
      a ∈ seen.reverse ++ before := by
  induction l generalizing seen with
  | nil => exact absurd h (by simp [firstRepeat?])
  | cons b l ih =>
      rw [firstRepeat?] at h
      split at h
      · rename_i hb
        have hba : b = a := Option.some.inj h
        subst hba
        exact ⟨[], l, rfl, by simpa using hseen, by simpa using hb⟩
      · rename_i hb
        rcases ih (List.nodup_cons.mpr ⟨hb, hseen⟩) h with ⟨before, after, hl, hnodup, ha⟩
        have hmove : seen.reverse ++ b :: before = (b :: seen).reverse ++ before := by simp
        exact ⟨b :: before, after, by rw [hl, List.cons_append], hmove ▸ hnodup, hmove ▸ ha⟩

/-- Looking for a repeat from the left finds the first one. -/
theorem firstRepeat?_eq_some_iff {l : List α} {a : α} :
    firstRepeat? [] l = some a ↔ IsFirstRepeat l a := by
  constructor
  · intro h
    exact split_of_firstRepeat?_eq_some List.nodup_nil h
  · rintro ⟨before, after, rfl, hnodup, ha⟩
    exact firstRepeat?_eq_some_of_split hnodup ha

/-- There is no repeat if nothing is there twice. -/
theorem firstRepeat?_eq_none_iff_of_nodup {seen l : List α} (hseen : seen.Nodup) :
    firstRepeat? seen l = none ↔ (seen.reverse ++ l).Nodup := by
  induction l generalizing seen with
  | nil => simpa [firstRepeat?] using hseen
  | cons b l ih =>
      rw [firstRepeat?]
      split
      · rename_i hb
        refine iff_of_false (by simp) ?_
        intro hnodup
        exact List.disjoint_of_nodup_append hnodup (List.mem_reverse.mpr hb) List.mem_cons_self
      · rename_i hb
        rw [ih (List.nodup_cons.mpr ⟨hb, hseen⟩)]
        simp

/-- A list in which no repeat is found has none. -/
theorem firstRepeat?_eq_none_iff {l : List α} : firstRepeat? [] l = none ↔ l.Nodup := by
  rw [firstRepeat?_eq_none_iff_of_nodup List.nodup_nil, List.reverse_nil, List.nil_append]

end Repeats

end EcmaWriter
