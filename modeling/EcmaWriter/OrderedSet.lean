/-!
# EcmaWriter - Sets in order of insertion

A finite set that remembers the order in which its elements were first inserted.
The names a module uses and the module paths it refers to are kept this way,
because both orders show in the output.

Main results:

- Theorem `OrderedSet.toList_insert`: a new element goes to the end and a known
  one changes nothing.
- Theorem `OrderedSet.mem_toList_insert`: membership after an insertion.
-/

namespace EcmaWriter

/-- A list without repeats, read as a set that keeps the order of insertion. -/
structure OrderedSet (α : Type) where
  toList : List α
  nodup : toList.Nodup

namespace OrderedSet

variable {α : Type}

/-- The set without elements. -/
def empty : OrderedSet α where
  toList := []
  nodup := List.nodup_nil

/-- Number of elements. -/
def size (s : OrderedSet α) : Nat :=
  s.toList.length

@[simp] theorem toList_empty : (empty : OrderedSet α).toList = [] := rfl

private theorem nodup_append_singleton {l : List α} {a : α} (hl : l.Nodup) (ha : a ∉ l) :
    (l ++ [a]).Nodup := by
  rw [List.nodup_append]
  refine ⟨hl, List.nodup_cons.mpr ⟨List.not_mem_nil, List.nodup_nil⟩, ?_⟩
  intro b hb c hc hbc
  rw [List.mem_singleton] at hc
  exact ha (hc ▸ hbc ▸ hb)

variable [DecidableEq α]

/-- Whether an element is in the set. -/
def contains (s : OrderedSet α) (a : α) : Bool :=
  s.toList.contains a

/-- Put an element at the end, unless the set has it already. -/
def insert (s : OrderedSet α) (a : α) : OrderedSet α :=
  if h : a ∈ s.toList then s
  else { toList := s.toList ++ [a], nodup := nodup_append_singleton s.nodup h }

/-- Insert the elements of a list from left to right. -/
def insertAll (s : OrderedSet α) (l : List α) : OrderedSet α :=
  l.foldl insert s

/-- The set of a list's elements, in the order of their first occurrences. -/
def ofList (l : List α) : OrderedSet α :=
  empty.insertAll l

/-- An insertion appends a new element and leaves a known one where it is. -/
theorem toList_insert (s : OrderedSet α) (a : α) :
    (s.insert a).toList = if a ∈ s.toList then s.toList else s.toList ++ [a] := by
  unfold insert
  split <;> simp_all

@[simp] theorem mem_toList_insert (s : OrderedSet α) (a b : α) :
    b ∈ (s.insert a).toList ↔ b ∈ s.toList ∨ b = a := by
  rw [toList_insert]
  split
  · constructor
    · exact Or.inl
    · rintro (h | rfl) <;> assumption
  · simp

@[simp] theorem contains_eq_true (s : OrderedSet α) (a : α) :
    s.contains a = true ↔ a ∈ s.toList := by
  simp [contains]

end OrderedSet

end EcmaWriter
