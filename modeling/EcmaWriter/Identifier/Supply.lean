/-!
# EcmaWriter - The supply of names

An endless supply of short names, in a fixed order: shorter names first, and names
of one length in the order of the alphabet `a-z`, `A-Z`, `0-9`, where a digit cannot
come first. The names of one length form a block. The name at a 64-bit position is
found by going past the blocks of shorter names and then writing what is left of the
position in digits. Sizes of blocks are counted in 128-bit words, and characters are
looked up in tables; a size that is too large for a word and a look-up past the end of
a table are faults.

Main definitions:

- `nameAt?`: the name at a 64-bit position, unless a fault arises on the way.
- `candidateText`: the name at any position, each name being an earlier one with one
  more character.

Main results:

- Theorem `nameAt?_eq_some`: no fault arises, and the two give the same names.
-/

namespace EcmaWriter

/-! ## Digits -/

/-- The characters that a name may start with. -/
def firstChars : List Char :=
  ['a', 'b', 'c', 'd', 'e', 'f', 'g', 'h', 'i', 'j', 'k', 'l', 'm',
    'n', 'o', 'p', 'q', 'r', 's', 't', 'u', 'v', 'w', 'x', 'y', 'z',
    'A', 'B', 'C', 'D', 'E', 'F', 'G', 'H', 'I', 'J', 'K', 'L', 'M',
    'N', 'O', 'P', 'Q', 'R', 'S', 'T', 'U', 'V', 'W', 'X', 'Y', 'Z']

/-- The characters that a name may go on with. -/
def otherChars : List Char :=
  firstChars ++ ['0', '1', '2', '3', '4', '5', '6', '7', '8', '9']

theorem length_otherChars : otherChars.length = 62 := rfl

/-- The last `count` characters of the name at a position in its block, the very last
first, and what is left of the position for the characters before them. -/
def lastChars? : Nat → Nat → Option (List Char × Nat)
  | 0, n => some ([], n)
  | count + 1, n =>
    (otherChars[n % otherChars.length]?).bind fun c =>
      (lastChars? count (n / otherChars.length)).bind fun rest =>
        some (c :: rest.1, rest.2)

/-! ## Blocks -/

/-- Number of names that have `more` characters after the first. -/
def blockSize : Nat → Nat
  | 0 => firstChars.length
  | more + 1 => blockSize more * otherChars.length

/-- The names of one length. -/
structure Block where
  /-- How many characters come after the first. -/
  more : Nat
  /-- How many names there are. -/
  size : Nat
  size_eq : size = blockSize more

theorem blockSize_pos (more : Nat) : 0 < blockSize more := by
  induction more with
  | zero => decide
  | succ more ih => exact Nat.mul_pos ih (by decide)

namespace Block

/-- The names of one character. -/
def shortest : Block where
  more := 0
  size := firstChars.length
  size_eq := rfl

/-- The names with one more character, unless a 128-bit word is too small for their
number. -/
def next? (b : Block) : Option Block :=
  if b.size * otherChars.length < Nat.pow 2 128 then
    some {
      more := b.more + 1, size := b.size * otherChars.length,
      size_eq := by rw [b.size_eq]; rfl }
  else none

/-- The block of the name at a position, counted from the start of a block, and its
position in there. -/
def seek? (b : Block) (n : Nat) : Option (Block × Nat) :=
  if n < b.size then some (b, n)
  else
    match b.next? with
    | none => none
    | some longer => longer.seek? (n - b.size)
termination_by n
decreasing_by
  have hpos := b.size_eq ▸ blockSize_pos b.more
  omega

end Block

/-- The characters of the name at a position. There is none where a number overflows or
a character is looked up past the end of its table. -/
def nameAt? (position : UInt64) : Option (List Char) :=
  (Block.shortest.seek? position.toNat).bind fun found =>
    (lastChars? found.1.more found.2).bind fun last =>
      (firstChars[last.2]?).bind fun c => some (c :: last.1.reverse)

/-! ## Names by recursion -/

/-- The alphabet of candidate names: 26 small letters, 26 capitals, 10 digits. -/
def candidateChar (n : Nat) : Char :=
  if n < 26 then Char.ofNat (97 + n)
  else if n < 52 then Char.ofNat (65 + (n - 26))
  else Char.ofNat (48 + (n - 52))

/-- The name at a position. The first 52 names are the letters; after them each
name is an earlier one with one more character, 62 names to each. -/
def candidateText (position : Nat) : List Char :=
  if position < 52 then [candidateChar position]
  else
    candidateText ((position - 52) / 62) ++ [candidateChar ((position - 52) % 62)]
termination_by position
decreasing_by omega

theorem candidateText_of_lt {n : Nat} (h : n < 52) : candidateText n = [candidateChar n] := by
  rw [candidateText, if_pos h]

theorem candidateText_of_ge {n : Nat} (h : 52 ≤ n) :
    candidateText n = candidateText ((n - 52) / 62) ++ [candidateChar ((n - 52) % 62)] := by
  rw [candidateText, if_neg (by omega)]

/-! ## No faults -/

theorem firstChars_getElem? {n : Nat} (h : n < 52) : firstChars[n]? = some (candidateChar n) := by
  have hall : ∀ i < 52, firstChars[i]? = some (candidateChar i) := by decide
  exact hall n h

theorem otherChars_getElem? {n : Nat} (h : n < 62) : otherChars[n]? = some (candidateChar n) := by
  have hall : ∀ i < 62, otherChars[i]? = some (candidateChar i) := by decide
  exact hall n h

/-- Number of names with fewer than `more` characters after the first. -/
def shorterNames : Nat → Nat
  | 0 => 0
  | more + 1 => shorterNames more + blockSize more

/-- Every name is one with a character less and one more character, except for the
letters. -/
theorem shorterNames_succ (more : Nat) : shorterNames (more + 1) = 52 + 62 * shorterNames more := by
  induction more with
  | zero => rfl
  | succ more ih =>
    have hsize : blockSize (more + 1) = blockSize more * 62 := rfl
    have hshorter : shorterNames (more + 1) = shorterNames more + blockSize more := rfl
    rw [shorterNames, hsize, ih]
    omega

/-- The look-ups of the last characters succeed, and one for the first succeeds too. -/
theorem exists_lastChars?_eq (more n : Nat) (h : n < blockSize more) :
    ∃ last left, lastChars? more n = some (last, left) ∧ left < 52 ∧
      candidateText (shorterNames more + n) = candidateChar left :: last.reverse := by
  induction more generalizing n with
  | zero =>
    have hn : n < 52 := h
    refine ⟨[], n, rfl, hn, ?_⟩
    rw [shorterNames, Nat.zero_add, candidateText_of_lt hn]
    rfl
  | succ more ih =>
    have hn : n < blockSize more * 62 := h
    obtain ⟨last, left, hlast, hleft, htext⟩ := ih (n / 62) (by omega)
    have hdigit := otherChars_getElem? (Nat.mod_lt n (by decide : 0 < 62))
    refine ⟨candidateChar (n % 62) :: last, left, ?_, hleft, ?_⟩
    · rw [lastChars?, length_otherChars, hdigit, Option.bind_some, hlast, Option.bind_some]
    · have hdiv : (shorterNames (more + 1) + n - 52) / 62 = shorterNames more + n / 62 := by
        rw [shorterNames_succ]
        omega
      have hmod : (shorterNames (more + 1) + n - 52) % 62 = n % 62 := by
        rw [shorterNames_succ]
        omega
      rw [candidateText_of_ge (by rw [shorterNames_succ]; omega), hdiv, hmod, htext,
        List.reverse_cons, List.cons_append]

/-- Going past blocks ends in the block of the position, and all numbers on the way fit:
a block that is gone past is no larger than the position. -/
theorem Block.exists_seek?_eq (b : Block) (n : Nat) (h : n < UInt64.size) :
    ∃ found left, b.seek? n = some (found, left) ∧ left < found.size ∧
      shorterNames b.more + n = shorterNames found.more + left := by
  induction n using Nat.strongRecOn generalizing b with
  | ind n ih =>
    rw [Block.seek?]
    by_cases hn : n < b.size
    · exact ⟨b, n, if_pos hn, hn, rfl⟩
    · have hpos := b.size_eq ▸ blockSize_pos b.more
      have hfits : b.size * otherChars.length < Nat.pow 2 128 := by
        have hword : UInt64.size * 62 < Nat.pow 2 128 := by decide
        rw [length_otherChars]
        omega
      obtain ⟨found, left, hfound, hleft, hsum⟩ := ih (n - b.size) (by omega)
        ⟨b.more + 1, b.size * otherChars.length, by rw [b.size_eq]; rfl⟩ (by omega)
      refine ⟨found, left, ?_, hleft, ?_⟩
      · rw [if_neg hn, Block.next?, if_pos hfits]
        exact hfound
      · rw [← hsum, shorterNames, ← b.size_eq]
        omega

/-- Every position has a name: no number overflows, and no look-up goes past the end of
its table. -/
theorem nameAt?_eq_some (position : UInt64) :
    nameAt? position = some (candidateText position.toNat) := by
  obtain ⟨found, n, hfound, hn, hsum⟩ :=
    Block.shortest.exists_seek?_eq position.toNat (UInt64.toNat_lt position)
  obtain ⟨last, left, hlast, hleft, htext⟩ :=
    exists_lastChars?_eq found.more n (by rw [← found.size_eq]; exact hn)
  have hposition : position.toNat = shorterNames found.more + n := by
    rw [← hsum]
    exact (Nat.zero_add _).symm
  rw [nameAt?, hfound, Option.bind_some, hlast, Option.bind_some, firstChars_getElem? hleft,
    Option.bind_some, hposition, htext]

end EcmaWriter
