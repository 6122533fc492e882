import EcmaWriter.Identifier
import EcmaWriter.Identifier.Supply

/-!
# EcmaWriter - Candidate names

Fresh names are taken from the supply of names by walking forward past the names
that are in use.

Main definitions:

- `Candidate`: a position in the supply, as a 64-bit word.
- `Candidate.text`: the name at a position.
- `Candidate.mint`: the first name at or after a position that is neither a
  reserved word nor in use.
-/

namespace EcmaWriter

/-- A position in the supply of names. Positions are 64-bit words, so the one
after the greatest is the first. -/
structure Candidate where
  position : UInt64
deriving DecidableEq

namespace Candidate

/-- The first position. -/
def first : Candidate :=
  ⟨0⟩

/-- The position after this one. -/
def next (c : Candidate) : Candidate :=
  ⟨c.position + 1⟩

/-- The name at a position. -/
def text (c : Candidate) : String :=
  String.ofList ((nameAt? c.position).get (by rw [nameAt?_eq_some]; rfl))

theorem text_eq (c : Candidate) : c.text = String.ofList (candidateText c.position.toNat) := by
  simp only [text, nameAt?_eq_some, Option.get_some]

/-- Whether the name at a position may be taken when `inUse` are the names in
use. -/
def isFree (inUse : List Identifier) (c : Candidate) : Bool :=
  !isReservedWord c.text && !inUse.any fun name => name.text == c.text

/-- Look at up to `tries` positions for a free one, then take the next without
looking. -/
def mintWithin (inUse : List Identifier) : Nat → Candidate → Identifier × Candidate
  | 0, c => (Identifier.ofString c.text, c.next)
  | tries + 1, c =>
    if c.isFree inUse then (Identifier.ofString c.text, c.next)
    else mintWithin inUse tries c.next

/-- The first free name at or after a position, with the position to go on from.
Only reserved words and names in use are passed over, each at most once, so there
is no need to look at more positions than there are of those. -/
def mint (inUse : List Identifier) (c : Candidate) : Identifier × Candidate :=
  mintWithin inUse (reservedWords.length + inUse.length) c

/-- The first `n` free names from a position on, each with the position after it. -/
def mintMany (inUse : List Identifier) : Nat → Candidate → List (Identifier × Candidate)
  | 0, _ => []
  | n + 1, c => mint inUse c :: mintMany inUse n (mint inUse c).2

@[simp] theorem length_mintMany (inUse : List Identifier) (n : Nat) (c : Candidate) :
    (mintMany inUse n c).length = n := by
  induction n generalizing c with
  | zero => rfl
  | succ n ih => simp [mintMany, ih]

end Candidate

end EcmaWriter
