/-!
# EcmaWriter - JSON numerals

How a number is read. A whole number that fits a 64-bit word is kept exactly. Any
other number is a decimal significand that fits a 64-bit word, cut off after the
last digit that still fits, with a decimal exponent.

Main definitions:

- `Numeral`: what a number reads as.
- `Numeral.read?`: the longest number at the front of a text.
- `Numeral.float?`: the floating-point value of a number that is not whole.
-/

namespace EcmaWriter

/-- A number as it is read. -/
inductive Numeral
  | integer (value : Int)
  | real (negative : Bool) (significand : Nat) (exponent : Int)
deriving DecidableEq

namespace Numeral

/-! ## Digits -/

/-- Value of a decimal digit. -/
def digitValue (c : Char) : Nat :=
  c.toNat - 48

/-- Greatest significand, that of a 64-bit word. -/
def maxSignificand : Nat :=
  UInt64.size - 1

/-- Append digits to a significand as long as it fits. The second result is the
number of digits that were left over. -/
def extend : Nat → List Char → Nat × Nat
  | significand, [] => (significand, 0)
  | significand, c :: cs =>
    let grown := 10 * significand + digitValue c
    if grown ≤ maxSignificand then extend grown cs else (significand, cs.length + 1)

/-- The number that digits spell. -/
def ofDigits (cs : List Char) : Nat :=
  cs.foldl (fun n c => 10 * n + digitValue c) 0

/-! ## Reading -/

/-- A whole number, or a real one if it does not fit or is a negative zero. -/
def ofWhole (negative : Bool) (significand : Nat) : Numeral :=
  if !negative then .integer significand
  else if significand = 0 then .real true 0 0
  else if significand ≤ UInt64.size / 2 then .integer (-significand)
  else .real true significand 0

/-- Put a number together from its digits before the point, its digits after the
point and its exponent. -/
def ofParts (negative : Bool) (whole : List Char) (fraction : Option (List Char))
    (exponent : Option Int) : Numeral :=
  let (significand, left) := extend 0 whole
  match fraction, exponent with
  | none, none =>
    if left = 0 then ofWhole negative significand else .real negative significand left
  | none, some e => .real negative significand (left + e)
  | some digits, e =>
    let (longer, unread) := extend significand digits
    .real negative longer (left - (digits.length - unread : Nat) + e.getD 0)

/-- At least one digit at the front of a text, and what follows. -/
def digits? (cs : List Char) : Option (List Char × List Char) :=
  match cs.takeWhile Char.isDigit with
  | [] => none
  | ds => some (ds, cs.dropWhile Char.isDigit)

/-- The digits before the point. A zero is never followed by another digit. -/
def whole? (cs : List Char) : Option (List Char × List Char) :=
  match digits? cs with
  | some ('0' :: _ :: _, _) => none
  | result => result

/-- The digits after the point, if there is a point. -/
def fraction? : List Char → Option (Option (List Char) × List Char)
  | '.' :: cs => (digits? cs).map fun (ds, rest) => (some ds, rest)
  | cs => some (none, cs)

/-- The exponent after its mark. -/
def signedExponent? : List Char → Option (Int × List Char)
  | '-' :: cs => (digits? cs).map fun (ds, rest) => (-(ofDigits ds : Int), rest)
  | '+' :: cs => (digits? cs).map fun (ds, rest) => ((ofDigits ds : Int), rest)
  | cs => (digits? cs).map fun (ds, rest) => ((ofDigits ds : Int), rest)

/-- The exponent, if there is one. -/
def exponent? : List Char → Option (Option Int × List Char)
  | 'e' :: cs => (signedExponent? cs).map fun (e, rest) => (some e, rest)
  | 'E' :: cs => (signedExponent? cs).map fun (e, rest) => (some e, rest)
  | cs => some (none, cs)

/-- The sign, if there is one. -/
def sign : List Char → Bool × List Char
  | '-' :: cs => (true, cs)
  | cs => (false, cs)

/-- The longest number at the front of a text, and what follows. -/
def read? (cs : List Char) : Option (Numeral × List Char) := do
  let (negative, cs) := sign cs
  let (whole, cs) ← whole? cs
  let (fraction, cs) ← fraction? cs
  let (exponent, cs) ← exponent? cs
  return (ofParts negative whole fraction exponent, cs)

/-! ## Floating-point value -/

/-- The power of ten nearest to `10 ^ n`. -/
def powerOfTen (n : Nat) : Float :=
  Float.ofScientific 1 false n

/-- A significand scaled by one power of ten, with one rounding for each step.
Exponents below -308 take several steps. There is no value beyond the greatest
finite one. -/
def scale? (significand : Float) (exponent : Int) : Option Float :=
  if 308 < exponent then
    if significand == 0 then some significand else none
  else if 0 ≤ exponent then
    let value := significand * powerOfTen exponent.toNat
    if value.isInf then none else some value
  else if -308 ≤ exponent then some (significand / powerOfTen (-exponent).toNat)
  else if -616 ≤ exponent then
    some (significand / powerOfTen 308 / powerOfTen (-exponent - 308).toNat)
  else some 0

/-- The floating-point value of a number that is not whole, unless it is too
large to have one. -/
def float? (negative : Bool) (significand : Nat) (exponent : Int) : Option Float :=
  (scale? significand.toUInt64.toFloat exponent).map fun value =>
    if negative then -value else value

/-- Whether a number has a value. -/
def hasValue : Numeral → Bool
  | .integer _ => true
  | .real negative significand exponent => (float? negative significand exponent).isSome

/-! ## Reading leaves a shorter text -/

private theorem length_dropWhile_lt {p : Char → Bool} {cs ds : List Char} {c : Char}
    (h : cs.takeWhile p = c :: ds) : (cs.dropWhile p).length < cs.length := by
  have hlen := congrArg List.length (List.takeWhile_append_dropWhile (p := p) (l := cs))
  rw [List.length_append, h, List.length_cons] at hlen
  omega

theorem length_of_digits? {cs ds rest : List Char} (h : digits? cs = some (ds, rest)) :
    rest.length < cs.length := by
  unfold digits? at h
  split at h
  · contradiction
  · next hne =>
    obtain ⟨rfl, rfl⟩ := Prod.mk.inj (Option.some.inj h)
    cases hds : cs.takeWhile Char.isDigit with
    | nil => exact absurd hds (hne · )
    | cons c ds => exact length_dropWhile_lt hds

theorem length_of_whole? {cs ds rest : List Char} (h : whole? cs = some (ds, rest)) :
    rest.length < cs.length := by
  unfold whole? at h
  split at h
  · contradiction
  · exact length_of_digits? h

theorem length_of_fraction? {cs rest : List Char} {ds : Option (List Char)}
    (h : fraction? cs = some (ds, rest)) : rest.length ≤ cs.length := by
  unfold fraction? at h
  split at h
  · obtain ⟨⟨ds', rest'⟩, hd, he⟩ := Option.map_eq_some_iff.mp h
    obtain ⟨_, rfl⟩ := Prod.mk.inj he
    have := length_of_digits? hd
    simp only [List.length_cons]
    omega
  · obtain ⟨_, rfl⟩ := Prod.mk.inj (Option.some.inj h)
    exact Nat.le_refl _

theorem length_of_signedExponent? {cs rest : List Char} {e : Int}
    (h : signedExponent? cs = some (e, rest)) : rest.length < cs.length := by
  unfold signedExponent? at h
  split at h <;>
  · obtain ⟨⟨ds, rest'⟩, hd, he⟩ := Option.map_eq_some_iff.mp h
    obtain ⟨_, rfl⟩ := Prod.mk.inj he
    have := length_of_digits? hd
    try simp only [List.length_cons]
    omega

theorem length_of_exponent? {cs rest : List Char} {e : Option Int}
    (h : exponent? cs = some (e, rest)) : rest.length ≤ cs.length := by
  unfold exponent? at h
  split at h
  · obtain ⟨⟨e', rest'⟩, hd, he⟩ := Option.map_eq_some_iff.mp h
    obtain ⟨_, rfl⟩ := Prod.mk.inj he
    have := length_of_signedExponent? hd
    simp only [List.length_cons]
    omega
  · obtain ⟨⟨e', rest'⟩, hd, he⟩ := Option.map_eq_some_iff.mp h
    obtain ⟨_, rfl⟩ := Prod.mk.inj he
    have := length_of_signedExponent? hd
    simp only [List.length_cons]
    omega
  · obtain ⟨_, rfl⟩ := Prod.mk.inj (Option.some.inj h)
    exact Nat.le_refl _

theorem length_sign (cs : List Char) : (sign cs).2.length ≤ cs.length := by
  unfold sign
  split <;> simp

/-- What follows a number is shorter than the text. -/
theorem length_of_read? {cs rest : List Char} {n : Numeral} (h : read? cs = some (n, rest)) :
    rest.length < cs.length := by
  simp only [read?, Option.bind_eq_bind, Option.bind_eq_some_iff] at h
  obtain ⟨⟨whole, cs₁⟩, h₁, ⟨fraction, cs₂⟩, h₂, ⟨exponent, cs₃⟩, h₃, h⟩ := h
  obtain ⟨_, rfl⟩ := Prod.mk.inj (Option.some.inj h)
  have h₀ := length_sign cs
  have h₁ : cs₁.length < (sign cs).2.length := length_of_whole? h₁
  have h₂ : cs₂.length ≤ cs₁.length := length_of_fraction? h₂
  have h₃ : cs₃.length ≤ cs₂.length := length_of_exponent? h₃
  simp only
  omega

end Numeral

end EcmaWriter
