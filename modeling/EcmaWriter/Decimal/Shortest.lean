/-!
# EcmaWriter - Shortest decimal text of a floating-point value

A finite value is written with the fewest digits that read back as the same
value, and of those with the digits nearest to it. The reals that read back as
`m * 2 ^ q` form an interval around it; its ends belong to it when `m` is even.
Digits are searched on decimal grids that get finer, from one digit to seventeen.

Main definitions:

- `Decimal.digits`: the shortest digits and their exponent.
- `Decimal.Style`: where positional notation ends and how an exponent looks.
- `Decimal.shortest`: the text of a value.
-/

namespace EcmaWriter

namespace Decimal

/-! ## Binary value -/

/-- Significand and exponent of the absolute value of a finite float. -/
def binaryParts (x : Float) : Nat × Int :=
  let bits := x.toBits.toNat
  let exponent : Nat := bits / Nat.pow 2 52 % Nat.pow 2 11
  let fraction : Nat := bits % Nat.pow 2 52
  if exponent = 0 then (fraction, -1074) else (fraction + Nat.pow 2 52, (exponent : Int) - 1075)

/-- A ratio of natural numbers. -/
structure Ratio where
  num : Nat
  den : Nat

/-- `n * 2 ^ q` as a ratio. -/
def scaleTwo (n : Nat) (q : Int) : Ratio :=
  if 0 ≤ q then ⟨n * Nat.pow 2 q.toNat, 1⟩ else ⟨n, Nat.pow 2 (-q).toNat⟩

/-- A ratio divided by `10 ^ k`. -/
def Ratio.overTen (r : Ratio) (k : Int) : Ratio :=
  if 0 ≤ k then ⟨r.num, r.den * Nat.pow 10 k.toNat⟩
  else ⟨r.num * Nat.pow 10 (-k).toNat, r.den⟩

/-- Whether `n` is at most a ratio. -/
def Ratio.atLeast (r : Ratio) (n : Nat) : Bool :=
  n * r.den ≤ r.num

/-! ## Decimal search -/

/-- The value and the ends of the interval that reads back as it, in quarters of
the last binary place. -/
structure Interval where
  low : Ratio
  value : Ratio
  high : Ratio
  closed : Bool

/-- The interval around `m * 2 ^ q`. Below a power of two it is half as wide. -/
def interval (m : Nat) (q : Int) : Interval where
  low := scaleTwo (if m = Nat.pow 2 52 ∧ -1074 < q then 4 * m - 1 else 4 * m - 2) (q - 2)
  value := scaleTwo (4 * m) (q - 2)
  high := scaleTwo (4 * m + 2) (q - 2)
  closed := m % 2 = 0

/-- Whether `n * 10 ^ k` lies in an interval. -/
def Interval.has (i : Interval) (k : Int) (n : Nat) : Bool :=
  let low := i.low.overTen k
  let high := i.high.overTen k
  if i.closed then low.num ≤ n * low.den && n * high.den ≤ high.num
  else low.num < n * low.den && n * high.den < high.num

/-- The one of the value's two neighbours on the grid of `10 ^ k` that lies in
the interval and is nearest to the value. Of two equally near the even one is
taken. -/
def Interval.nearest? (i : Interval) (k : Int) : Option Nat :=
  let v := i.value.overTen k
  let below := v.num / v.den
  let rest := v.num % v.den
  let up := 2 * rest > v.den || (2 * rest = v.den && below % 2 = 1)
  let first := if up then below + 1 else below
  let second := if up then below else below + 1
  if i.has k first then some first
  else if i.has k second then some second
  else none

/-- The exponent of the first digit, found by trying exponents from `k` down. -/
def leadingExponent (v : Ratio) : Nat → Int → Int
  | 0, k => k
  | fuel + 1, k => if (v.overTen k).atLeast 1 then k else leadingExponent v fuel (k - 1)

/-- Try the grids with `count` digits and more, up to seventeen. -/
def search (i : Interval) (leading : Int) : Nat → Nat → Nat × Int
  | 0, count => (((i.value.overTen (leading - count)).num /
      (i.value.overTen (leading - count)).den), leading - count)
  | fuel + 1, count =>
    match i.nearest? (leading - count) with
    | some n => (n, leading - count)
    | none => search i leading fuel (count + 1)

/-- Drop the zeros at the end of a number, counting them into the exponent. -/
def dropZeros : Nat → Nat × Int → Nat × Int
  | 0, r => r
  | fuel + 1, (n, k) => if n ≠ 0 ∧ n % 10 = 0 then dropZeros fuel (n / 10, k + 1) else (n, k)

/-- The shortest digits of a positive value `m * 2 ^ q`, as a number `n` and the
exponent `k` of its last digit. -/
def digits (m : Nat) (q : Int) : Nat × Int :=
  let i := interval m q
  let leading := leadingExponent i.value 640 309
  dropZeros 20 (search i leading 17 0)

/-! ## Text -/

/-- How a decimal is written: which exponents of the first digit are written out
in positions, and how many digits an exponent has at least. -/
structure Style where
  leastPositional : Int
  pastPositional : Int
  exponentDigits : Nat

/-- Put zeros in front up to a width. -/
def padLeft (width : Nat) (text : String) : String :=
  String.ofList (List.replicate (width - text.length) '0') ++ text

/-- Digits `n` with last exponent `k`, written out in positions. -/
def positional (n : Nat) (k : Int) : String :=
  if 0 ≤ k then toString n ++ String.ofList (List.replicate k.toNat '0') ++ ".0"
  else
    let places := (-k).toNat
    let text := (padLeft (places + 1) (toString n)).toList
    String.ofList (text.take (text.length - places)) ++ "." ++
      String.ofList (text.drop (text.length - places))

/-- Digits `n` whose first has exponent `e`, in scientific notation. -/
def scientific (style : Style) (n : Nat) (e : Int) : String :=
  let mantissa := match (toString n).toList with
    | [] => ""
    | [d] => String.ofList [d]
    | d :: ds => String.ofList (d :: '.' :: ds)
  mantissa ++ (if e < 0 then "e-" else "e+") ++
    padLeft style.exponentDigits (toString e.natAbs)

/-- The text of a nonnegative decimal. -/
def text (style : Style) (n : Nat) (k : Int) : String :=
  let e := k + (toString n).length - 1
  if n = 0 then "0.0"
  else if style.leastPositional ≤ e ∧ e < style.pastPositional then positional n k
  else scientific style n e

/-- The shortest text of a finite value. -/
def shortest (style : Style) (x : Float) : String :=
  let (m, q) := binaryParts x
  let (n, k) := if m = 0 then (0, 0) else digits m q
  (if x.toBits.toNat / Nat.pow 2 63 = 1 then "-" else "") ++ text style n k

end Decimal

end EcmaWriter
