import EcmaWriter.Json.Numeral

/-!
# EcmaWriter - JSON tokens

A JSON text as a list of tokens. The list ends with a stray token where the text
stops being JSON; nothing is read after that.

Main definitions:

- `Token`: tokens.
- `Token.read`: the tokens of a text.
-/

namespace EcmaWriter

/-- A token of a JSON text. A string holds no text if one of its escapes is half
of a surrogate pair: such a string can be skipped but not read. -/
inductive Token
  | openArray
  | closeArray
  | openObject
  | closeObject
  | comma
  | colon
  | null
  | boolean (value : Bool)
  | number (value : Numeral)
  | string (text : Option String)
  | stray
deriving DecidableEq

/-- A piece of a string: a character as it stands, or the code of an escape of
four hexadecimal digits. -/
inductive StringUnit
  | plain (c : Char)
  | code (value : Nat)
deriving DecidableEq

namespace StringUnit

/-- Value of a hexadecimal digit. -/
def hexValue? (c : Char) : Option Nat :=
  if c.isDigit then some (c.toNat - 48)
  else if 'a' ≤ c ∧ c ≤ 'f' then some (c.toNat - 87)
  else if 'A' ≤ c ∧ c ≤ 'F' then some (c.toNat - 55)
  else none

/-- Value of four hexadecimal digits. -/
def code? (a b c d : Char) : Option Nat := do
  let a ← hexValue? a
  let b ← hexValue? b
  let c ← hexValue? c
  let d ← hexValue? d
  return ((a * 16 + b) * 16 + c) * 16 + d

/-- The character that an escape of one letter stands for. -/
def escape? : Char → Option Char
  | '"' => some '"'
  | '\\' => some '\\'
  | '/' => some '/'
  | 'b' => some (Char.ofNat 8)
  | 'f' => some (Char.ofNat 12)
  | 'n' => some '\n'
  | 'r' => some '\r'
  | 't' => some '\t'
  | _ => none

/-- The piece that an escape stands for, after its backslash, and what follows. -/
def escaped? : List Char → Option (StringUnit × List Char)
  | [] => none
  | e :: cs =>
    if e = 'u' then
      match cs with
      | a :: b :: c :: d :: rest => (code? a b c d).map fun value => (code value, rest)
      | _ => none
    else (escape? e).map fun c => (plain c, cs)

theorem length_of_escaped? {cs rest : List Char} {u : StringUnit}
    (h : escaped? cs = some (u, rest)) : rest.length < cs.length := by
  unfold escaped? at h
  split at h
  · contradiction
  · split at h
    · split at h
      · obtain ⟨_, _, h⟩ := Option.map_eq_some_iff.mp h
        obtain ⟨_, rfl⟩ := Prod.mk.inj h
        simp only [List.length_cons]
        omega
      · contradiction
    · obtain ⟨_, _, h⟩ := Option.map_eq_some_iff.mp h
      obtain ⟨_, rfl⟩ := Prod.mk.inj h
      exact Nat.lt_succ_self _

/-- Read up to the closing quote. The pieces read before are given in reverse. -/
def read? (before : List StringUnit) : List Char → Option (List StringUnit × List Char)
  | [] => none
  | c :: cs =>
    if c = '"' then some (before.reverse, cs)
    else if c = '\\' then
      match _h : escaped? cs with
      | some (u, rest) => read? (u :: before) rest
      | none => none
    else if c.toNat < 0x20 then none
    else read? (plain c :: before) cs
termination_by cs => cs.length
decreasing_by
  · have := length_of_escaped? ‹_›
    simp only [List.length_cons]
    omega
  · exact Nat.lt_succ_self _

/-- Whether a code is the first half of a surrogate pair. -/
def isHighSurrogate (code : Nat) : Bool :=
  0xD800 ≤ code && code < 0xDC00

/-- Whether a code is the second half of a surrogate pair. -/
def isLowSurrogate (code : Nat) : Bool :=
  0xDC00 ≤ code && code < 0xE000

/-- The character of a surrogate pair. -/
def pairChar (high low : Nat) : Char :=
  Char.ofNat (0x10000 + (high - 0xD800) * 0x400 + (low - 0xDC00))

/-- The characters of the pieces, unless a half of a surrogate pair stands alone.
The characters before are given in reverse. -/
def join? (before : List Char) : List StringUnit → Option (List Char)
  | [] => some before.reverse
  | .plain c :: us => join? (c :: before) us
  | .code high :: .code low :: us =>
    if isHighSurrogate high then
      if isLowSurrogate low then join? (pairChar high low :: before) us else none
    else if isLowSurrogate high then none
    else join? (Char.ofNat high :: before) (.code low :: us)
  | .code value :: us =>
    if isHighSurrogate value || isLowSurrogate value then none
    else join? (Char.ofNat value :: before) us

/-- What follows the closing quote is no longer than the text. -/
theorem length_of_read? {before us : List StringUnit} {cs rest : List Char}
    (h : read? before cs = some (us, rest)) : rest.length ≤ cs.length := by
  fun_induction read? before cs with
  | case1 => contradiction
  | case2 =>
    obtain ⟨_, rfl⟩ := Prod.mk.inj (Option.some.inj h)
    exact Nat.le_succ _
  | case3 before cs u rest hu _ ih =>
    have := ih h
    have := length_of_escaped? hu
    simp only [List.length_cons]
    omega
  | case4 => contradiction
  | case5 => contradiction
  | case6 _ _ _ _ _ _ ih => exact Nat.le_succ_of_le (ih h)

end StringUnit

namespace Token

/-- The token of a word whose first letter has been read, and what follows. -/
def word (token : Token) (letters : String) (cs : List Char) : Token × List Char :=
  if letters.toList.isPrefixOf cs then (token, cs.drop letters.length) else (stray, [])

/-- The string whose opening quote has been read, and what follows. -/
def text (cs : List Char) : Token × List Char :=
  match StringUnit.read? [] cs with
  | some (us, rest) => (string ((StringUnit.join? [] us).map String.ofList), rest)
  | none => (stray, [])

/-- The number that starts with a character, and what follows. -/
def numeral (c : Char) (cs : List Char) : Token × List Char :=
  match Numeral.read? (c :: cs) with
  | some (n, rest) => (number n, rest)
  | none => (stray, [])

/-- The token of a punctuation mark. -/
def mark? : Char → Option Token
  | '[' => some openArray
  | ']' => some closeArray
  | '\x7b' => some openObject
  | '\x7d' => some closeObject
  | ',' => some comma
  | ':' => some colon
  | _ => none

/-- The token that starts with a character other than a mark, and what follows. -/
def nextOther (c : Char) (cs : List Char) : Token × List Char :=
  if c = '"' then text cs
  else if c = 'n' then word null "ull" cs
  else if c = 't' then word (boolean true) "rue" cs
  else if c = 'f' then word (boolean false) "alse" cs
  else numeral c cs

/-- The token that starts with a character, and what follows. -/
def next (c : Char) (cs : List Char) : Token × List Char :=
  match mark? c with
  | some token => (token, cs)
  | none => nextOther c cs

theorem length_word (token : Token) (letters : String) (cs : List Char) :
    (word token letters cs).2.length ≤ cs.length := by
  unfold word
  split <;> simp

theorem length_text (cs : List Char) : (text cs).2.length ≤ cs.length := by
  unfold text
  split
  · next h => exact StringUnit.length_of_read? h
  · simp

theorem length_numeral (c : Char) (cs : List Char) :
    (numeral c cs).2.length ≤ cs.length := by
  unfold numeral
  split
  · next h =>
    exact Nat.lt_succ_iff.mp (Numeral.length_of_read? h)
  · simp

/-- What follows a token is no longer than what follows its first character. -/
theorem length_next (c : Char) (cs : List Char) : (next c cs).2.length ≤ cs.length := by
  unfold next
  split
  · exact Nat.le_refl _
  · unfold nextOther
    split
    · exact length_text cs
    split
    · exact length_word ..
    split
    · exact length_word ..
    split
    · exact length_word ..
    · exact length_numeral c cs

/-- Whether a character may stand between tokens. -/
def isSeparator (c : Char) : Bool :=
  c == ' ' || c == '\t' || c == '\n' || c == '\r'

/-- The tokens of a text. -/
def read : List Char → List Token
  | [] => []
  | c :: cs =>
    if isSeparator c then read cs
    else (next c cs).1 :: read (next c cs).2
termination_by cs => cs.length
decreasing_by
  · simp
  · have := length_next c cs
    simp only [List.length_cons]
    omega

end Token

end EcmaWriter
