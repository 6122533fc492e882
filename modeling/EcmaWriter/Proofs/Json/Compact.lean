import EcmaWriter.Json.Value
import EcmaWriter.Proofs.Json.Text

/-!
# EcmaWriter - Reading compact text

The compact text of a value is one of the texts of what the value reads as: no blanks, whole
numbers by their decimal digits, and only those characters escaped that have to be.

Main results:

- Definition `Json.draft`: what a value reads as.
- Theorem `Json.hasText_compact`: compact text is a text of that.
- Theorem `Document.ofText_compact`: compact text reads as its value.
-/

namespace EcmaWriter

/-! ## Numbers -/

namespace Numeral

/-- What the decimal text of a whole number reads as. -/
def ofInt (n : Int) : Numeral :=
  ofParts (n < 0) (Nat.toDigits 10 n.natAbs) none none

/-- A number is written with its sign and its digits. -/
theorem toList_toString (n : Int) :
    (toString n).toList = (if n < 0 then ['-'] else []) ++ Nat.toDigits 10 n.natAbs := by
  rw [Int.toString_eq_repr]
  cases n with
  | ofNat m => exact Nat.toList_repr
  | negSucc m =>
      rw [Int.repr, String.toList_append, Nat.toList_repr, if_pos (Int.negSucc_lt_zero m)]
      rfl

/-- Only zero starts with the digit zero, so decimal digits are the digits of a number. -/
theorem areWhole_toDigits (n : Nat) : AreWhole (Nat.toDigits 10 n) where
  digits := ⟨Nat.toDigits_ne_nil, fun _ hc =>
    Nat.isDigit_of_mem_toDigits (by decide) (by decide) hc⟩
  zero := toDigits_eq_of_head

/-- What is written of a number is a numeral of it. -/
theorem hasText_toString (n : Int) : (ofInt n).HasText (toString n).toList := by
  have h := HasText.parts (n < 0) (areWhole_toDigits n.natAbs) .none .none
  rw [toList_toString, ofInt]
  simpa using h

/-- More digits make no number smaller. -/
theorem le_ofDigitChars (cs : List Char) (n : Nat) : n ≤ Nat.ofDigitChars 10 cs n := by
  induction cs generalizing n with
  | nil => exact Nat.le_refl n
  | cons c cs ih =>
      rw [Nat.ofDigitChars_cons]
      refine Nat.le_trans ?_ (ih _)
      omega

/-- Digits whose number fits are all appended. -/
theorem extend_of_le {cs : List Char} {n : Nat} (h : Nat.ofDigitChars 10 cs n ≤ maxSignificand) :
    extend n cs = (Nat.ofDigitChars 10 cs n, 0) := by
  induction cs generalizing n with
  | nil => rfl
  | cons c cs ih =>
      rw [Nat.ofDigitChars_cons] at h ⊢
      have hgrown : 10 * n + digitValue c ≤ maxSignificand := Nat.le_trans (le_ofDigitChars cs _) h
      rw [extend, if_pos hgrown]
      exact ih h

/-- A number of less than 64 bits is kept exactly. -/
theorem ofInt_eq_integer {n : Int} (h : n.natAbs ≤ UInt64.size / 2) : ofInt n = .integer n := by
  have hfits : Nat.ofDigitChars 10 (Nat.toDigits 10 n.natAbs) 0 ≤ maxSignificand := by
    rw [Nat.ofDigitChars_ten_toDigits]
    exact Nat.le_trans h (by decide)
  rw [ofInt, ofParts, extend_of_le hfits, Nat.ofDigitChars_ten_toDigits]
  simp only [if_pos, ofWhole]
  by_cases hn : n < 0
  · have hzero : n.natAbs ≠ 0 := by omega
    rw [decide_eq_true hn, Bool.not_true, if_neg Bool.false_ne_true, if_neg hzero, if_pos h]
    congr
    omega
  · rw [decide_eq_false hn, Bool.not_false, if_pos rfl]
    congr
    omega

end Numeral

/-! ## Strings -/

namespace StringUnit

/-- Two digits are enough for every control character. -/
theorem code?_hexDigit {n : Nat} (h : n < 0x20) :
    code? '0' '0' (Json.hexDigit (n / 16)) (Json.hexDigit (n % 16)) = some n := by
  have hall : ∀ n < 0x20,
      code? '0' '0' (Json.hexDigit (n / 16)) (Json.hexDigit (n % 16)) = some n := by decide
  exact hall n h

/-- A character is quoted by one of its texts. -/
theorem charHasText_quoteChar (c : Char) : CharHasText c (Json.quoteChar c) := by
  unfold Json.quoteChar
  split
  · subst c
    exact .letter rfl
  rename_i hquote
  split
  · subst c
    exact .letter rfl
  rename_i hescape
  split
  · subst c
    exact .letter rfl
  split
  · subst c
    exact .letter rfl
  split
  · subst c
    exact .letter rfl
  split
  · subst c
    exact .letter rfl
  split
  · subst c
    exact .letter rfl
  split
  · rename_i hcontrol
    exact .code (code?_hexDigit hcontrol)
  · rename_i hcontrol
    exact .plain hquote hescape (Nat.not_lt.mp hcontrol)

/-- Quoted characters stand for the characters. -/
theorem haveText_quoteChars (cs : List Char) : HaveText cs (cs.flatMap Json.quoteChar) := by
  induction cs with
  | nil => exact .nil
  | cons c cs ih => exact .cons (charHasText_quoteChar c) ih

end StringUnit

namespace Json

/-! ## Drafts -/

mutual

/-- What a value reads as. -/
def draft : Json → Draft
  | .null => .null
  | .boolean value => .boolean value
  | .number value => .number (.ofInt value)
  | .string value => .string (some value)
  | .array items => .array (itemDrafts items) true
  | .object members => .object (memberDrafts members) true

/-- What the items of an array read as. -/
def itemDrafts : List Json → List Draft
  | [] => []
  | item :: items => item.draft :: itemDrafts items

/-- What the members of an object read as. -/
def memberDrafts : List (String × Json) → List (Option String × Draft)
  | [] => []
  | (key, value) :: members => (some key, value.draft) :: memberDrafts members

end

/-! ## Tokens -/

/-- A quoted text is a text of one token. -/
theorem hasText_quote (text : String) : (Token.string (some text)).HasText (quote text).toList := by
  have hquote : (quote text).toList = '"' :: (text.toList.flatMap quoteChar ++ ['"']) := by
    simp [quote]
  rw [hquote]
  exact .quoted (StringUnit.haveText_quoteChars text.toList)

mutual

/-- Compact text is a text of the tokens of the value, whatever tokens come after it. -/
theorem haveText_compact (j : Json) {tokens : List Token} {rest : List Char}
    (hrest : Token.HaveText tokens rest) :
    Token.HaveText (j.draft.tokens ++ tokens) (j.compact.toList ++ rest) := by
  cases j with
  | null => exact .cons .nullWord hrest
  | boolean value =>
      cases value with
      | true => exact .cons .trueWord hrest
      | false => exact .cons .falseWord hrest
  | number value => exact .cons (.decimal (Numeral.hasText_toString value)) hrest
  | string value => exact .cons (hasText_quote value) hrest
  | array items =>
      have hclose := hrest.mark_cons (c := ']') rfl
      have hopen := (haveText_compactItems items hclose).mark_cons (c := '[') rfl
      simpa [draft, Draft.tokens, compact] using hopen
  | object members =>
      have hclose := hrest.mark_cons (c := '\x7d') rfl
      have hopen := (haveText_compactMembers members hclose).mark_cons (c := '\x7b') rfl
      simpa [draft, Draft.tokens, compact] using hopen

/-- Compact text of items, with what comes after it. -/
theorem haveText_compactItems (items : List Json) {tokens : List Token} {rest : List Char}
    (hrest : Token.HaveText tokens rest) :
    Token.HaveText (Draft.itemTokens (itemDrafts items) ++ tokens)
      ((compactItems items).toList ++ rest) := by
  match items with
  | [] => exact hrest
  | [item] => exact haveText_compact item hrest
  | item :: next :: items =>
      have hcomma := (haveText_compactItems (next :: items) hrest).mark_cons (c := ',') rfl
      have hitems := haveText_compact item hcomma
      simpa [itemDrafts, Draft.itemTokens_cons_cons, compactItems] using hitems

/-- Compact text of members, with what comes after it. -/
theorem haveText_compactMembers (members : List (String × Json)) {tokens : List Token}
    {rest : List Char} (hrest : Token.HaveText tokens rest) :
    Token.HaveText (Draft.memberTokens (memberDrafts members) ++ tokens)
      ((compactMembers members).toList ++ rest) := by
  match members with
  | [] => exact hrest
  | [(key, value)] =>
      have hcolon := (haveText_compact value hrest).mark_cons (c := ':') rfl
      have hmember := Token.HaveText.cons (hasText_quote key) hcolon
      simpa [memberDrafts, Draft.memberTokens, compactMembers] using hmember
  | (key, value) :: next :: members =>
      have hcomma := (haveText_compactMembers (next :: members) hrest).mark_cons (c := ',') rfl
      have hcolon := (haveText_compact value hcomma).mark_cons (c := ':') rfl
      have hmember := Token.HaveText.cons (hasText_quote key) hcolon
      simpa [memberDrafts, Draft.memberTokens_cons_cons, compactMembers] using hmember

end

/-- Compact text is a text of what the value reads as. -/
theorem hasText_compact (j : Json) : j.draft.HasText j.compact := by
  have h := j.haveText_compact .nil
  rwa [List.append_nil, List.append_nil] at h

end Json

/-- The compact text of a value is read as the value and nothing else. -/
theorem Document.ofText_compact (j : Json) : Document.ofText j.compact = ⟨j.draft, false⟩ :=
  ofText_of_hasText j.hasText_compact

end EcmaWriter
