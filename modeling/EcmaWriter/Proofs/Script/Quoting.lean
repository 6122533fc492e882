import EcmaWriter.Proofs.Script.Literal
import Mathlib.Data.List.Chain

/-!
# EcmaWriter - String literals denote their values

The literal of a value is legal in strict mode and denotes the value, with a line feed for
every carriage return that has a line feed after it.  Nothing else is lost: values that
agree up to such line breaks have the same literal, and no others do.

Whether a body is legal depends on what stands after a backslash, so a body is cut into
units first, where a backslash and the character after it are one unit.  Digits of an
escape are units of their own, which only matters for `\0`.

Main results:

- Definition `IsLiteral`: a text is one string literal that denotes a value.
- Theorem `isLiteral_stringLiteral_and_eq_iff`: what the literal of a value denotes, and
  which values have the same literal.
-/

namespace EcmaWriter

namespace Script

/-! ## Legal literals -/

/-- The characters of a literal's body, each with the backslash that escapes it. -/
def bodyUnits : List Char → List (List Char)
  | [] => []
  | '\\' :: c :: cs => ['\\', c] :: bodyUnits cs
  | c :: cs => [c] :: bodyUnits cs

/-- What may stand between the quotes of a literal in strict mode. -/
structure LegalBody (body : List Char) : Prop where
  /-- There are no control characters and no line terminators, escaped or not. -/
  printable : ∀ c ∈ body, 0x20 ≤ c.toNat ∧ isLineTerminator c = false
  /-- Every quote is escaped. -/
  escapedQuotes : ['"'] ∉ bodyUnits body
  /-- Every backslash has a character to escape, so the closing quote is not escaped. -/
  complete : ['\\'] ∉ bodyUnits body
  /-- The only digit that is escaped is zero. -/
  zero : ∀ d, ['\\', d] ∈ bodyUnits body → d.isDigit = true → d = '0'
  /-- After an escaped zero there is no digit. -/
  noOctal : (bodyUnits body).IsChain fun u v => u = ['\\', '0'] → v.head?.any Char.isDigit = false

/-- Whether a text is one literal in double quotes that denotes a value. -/
def IsLiteral (text : String) (value : List Char) : Prop :=
  ∃ body, text.toList = '"' :: body ++ ['"'] ∧ LegalBody body ∧
    ∀ rest, readCharacters '"' (body ++ '"' :: rest) = some (value, rest)

/-! ## Bodies of escaped texts -/

theorem bodyUnits_cons {c : Char} (h : c ≠ '\\') (cs : List Char) :
    bodyUnits (c :: cs) = [c] :: bodyUnits cs := by
  rw [bodyUnits]
  rintro d ds rfl
  exact absurd rfl h

/-- The first unit starts with the first character. -/
theorem head?_of_mem_head?_bodyUnits {cs u : List Char} (h : u ∈ (bodyUnits cs).head?) :
    u.head? = cs.head? := by
  unfold bodyUnits at h
  split at h
  · contradiction
  all_goals
    rw [List.head?_cons, Option.mem_some] at h
    subst h
    rfl

namespace LegalBody

theorem nil : LegalBody [] where
  printable := by simp
  escapedQuotes := by simp [bodyUnits]
  complete := by simp [bodyUnits]
  zero := by simp [bodyUnits]
  noOctal := List.isChain_nil

variable {body : List Char}

/-- A character that stands for itself may come before a legal body. -/
theorem plain {c : Char} (hplain : IsPlain c) (h : LegalBody body) : LegalBody (c :: body) := by
  rcases hplain with ⟨hbackslash, hquote, hline, hprintable⟩
  have hunits := bodyUnits_cons hbackslash body
  refine ⟨?printable, ?escapedQuotes, ?complete, ?zero, ?noOctal⟩
  case printable =>
    rintro d (_ | ⟨_, hd⟩)
    · exact ⟨hprintable, hline⟩
    · exact h.printable d hd
  case escapedQuotes =>
    rw [hunits, List.mem_cons, not_or]
    exact ⟨by simpa using hquote.symm, h.escapedQuotes⟩
  case complete =>
    rw [hunits, List.mem_cons, not_or]
    exact ⟨by simpa using hbackslash.symm, h.complete⟩
  case zero =>
    intro d hd
    rw [hunits, List.mem_cons] at hd
    rcases hd with hd | hd
    · exact absurd hd (by simp)
    · exact h.zero d hd
  case noOctal =>
    rw [hunits, List.isChain_cons]
    refine ⟨?_, h.noOctal⟩
    intro u _ hc
    exact absurd hc (by simp)

/-- A backslash and what it escapes may come before a legal body, where zero may be escaped
if the body does not start with a digit. -/
theorem escape {c : Char} (hprintable : 0x20 ≤ c.toNat ∧ isLineTerminator c = false)
    (hdigit : c.isDigit = true → c = '0' ∧ body.head?.any Char.isDigit = false)
    (h : LegalBody body) : LegalBody ('\\' :: c :: body) := by
  have hunits : bodyUnits ('\\' :: c :: body) = ['\\', c] :: bodyUnits body := rfl
  refine ⟨?printable, ?escapedQuotes, ?complete, ?zero, ?noOctal⟩
  case printable =>
    rintro d (_ | ⟨_, _ | ⟨_, hd⟩⟩)
    · decide
    · exact hprintable
    · exact h.printable d hd
  case escapedQuotes =>
    rw [hunits, List.mem_cons, not_or]
    exact ⟨by simp, h.escapedQuotes⟩
  case complete =>
    rw [hunits, List.mem_cons, not_or]
    exact ⟨by simp, h.complete⟩
  case zero =>
    intro d hd hdigits
    rw [hunits, List.mem_cons] at hd
    rcases hd with hd | hd
    · have hc : d = c := by simpa using hd
      subst hc
      exact (hdigit hdigits).1
    · exact h.zero d hd hdigits
  case noOctal =>
    rw [hunits, List.isChain_cons]
    refine ⟨?_, h.noOctal⟩
    intro u hu hc
    have hzero : c = '0' := by simpa using hc
    subst hzero
    rw [head?_of_mem_head?_bodyUnits hu]
    exact (hdigit rfl).2

/-- An escaped character may come before a legal body. -/
theorem append {c : Char} {next : Option Char} {text : List Char} (hform : EscapeForm c next text)
    (hnext : next.any Char.isDigit = false → body.head?.any Char.isDigit = false)
    (h : LegalBody body) : LegalBody (text ++ body) := by
  cases hform with
  | letter l hletter hvalue =>
      rcases of_mem_shortEscapes hletter with ⟨-, -, hline, hdigit, hprintable⟩
      refine h.escape ⟨hprintable, hline⟩ ?_
      intro htrue
      exact absurd htrue (Bool.eq_false_iff.mp hdigit)
  | nul hvalue hdigit => exact h.escape (by decide) fun _ => ⟨rfl, hnext hdigit⟩
  | two n hcontrol hvalue =>
      have hlow := h.plain (isPlain_upperHexDigit (n % 16) (by omega))
      have hhigh := hlow.plain (isPlain_upperHexDigit (n / 16) (by omega))
      exact hhigh.escape (by decide) fun h => absurd h (by decide)
  | four d hdigit hvalue =>
      have hdigits := (((h.plain (isPlain_of_mem hdigit)).plain (c := '2') (by decide)).plain
        (c := '0') (by decide)).plain (c := '2') (by decide)
      exact hdigits.escape (by decide) fun h => absurd h (by decide)
  | plain hplain => exact h.plain hplain

end LegalBody

theorem legalBody_escapeText (cs : List Char) : LegalBody (escapeText cs) := by
  induction cs using escapeText.induct with
  | case1 => exact .nil
  | case2 cs ih => exact ih.escape (by decide) fun h => absurd h (by decide)
  | case3 c cs hbreak ih =>
      rw [escapeText_cons hbreak]
      refine ih.append (escapeForm_escapeChar c _) ?_
      intro hnext
      have hhead : (escapeText cs ++ []).head?.any Char.isDigit = false :=
        isDigit_head_escapeText rfl hnext
      rwa [List.append_nil] at hhead

/-! ## Values with the same literal -/

/-- The characters between the quotes, where no line breaks are joined. -/
def escapeEach : List Char → List Char
  | [] => []
  | c :: cs => escapeChar c cs.head? ++ escapeEach cs

/-- Of the character after it, an escape only depends on whether it is a digit. -/
theorem escapeChar_congr (c : Char) {next next' : Option Char}
    (h : next.any Char.isDigit = next'.any Char.isDigit) :
    escapeChar c next = escapeChar c next' := by
  unfold escapeChar
  rw [h]

theorem isDigit_head_joinLineBreaks (cs : List Char) :
    (joinLineBreaks cs).head?.any Char.isDigit = cs.head?.any Char.isDigit := by
  unfold joinLineBreaks
  split <;> rfl

/-- Whether line breaks are joined before a text is escaped or while it is makes no
difference. -/
theorem escapeText_eq_escapeEach (cs : List Char) :
    escapeText cs = escapeEach (joinLineBreaks cs) := by
  induction cs using escapeText.induct with
  | case1 => rfl
  | case2 cs ih =>
      have hfeed : ∀ next, escapeChar '\n' next = ['\\', 'n'] := fun _ => rfl
      rw [escapeText, joinLineBreaks, escapeEach, hfeed, ih]
      rfl
  | case3 c cs hbreak ih =>
      rw [escapeText_cons hbreak, joinLineBreaks_cons hbreak, escapeEach, ih,
        escapeChar_congr c (isDigit_head_joinLineBreaks cs)]

theorem toList_stringLiteral (value : String) :
    (stringLiteral value).toList = '"' :: escapeText value.toList ++ ['"'] := by
  simp [stringLiteral]

theorem isLiteral_stringLiteral (value : String) :
    IsLiteral (stringLiteral value) (joinLineBreaks value.toList) := by
  refine ⟨escapeText value.toList, toList_stringLiteral value, legalBody_escapeText _, ?_⟩
  intro rest
  exact readCharacters_escapeText value.toList rest

/-- A literal denotes one value only. -/
theorem IsLiteral.unique {text : String} {v w : List Char} (hv : IsLiteral text v)
    (hw : IsLiteral text w) : v = w := by
  rcases hv with ⟨body, htext, -, hv⟩
  rcases hw with ⟨body', htext', -, hw⟩
  have hsame : body ++ ['"'] = body' ++ ['"'] := by
    rw [htext] at htext'
    exact (List.cons.inj htext').2
  have hread := hv []
  rw [hsame, hw []] at hread
  exact (Prod.mk.inj (Option.some.inj hread)).1.symm

/-- The literal of a value denotes the value up to line breaks, and two values have the
same literal exactly if they agree up to line breaks. -/
theorem isLiteral_stringLiteral_and_eq_iff :
    (∀ value, IsLiteral (stringLiteral value) (joinLineBreaks value.toList)) ∧
      ∀ v w, stringLiteral v = stringLiteral w ↔
        joinLineBreaks v.toList = joinLineBreaks w.toList := by
  refine ⟨isLiteral_stringLiteral, ?_⟩
  intro v w
  constructor
  · intro h
    have hv := isLiteral_stringLiteral v
    rw [h] at hv
    exact hv.unique (isLiteral_stringLiteral w)
  · intro h
    rw [← String.toList_inj, toList_stringLiteral, toList_stringLiteral,
      escapeText_eq_escapeEach, escapeText_eq_escapeEach, h]

/-- A carriage return stays if no line feed follows it in the value itself, and the digit
after a NUL that is written in full stays a digit. -/
example : stringLiteral "\r\r\n" = "\"\\r\\n\"" ∧ stringLiteral "\x00\x001" = "\"\\0\\x001\"" := by
  decide

end Script

end EcmaWriter
