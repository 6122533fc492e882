import EcmaWriter.Text.StringLiteral

/-!
# EcmaWriter - Reading string literals

How the language reads the characters of a string literal, in strict mode: escapes by
one letter, by two or four hexadecimal digits or by a code point in braces, continued
lines, and no legacy octal escapes.  Surrogates are not characters, so escapes of
surrogates are not read.

Main results:

- Definition `readCharacters`: the characters of a literal up to its closing quote.
- Theorem `readCharacters_escapeText`: an escaped text is read as the text itself, with
  a line feed for every carriage return that has a line feed after it.
-/

namespace EcmaWriter

namespace Script

/-! ## Escapes -/

/-- The value of a hexadecimal digit, of either case. -/
def hexValue? (c : Char) : Option Nat :=
  if c.isDigit then some (c.toNat - 48)
  else if 'a' ≤ c ∧ c ≤ 'f' then some (c.toNat - 87)
  else if 'A' ≤ c ∧ c ≤ 'F' then some (c.toNat - 55)
  else none

/-- The character whose code point is written in hexadecimal digits. -/
def codePoint? (digits : List Char) : Option Char := do
  let n ← digits.foldlM (fun n c => (hexValue? c).map (16 * n + ·)) 0
  if digits ≠ [] ∧ n.isValidChar then some (Char.ofNat n) else none

/-- The character that a letter after a backslash stands for. Most stand for themselves. -/
def escapedLetter : Char → Char
  | 'b' => Char.ofNat 8
  | 't' => '\t'
  | 'n' => '\n'
  | 'v' => Char.ofNat 11
  | 'f' => Char.ofNat 12
  | 'r' => '\r'
  | c => c

/-- Whether a character ends a line. -/
def isLineTerminator (c : Char) : Bool :=
  c = '\n' || c = '\r' || c = Char.ofNat 0x2028 || c = Char.ofNat 0x2029

/-- The character whose code point is written in a number of digits, with what follows. -/
def readDigits (count : Nat) (cs : List Char) : Option (List Char × List Char) :=
  if cs.length < count then none
  else (codePoint? (cs.take count)).map fun c => ([c], cs.drop count)

/-- The character whose code point is written in digits up to a closing brace, with what
follows the brace. -/
def readBraced (cs : List Char) : Option (List Char × List Char) := do
  let c ← codePoint? (cs.takeWhile (· ≠ '\x7d'))
  match cs.dropWhile (· ≠ '\x7d') with
  | [] => none
  | _ :: rest => some ([c], rest)

/-- What the characters after a backslash stand for, with what follows them. A continued
line stands for nothing. -/
def readEscape (cs : List Char) : Option (List Char × List Char) :=
  match cs with
  | [] => none
  | c :: rest =>
    if c = 'x' then readDigits 2 rest
    else if c = 'u' then
      if rest.head? = some '\x7b' then readBraced rest.tail else readDigits 4 rest
    else if c = '\r' ∧ rest.head? = some '\n' then some ([], rest.tail)
    else if isLineTerminator c then some ([], rest)
    else if c.isDigit then
      if c = '0' ∧ rest.head?.any Char.isDigit = false then some ([Char.ofNat 0], rest) else none
    else some ([escapedLetter c], rest)

/-- Digits are taken from what is there. -/
theorem length_of_readDigits {count : Nat} {cs value rest : List Char}
    (h : readDigits count cs = some (value, rest)) : rest.length ≤ cs.length := by
  rw [readDigits] at h
  split at h
  · contradiction
  · obtain ⟨c, -, heq⟩ := Option.map_eq_some_iff.mp h
    obtain ⟨-, rfl⟩ := Prod.mk.inj heq
    exact (List.drop_sublist count cs).length_le

/-- A code in braces is taken from what is there. -/
theorem length_of_readBraced {cs value rest : List Char} (h : readBraced cs = some (value, rest)) :
    rest.length ≤ cs.length := by
  simp only [readBraced, Option.bind_eq_bind, Option.bind_eq_some_iff] at h
  obtain ⟨c, -, h⟩ := h
  split at h
  · contradiction
  · rename_i brace after hafter
    obtain ⟨-, rfl⟩ := Prod.mk.inj (Option.some.inj h)
    have hsuffix := (List.dropWhile_suffix (l := cs) fun c => decide (c ≠ '\x7d')).length_le
    rw [hafter, List.length_cons] at hsuffix
    omega

/-- An escape has at least one character. -/
theorem length_of_readEscape {cs value rest : List Char} (h : readEscape cs = some (value, rest)) :
    rest.length < cs.length := by
  cases cs with
  | nil => exact absurd h (by simp [readEscape])
  | cons c cs =>
      have htail : cs.tail.length ≤ cs.length := (List.tail_sublist cs).length_le
      have hle : rest.length ≤ cs.length := by
        rw [readEscape] at h
        split at h
        · exact length_of_readDigits h
        split at h
        · split at h
          · exact Nat.le_trans (length_of_readBraced h) htail
          · exact length_of_readDigits h
        split at h
        · obtain ⟨-, rfl⟩ := Prod.mk.inj (Option.some.inj h)
          exact htail
        split at h
        · obtain ⟨-, rfl⟩ := Prod.mk.inj (Option.some.inj h)
          exact Nat.le_refl _
        split at h
        · split at h
          · obtain ⟨-, rfl⟩ := Prod.mk.inj (Option.some.inj h)
            exact Nat.le_refl _
          · contradiction
        · obtain ⟨-, rfl⟩ := Prod.mk.inj (Option.some.inj h)
          exact Nat.le_refl _
      exact Nat.lt_succ_of_le hle

/-- The characters of a literal up to its closing quote, with what follows the quote. -/
def readCharacters (quote : Char) (cs : List Char) : Option (List Char × List Char) :=
  match cs with
  | [] => none
  | c :: rest =>
    if c = quote then some ([], rest)
    else if c = '\\' then
      match _hescape : readEscape rest with
      | none => none
      | some (value, rest) => do
        let (more, rest) ← readCharacters quote rest
        some (value ++ more, rest)
    else if c = '\n' ∨ c = '\r' then none
    else do
      let (more, rest) ← readCharacters quote rest
      some (c :: more, rest)
termination_by cs.length
decreasing_by
  · exact Nat.lt_succ_of_lt (length_of_readEscape _hescape)
  · exact Nat.lt_succ_self _

/-- A literal goes on at least to its closing quote. -/
theorem length_of_readCharacters {quote : Char} {cs value rest : List Char}
    (h : readCharacters quote cs = some (value, rest)) : rest.length < cs.length := by
  fun_induction readCharacters quote cs generalizing value rest with
  | case1 => contradiction
  | case2 cs =>
      obtain ⟨-, rfl⟩ := Prod.mk.inj (Option.some.inj h)
      exact Nat.lt_succ_self _
  | case3 => contradiction
  | case4 cs value' after hescape _ ih =>
      obtain ⟨⟨more, last⟩, hmore, heq⟩ := Option.bind_eq_some_iff.mp h
      obtain ⟨-, rfl⟩ := Prod.mk.inj (Option.some.inj heq)
      have hescaped := length_of_readEscape hescape
      have hlast := ih hmore
      rw [List.length_cons]
      omega
  | case5 => contradiction
  | case6 c cs _ _ _ ih =>
      obtain ⟨⟨more, last⟩, hmore, heq⟩ := Option.bind_eq_some_iff.mp h
      obtain ⟨-, rfl⟩ := Prod.mk.inj (Option.some.inj heq)
      exact Nat.lt_succ_of_lt (ih hmore)

/-! ## Reading what was escaped -/

/-- A text in which every carriage return with a line feed after it is left out. -/
def joinLineBreaks : List Char → List Char
  | [] => []
  | '\r' :: '\n' :: cs => '\n' :: joinLineBreaks cs
  | c :: cs => c :: joinLineBreaks cs

/-- A character that starts no line break with the next one stays. -/
theorem joinLineBreaks_cons {c : Char} {cs : List Char}
    (h : ∀ tail, c = '\r' → cs = '\n' :: tail → False) :
    joinLineBreaks (c :: cs) = c :: joinLineBreaks cs := by
  rw [joinLineBreaks]
  exact h

/-- Characters are escaped one by one, but for line breaks of two. -/
theorem escapeText_cons {c : Char} {cs : List Char}
    (h : ∀ tail, c = '\r' → cs = '\n' :: tail → False) :
    escapeText (c :: cs) = escapeChar c cs.head? ++ escapeText cs := by
  rw [escapeText]
  exact h

/-- Without carriage returns there is nothing to join. -/
theorem joinLineBreaks_of_not_mem {cs : List Char} (h : '\r' ∉ cs) : joinLineBreaks cs = cs := by
  induction cs with
  | nil => rfl
  | cons c cs ih =>
      rw [List.mem_cons, not_or] at h
      rw [joinLineBreaks, ih h.2]
      rintro tail rfl
      exact absurd rfl h.1

/-- A backslash is read with what follows it. -/
theorem readCharacters_backslash {cs value more cs' rest : List Char}
    (hescape : readEscape cs = some (value, cs'))
    (hmore : readCharacters '"' cs' = some (more, rest)) :
    readCharacters '"' ('\\' :: cs) = some (value ++ more, rest) := by
  rw [readCharacters, if_neg (by decide), if_pos rfl]
  split
  · rename_i hnone
    exact absurd (hescape.symm.trans hnone) (by simp)
  · rename_i value' after hsome
    obtain ⟨rfl, rfl⟩ := Prod.mk.inj (Option.some.inj (hescape.symm.trans hsome))
    simp only [Option.bind_eq_bind, Option.bind_some, hmore]

/-- Two digits are enough for every control character. -/
theorem codePoint?_upperHexDigit {n : Nat} (h : n < 0x20) :
    codePoint? [upperHexDigit (n / 16), upperHexDigit (n % 16)] = some (Char.ofNat n) := by
  have hall : ∀ n < 0x20,
      codePoint? [upperHexDigit (n / 16), upperHexDigit (n % 16)] = some (Char.ofNat n) := by
    decide
  exact hall n h

/-- A letter after a backslash is read as what it stands for. -/
theorem readEscape_letter {c : Char} (cs : List Char)
    (h : c ≠ 'x' ∧ c ≠ 'u' ∧ isLineTerminator c = false ∧ c.isDigit = false) :
    readEscape (c :: cs) = some ([escapedLetter c], cs) := by
  rcases h with ⟨hx, hu, hline, hdigit⟩
  have hreturn : ¬(c = '\r' ∧ cs.head? = some '\n') := by
    rintro ⟨rfl, -⟩
    exact absurd hline (by decide)
  rw [readEscape, if_neg hx, if_neg hu, if_neg hreturn, if_neg (by simp [hline]),
    if_neg (by simp [hdigit])]

/-- A code of two digits. -/
theorem readEscape_two {a b c : Char} (cs : List Char) (h : codePoint? [a, b] = some c) :
    readEscape ('x' :: a :: b :: cs) = some ([c], cs) := by
  have htake : (a :: b :: cs).take 2 = [a, b] := rfl
  rw [readEscape, if_pos rfl, readDigits, if_neg (by simp), htake, h]
  rfl

/-- A code of four digits. -/
theorem readEscape_four {a b c d e : Char} (cs : List Char) (ha : a ≠ '\x7b')
    (h : codePoint? [a, b, c, d] = some e) :
    readEscape ('u' :: a :: b :: c :: d :: cs) = some ([e], cs) := by
  have htake : (a :: b :: c :: d :: cs).take 4 = [a, b, c, d] := rfl
  rw [readEscape, if_neg (by decide), if_pos rfl, if_neg (by simpa using ha), readDigits,
    if_neg (by simp), htake, h]
  rfl

/-- A zero that no digit follows. -/
theorem readEscape_nul {cs : List Char} (h : cs.head?.any Char.isDigit = false) :
    readEscape ('0' :: cs) = some ([Char.ofNat 0], cs) := by
  rw [readEscape, if_neg (by decide), if_neg (by decide), if_neg (by simp), if_neg (by decide),
    if_pos (by decide), if_pos ⟨rfl, h⟩]

/-- Whether a character stands for itself in a literal. -/
def IsPlain (c : Char) : Prop :=
  c ≠ '\\' ∧ c ≠ '"' ∧ isLineTerminator c = false ∧ 0x20 ≤ c.toNat

instance (c : Char) : Decidable (IsPlain c) :=
  inferInstanceAs (Decidable (_ ∧ _))

/-- A digit of a code stands for itself. -/
theorem isPlain_upperHexDigit : ∀ n < 16, IsPlain (upperHexDigit n) := by
  decide

/-- The digits that are no octal ones stand for themselves. -/
theorem isPlain_of_mem {d : Char} (h : d ∈ ['8', '9']) : IsPlain d := by
  rw [List.mem_cons, List.mem_singleton] at h
  rcases h with rfl | rfl <;> decide

/-- The characters that stand after a backslash in the escapes of one letter. -/
def shortEscapes : List Char :=
  ['\\', '"', 'n', 'r', 't']

/-- Letters of escapes are plain, and none of them is a digit. -/
theorem of_mem_shortEscapes {l : Char} (h : l ∈ shortEscapes) :
    l ≠ 'x' ∧ l ≠ 'u' ∧ isLineTerminator l = false ∧ l.isDigit = false ∧ 0x20 ≤ l.toNat := by
  simp only [shortEscapes, List.mem_cons, List.not_mem_nil, or_false] at h
  rcases h with rfl | rfl | rfl | rfl | rfl <;> decide

/-- The texts that stand for a character in a literal, by how the character is escaped. -/
inductive EscapeForm (c : Char) (next : Option Char) : List Char → Prop
  | letter (l : Char) (hletter : l ∈ shortEscapes) (hvalue : escapedLetter l = c) :
      EscapeForm c next ['\\', l]
  | nul (hvalue : Char.ofNat 0 = c) (hnext : next.any Char.isDigit = false) :
      EscapeForm c next ['\\', '0']
  | two (n : Nat) (hcontrol : n < 0x20) (hvalue : Char.ofNat n = c) :
      EscapeForm c next ['\\', 'x', upperHexDigit (n / 16), upperHexDigit (n % 16)]
  | four (d : Char) (hdigit : d ∈ ['8', '9']) (hvalue : codePoint? ['2', '0', '2', d] = some c) :
      EscapeForm c next ['\\', 'u', '2', '0', '2', d]
  | plain (hplain : IsPlain c) : EscapeForm c next [c]

/-- Every character is escaped in one of the forms. -/
theorem escapeForm_escapeChar (c : Char) (next : Option Char) :
    EscapeForm c next (escapeChar c next) := by
  unfold escapeChar
  by_cases hbackslash : c = '\\'
  · rw [if_pos hbackslash]
    exact .letter '\\' (by decide) hbackslash.symm
  rw [if_neg hbackslash]
  by_cases hquote : c = '"'
  · rw [if_pos hquote]
    exact .letter '"' (by decide) hquote.symm
  rw [if_neg hquote]
  by_cases hfeed : c = '\n'
  · rw [if_pos hfeed]
    exact .letter 'n' (by decide) hfeed.symm
  rw [if_neg hfeed]
  by_cases hreturn : c = '\r'
  · rw [if_pos hreturn]
    exact .letter 'r' (by decide) hreturn.symm
  rw [if_neg hreturn]
  by_cases htab : c = '\t'
  · rw [if_pos htab]
    exact .letter 't' (by decide) htab.symm
  rw [if_neg htab]
  by_cases hnul : c = Char.ofNat 0
  · rw [if_pos hnul]
    by_cases hdigit : next.any Char.isDigit = true
    · rw [if_pos hdigit]
      exact .two 0 (by decide) hnul.symm
    · rw [if_neg hdigit]
      exact .nul hnul.symm (Bool.eq_false_iff.mpr hdigit)
  rw [if_neg hnul]
  by_cases hseparator : c = Char.ofNat 0x2028
  · subst hseparator
    exact .four '8' (by decide) (by decide)
  rw [if_neg hseparator]
  by_cases hparagraph : c = Char.ofNat 0x2029
  · subst hparagraph
    exact .four '9' (by decide) (by decide)
  rw [if_neg hparagraph]
  by_cases hcontrol : c.toNat < 0x20
  · rw [if_pos hcontrol]
    exact .two c.toNat hcontrol (Char.ofNat_toNat c)
  · rw [if_neg hcontrol]
    have hline : isLineTerminator c = false := by
      simp [isLineTerminator, hfeed, hreturn, hseparator, hparagraph]
    exact .plain ⟨hbackslash, hquote, hline, Nat.le_of_not_lt hcontrol⟩

/-- An escaped character is read as the character. After a NUL that is not written in
full there must be no digit. -/
theorem readCharacters_escapeForm {c : Char} {next : Option Char} {text cs more rest : List Char}
    (hform : EscapeForm c next text)
    (hnext : next.any Char.isDigit = false → cs.head?.any Char.isDigit = false)
    (hmore : readCharacters '"' cs = some (more, rest)) :
    readCharacters '"' (text ++ cs) = some (c :: more, rest) := by
  cases hform with
  | letter l hletter hvalue =>
      rcases of_mem_shortEscapes hletter with ⟨hx, hu, hline, hdigit, -⟩
      subst hvalue
      exact readCharacters_backslash (readEscape_letter cs ⟨hx, hu, hline, hdigit⟩) hmore
  | nul hvalue hdigit =>
      subst hvalue
      exact readCharacters_backslash (readEscape_nul (hnext hdigit)) hmore
  | two n hcontrol hvalue =>
      subst hvalue
      have hcode := codePoint?_upperHexDigit hcontrol
      exact readCharacters_backslash (readEscape_two cs hcode) hmore
  | four d hdigit hvalue =>
      exact readCharacters_backslash (readEscape_four cs (by decide) hvalue) hmore
  | plain hplain =>
      rcases hplain with ⟨hbackslash, hquote, hline, -⟩
      have hbreak : ¬(c = '\n' ∨ c = '\r') := by
        rintro (rfl | rfl) <;> exact absurd hline (by decide)
      rw [List.singleton_append, readCharacters, if_neg hquote, if_neg hbackslash,
        if_neg hbreak, hmore]
      rfl

/-- An escaped character starts with itself or a backslash. -/
theorem EscapeForm.head?_append {c : Char} {next : Option Char} {text : List Char}
    (h : EscapeForm c next text) (cs : List Char) :
    (text ++ cs).head? ∈ [some c, some '\\'] := by
  cases h with
  | plain => exact List.mem_cons_self
  | _ => exact List.mem_cons_of_mem _ List.mem_cons_self

/-- An escaped text starts with a digit only if the text does. -/
theorem isDigit_head_escapeText {cs rest : List Char} (hrest : rest.head?.any Char.isDigit = false)
    (h : cs.head?.any Char.isDigit = false) :
    (escapeText cs ++ rest).head?.any Char.isDigit = false := by
  unfold escapeText
  split
  · exact hrest
  · rfl
  · rename_i c cs _
    have hhead := (escapeForm_escapeChar c cs.head?).head?_append (escapeText cs ++ rest)
    rw [← List.append_assoc, List.mem_cons, List.mem_singleton] at hhead
    rcases hhead with hhead | hhead
    · rw [hhead]
      exact h
    · rw [hhead]
      rfl

/-- An escaped text is read as the text, up to line breaks. -/
theorem readCharacters_escapeText (cs rest : List Char) :
    readCharacters '"' (escapeText cs ++ '"' :: rest) = some (joinLineBreaks cs, rest) := by
  induction cs using escapeText.induct with
  | case1 =>
      rw [escapeText, joinLineBreaks, List.nil_append, readCharacters, if_pos rfl]
  | case2 cs ih =>
      exact readCharacters_backslash (readEscape_letter _ (by decide)) ih
  | case3 c cs hbreak ih =>
      rw [escapeText_cons hbreak, joinLineBreaks_cons hbreak, List.append_assoc]
      exact readCharacters_escapeForm (escapeForm_escapeChar c _)
        (isDigit_head_escapeText rfl) ih

end Script

end EcmaWriter
