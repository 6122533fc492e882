import EcmaWriter.Proofs.Decimal.Digits
import EcmaWriter.Proofs.Lexeme.Spelling
import EcmaWriter.Proofs.Script.Grammar
import EcmaWriter.Proofs.Script.Literal
import Mathlib.Data.List.Chain

/-!
# EcmaWriter - Scanning

A scanner that cuts text into tokens, and when lexemes keep apart.  A token is always as
long as it can be, so what matters for a lexeme is the character after it: it must not
continue a word or a number, or make a punctuator into a longer one.

Words are ASCII, numbers are whole and decimal, and text stands on one line.  There are
no comments, regular expressions or templates.

Main results:

- Definition `scan`: the tokens of a text.
- Definition `Lexeme.joins`: whether a lexeme may stand directly before another.
- Theorem `scan_spelled`: lexemes that keep apart are scanned one by one.
-/

namespace EcmaWriter

namespace Script

/-! ## The scanner -/

/-- Characters that words start with. -/
def isWordStart (c : Char) : Bool :=
  c.isAlpha || c == '_' || c == '$'

/-- Characters inside words. -/
def isWordPart (c : Char) : Bool :=
  c.isAlphanum || c == '_' || c == '$'

/-- All punctuators, and the starts of comments, the longer ones first. -/
def punctuators : List String :=
  [">>>=", "...", "===", "!==", "**=", "<<=", ">>=", ">>>", "&&=", "||=", "??=", "<=", ">=",
    "==", "!=", "**", "++", "--", "<<", ">>", "&&", "||", "??", "?.", "+=", "-=", "*=", "/=",
    "%=", "&=", "|=", "^=", "=>", "//", "/*", "\x7b", "\x7d", "(", ")", "[", "]", ".", ";",
    ",", "<", ">", "+", "-", "*", "/", "%", "&", "|", "^", "!", "~", "?", ":", "="]

/-- A whole number at the start of characters. A point may end it; a legacy octal number
or a word directly after a number is not read. -/
def readNumber (cs : List Char) : Option (Token × List Char) :=
  let digits := cs.takeWhile Char.isDigit
  let after := cs.dropWhile Char.isDigit
  let rest := if after.head? = some '.' then after.tail else after
  if (digits.head? = some '0' ∧ digits ≠ ['0']) ∨ rest.head?.any isWordPart = true then none
  else some (.number (Nat.ofDigitChars 10 digits 0), rest)

/-- The longest punctuator at the start of characters. -/
def readPunctuator (cs : List Char) : Option (Token × List Char) := do
  let symbol ← punctuators.find? fun symbol => symbol.toList.isPrefixOf cs
  some (.punctuator symbol, cs.drop symbol.toList.length)

/-- The token at the start of characters, with what follows it. -/
def readToken (cs : List Char) : Option (Token × List Char) :=
  match cs with
  | [] => none
  | c :: rest =>
    if c = '"' ∨ c = Char.ofNat 39 then do
      let (value, rest) ← readCharacters c rest
      some (.string (String.ofList value), rest)
    else if c.isDigit then readNumber cs
    else if isWordStart c then
      some (.word (String.ofList (cs.takeWhile isWordPart)), cs.dropWhile isWordPart)
    else readPunctuator cs

/-! ### Tokens are not empty -/

/-- To pass over the first character makes less of them. -/
theorem length_dropWhile_lt {p : Char → Bool} {c : Char} {cs : List Char} (hc : p c = true) :
    ((c :: cs).dropWhile p).length < (c :: cs).length := by
  rw [List.dropWhile_cons_of_pos hc]
  exact Nat.lt_succ_of_le (List.dropWhile_suffix p).length_le

/-- A number takes at least one character. -/
theorem length_of_readNumber {c : Char} {cs rest : List Char} {token : Token}
    (hc : c.isDigit = true) (h : readNumber (c :: cs) = some (token, rest)) :
    rest.length < (c :: cs).length := by
  have hafter : ((c :: cs).dropWhile Char.isDigit).length < (c :: cs).length :=
    length_dropWhile_lt hc
  have htail : ((c :: cs).dropWhile Char.isDigit).tail.length < (c :: cs).length := by
    rw [List.length_tail]
    omega
  rw [readNumber] at h
  split at h
  · split at h
    · contradiction
    · obtain ⟨-, rfl⟩ := Prod.mk.inj (Option.some.inj h)
      exact htail
  · split at h
    · contradiction
    · obtain ⟨-, rfl⟩ := Prod.mk.inj (Option.some.inj h)
      exact hafter

/-- A mark takes at least one character. -/
theorem length_of_readPunctuator {cs rest : List Char} {token : Token} (hcs : cs ≠ [])
    (h : readPunctuator cs = some (token, rest)) : rest.length < cs.length := by
  have hpositive : ∀ symbol ∈ punctuators, 0 < symbol.toList.length := by decide
  rw [readPunctuator] at h
  obtain ⟨symbol, hsymbol, heq⟩ := Option.bind_eq_some_iff.mp h
  obtain ⟨-, rfl⟩ := Prod.mk.inj (Option.some.inj heq)
  have hlength := hpositive symbol (List.mem_of_find?_eq_some hsymbol)
  have hcs := List.length_pos_iff.mpr hcs
  rw [List.length_drop]
  omega

/-- Every token takes at least one character. -/
theorem length_of_readToken {cs rest : List Char} {token : Token}
    (h : readToken cs = some (token, rest)) : rest.length < cs.length := by
  cases cs with
  | nil => contradiction
  | cons c cs =>
      rw [readToken] at h
      split at h
      · obtain ⟨⟨value, after⟩, hvalue, heq⟩ := Option.bind_eq_some_iff.mp h
        obtain ⟨-, rfl⟩ := Prod.mk.inj (Option.some.inj heq)
        exact Nat.lt_succ_of_lt (length_of_readCharacters hvalue)
      split at h
      · rename_i hdigit
        exact length_of_readNumber hdigit h
      split at h
      · rename_i hstart
        obtain ⟨-, rfl⟩ := Prod.mk.inj (Option.some.inj h)
        refine length_dropWhile_lt ?_
        simp only [isWordStart, isWordPart, Char.isAlphanum, Bool.or_eq_true] at hstart ⊢
        tauto
      · exact length_of_readPunctuator (List.cons_ne_nil c cs) h

/-! ### All tokens of a text -/

/-- The tokens of characters. Spaces separate tokens and are dropped. -/
def scan (cs : List Char) : Option (List Token) :=
  match cs with
  | [] => some []
  | ' ' :: rest => scan rest
  | cs =>
    match _htoken : readToken cs with
    | none => none
    | some (token, rest) => do
      let tokens ← scan rest
      some (token :: tokens)
termination_by cs.length
decreasing_by
  · exact Nat.lt_succ_self _
  · exact length_of_readToken _htoken

/-- Spaces are passed over. -/
theorem scan_space (cs : List Char) : scan (' ' :: cs) = scan cs := by
  rw [scan]

/-- What a token leaves is scanned after it. -/
theorem scan_token {cs rest : List Char} {token : Token} {tokens : List Token}
    (h : readToken cs = some (token, rest)) (hrest : scan rest = some tokens) :
    scan cs = some (token :: tokens) := by
  unfold scan
  split
  · exact absurd h (by simp [readToken])
  · exact absurd h (by simp [readToken, isWordStart, readPunctuator, punctuators])
  · split
    · rename_i hnone
      exact absurd (h.symm.trans hnone) (by simp)
    · rename_i token' after hsome
      obtain ⟨rfl, rfl⟩ := Prod.mk.inj (Option.some.inj (h.symm.trans hsome))
      simp only [Option.bind_eq_bind, Option.bind_some, hrest]

/-! ## Words, numbers and punctuators -/

/-- Digits may stand in words. -/
theorem isWordPart_of_isDigit {c : Char} (h : c.isDigit = true) : isWordPart c = true := by
  simp [isWordPart, Char.isAlphanum, h]

/-- No digit starts a word, and no quote either. -/
theorem isWordStart_facts {c : Char} (h : isWordStart c = true) :
    c.isDigit = false ∧ ¬(c = '"' ∨ c = Char.ofNat 39) ∧ c ≠ ' ' := by
  refine ⟨?_, ?_, ?_⟩
  · rw [← Bool.not_eq_true]
    intro hdigit
    have halpha : c.isAlpha = (c.isUpper || c.isLower) := rfl
    have hupper : c.isUpper = decide ('A'.val ≤ c.val ∧ c.val ≤ 'Z'.val) := rfl
    have hlower : c.isLower = (decide ('a'.val ≤ c.val) && decide (c.val ≤ 'z'.val)) := rfl
    simp only [isWordStart, halpha, hupper, hlower, Char.isDigit, Bool.or_eq_true,
      Bool.and_eq_true, decide_eq_true_eq, beq_iff_eq, UInt32.le_iff_toNat_le,
      ge_iff_le] at h hdigit
    have hz : '9'.val.toNat = 57 := rfl
    have ha : 'A'.val.toNat = 65 := rfl
    have hb : 'a'.val.toNat = 97 := rfl
    rcases h with ((h | h) | rfl) | rfl
    · omega
    · omega
    · exact absurd hdigit (by decide)
    · exact absurd hdigit (by decide)
  · rintro (rfl | rfl)
    · exact absurd h (by decide)
    · exact absurd h (by decide)
  · rintro rfl
    exact absurd h (by decide)

/-- A word is read to its end. -/
theorem readToken_word {cs rest : List Char} (h : hasIdentifierShape cs = true)
    (hrest : rest.head?.any isWordPart = false) :
    readToken (cs ++ rest) = some (.word (String.ofList cs), rest) := by
  cases cs with
  | nil => exact absurd h (by decide)
  | cons c cs =>
      have hshape : isWordStart c = true ∧ ∀ d ∈ cs, isWordPart d = true := by
        rw [hasIdentifierShape, Bool.and_eq_true, List.all_eq_true] at h
        exact h
      rcases isWordStart_facts hshape.1 with ⟨hdigit, hquote, -⟩
      have hpart : ∀ d ∈ c :: cs, isWordPart d = true := by
        refine List.forall_mem_cons.mpr ⟨?_, hshape.2⟩
        have hstart := hshape.1
        simp only [isWordStart, isWordPart, Char.isAlphanum, Bool.or_eq_true] at hstart ⊢
        tauto
      rcases takeWhile_run hpart hrest with ⟨htake, hdrop⟩
      rw [List.cons_append] at htake hdrop ⊢
      rw [readToken, if_neg hquote, if_neg (Bool.eq_false_iff.mp hdigit), if_pos hshape.1, htake,
        hdrop]

/-- A number is read, with or without a point. Without one no point may follow. -/
theorem readToken_number (n : Nat) (pointed : Bool) (rest : List Char)
    (hrest : rest.head?.any isWordPart = false) (hpoint : pointed = false → rest.head? ≠ some '.') :
    readToken (Nat.toDigits 10 n ++ ((if pointed then ['.'] else []) ++ rest)) =
      some (.number n, rest) := by
  have hdigits : ∀ c ∈ Nat.toDigits 10 n, c.isDigit = true := fun c hc =>
    Nat.isDigit_of_mem_toDigits (by decide) (by decide) hc
  have hafter : ((if pointed then ['.'] else []) ++ rest).head?.any Char.isDigit = false := by
    cases pointed with
    | true => rfl
    | false =>
        cases rest with
        | nil => rfl
        | cons c rest =>
            refine Bool.eq_false_iff.mpr fun hc => ?_
            exact Bool.eq_false_iff.mp hrest (isWordPart_of_isDigit hc)
  rcases takeWhile_toDigits n hafter with ⟨htake, hdrop⟩
  have hleft : (if ((if pointed then ['.'] else []) ++ rest).head? = some '.'
      then ((if pointed then ['.'] else []) ++ rest).tail
      else (if pointed then ['.'] else []) ++ rest) = rest := by
    cases pointed with
    | true => rfl
    | false => simp [hpoint rfl]
  have hnumber : readNumber (Nat.toDigits 10 n ++ ((if pointed then ['.'] else []) ++ rest)) =
      some (.number n, rest) := by
    simp only [readNumber, htake, hdrop, hleft, hrest, Nat.ofDigitChars_ten_toDigits]
    rw [if_neg]
    rintro (⟨hhead, hne⟩ | hfalse)
    · exact hne (toDigits_eq_of_head hhead)
    · exact Bool.noConfusion hfalse
  rcases List.exists_cons_of_ne_nil (Nat.toDigits_ne_nil (n := n) (b := 10)) with ⟨c, cs, hcs⟩
  have hc : c.isDigit = true := hdigits c (by simp [hcs])
  rw [hcs, List.cons_append] at hnumber ⊢
  rw [readToken, if_neg, if_pos hc]
  · exact hnumber
  · rintro (rfl | rfl)
    · exact absurd hc (by decide)
    · exact absurd hc (by decide)

/-- The longer punctuators come first. -/
theorem pairwise_punctuators :
    punctuators.Pairwise fun symbol other => other.toList.length ≤ symbol.toList.length := by
  decide

/-- The characters with which longer punctuators go on after a symbol. -/
def continuations (symbol : String) : List Char :=
  punctuators.filterMap fun other =>
    if symbol.toList.isPrefixOf other.toList then (other.toList.drop symbol.toList.length).head?
    else none

/-- No token of another kind starts like a punctuator. -/
theorem head_punctuators {symbol : String} {c : Char} {cs : List Char} (h : symbol ∈ punctuators)
    (hcs : symbol.toList = c :: cs) :
    ¬(c = '"' ∨ c = Char.ofNat 39) ∧ c.isDigit = false ∧ isWordStart c = false := by
  have hall : ∀ symbol ∈ punctuators, symbol.toList.head?.all (fun c =>
      !decide (c = '"' ∨ c = Char.ofNat 39) && !c.isDigit && !isWordStart c) = true := by
    decide
  have hhead := hall symbol h
  rw [hcs, List.head?_cons, Option.all_some, Bool.and_eq_true, Bool.and_eq_true,
    Bool.not_eq_true', Bool.not_eq_true', Bool.not_eq_true', decide_eq_false_iff_not] at hhead
  exact ⟨hhead.1.1, hhead.1.2, hhead.2⟩

/-- A punctuator is read if no longer one could be. -/
theorem readPunctuator_append {symbol : String} {rest : List Char} (h : symbol ∈ punctuators)
    (hrest : ∀ c ∈ rest.head?, c ∉ continuations symbol) :
    readPunctuator (symbol.toList ++ rest) = some (.punctuator symbol, rest) := by
  have hfind : punctuators.find? (fun other => other.toList.isPrefixOf (symbol.toList ++ rest)) =
      some symbol := by
    rcases List.eq_append_cons_of_mem h with ⟨before, after, hsplit, hbefore⟩
    rw [List.find?_eq_some_iff_append]
    refine ⟨by simp, before, after, hsplit, ?_⟩
    intro other hother
    rw [Bool.not_eq_true', Bool.eq_false_iff, ne_eq, List.isPrefixOf_iff_prefix]
    intro hprefix
    have hlength : symbol.toList.length ≤ other.toList.length := by
      have hpairwise := pairwise_punctuators
      rw [hsplit, List.pairwise_append] at hpairwise
      exact hpairwise.2.2 other hother symbol List.mem_cons_self
    obtain ⟨more, hmore⟩ :=
      List.prefix_of_prefix_length_le (List.prefix_append symbol.toList rest) hprefix hlength
    cases more with
    | nil =>
        rw [List.append_nil] at hmore
        exact hbefore (String.toList_injective hmore ▸ hother)
    | cons c more =>
        rw [← hmore, List.prefix_append_right_inj] at hprefix
        rcases hprefix with ⟨tail, rfl⟩
        refine hrest c rfl
          (List.mem_filterMap.mpr ⟨other, hsplit ▸ List.mem_append_left _ hother, ?_⟩)
        rw [← hmore, if_pos (List.isPrefixOf_iff_prefix.mpr (List.prefix_append _ _)),
          List.drop_left]
        rfl
  rw [readPunctuator, hfind]
  simp

/-- A mark is read if no longer one starts there. -/
theorem readToken_punctuator {symbol : String} {rest : List Char} (h : symbol ∈ punctuators)
    (hrest : ∀ c ∈ rest.head?, c ∉ continuations symbol) :
    readToken (symbol.toList ++ rest) = some (.punctuator symbol, rest) := by
  have hread := readPunctuator_append h hrest
  obtain ⟨c, cs, hcs⟩ : ∃ c cs, symbol.toList = c :: cs := by
    refine List.exists_cons_of_ne_nil ?_
    rintro hnil
    exact absurd (String.toList_eq_nil_iff.mp hnil ▸ h) (by decide)
  rcases head_punctuators h hcs with ⟨hquote, hdigit, hstart⟩
  rw [hcs, List.cons_append] at hread ⊢
  rw [readToken, if_neg hquote, if_neg (Bool.eq_false_iff.mp hdigit),
    if_neg (Bool.eq_false_iff.mp hstart)]
  exact hread

/-- A literal is read to its closing quote, as what it stands for. -/
theorem readToken_literal (value : String) (rest : List Char) :
    readToken ((stringLiteral value).toList ++ rest) =
      some (.string (String.ofList (joinLineBreaks value.toList)), rest) := by
  have hchars : (stringLiteral value).toList ++ rest =
      '"' :: (escapeText value.toList ++ '"' :: rest) := by
    simp [stringLiteral]
  rw [hchars, readToken, if_pos (Or.inl rfl), readCharacters_escapeText]
  rfl

end Script

/-! ## Lexemes -/

namespace Lexeme

open Script

/-- A string as it is read back, with a line feed for a carriage return and a line feed. -/
def readBack (value : String) : String :=
  String.ofList (joinLineBreaks value.toList)

/-- The token that a lexeme is read as. White space is none, and neither is what stands
for names of other modules, for built-in names or for comments. -/
def token? : Lexeme → Option Script.Token
  | word text => some (.word text)
  | digits value _ => some (.number value)
  | literal value => some (.string (readBack value))
  | mark text => some (.punctuator text)
  | _ => none

/-- The tokens that lexemes are read as. -/
def tokens (ls : List Lexeme) : List Script.Token :=
  ls.filterMap token?

@[simp] theorem tokens_nil : tokens [] = [] := rfl

@[simp] theorem tokens_append (ls ms : List Lexeme) : tokens (ls ++ ms) = tokens ls ++ tokens ms :=
  List.filterMap_append

/-- A word is a token. -/
@[simp] theorem tokens_word (text : String) (ls : List Lexeme) :
    tokens (word text :: ls) = .word text :: tokens ls := rfl

/-- A number is a token, whether it has a point or not. -/
@[simp] theorem tokens_digits (value : Nat) (pointed : Bool) (ls : List Lexeme) :
    tokens (digits value pointed :: ls) = .number value :: tokens ls := rfl

/-- A literal is the token of what it stands for. -/
@[simp] theorem tokens_literal (value : String) (ls : List Lexeme) :
    tokens (literal value :: ls) = .string (readBack value) :: tokens ls := rfl

/-- A mark is a token. -/
@[simp] theorem tokens_mark (text : String) (ls : List Lexeme) :
    tokens (mark text :: ls) = .punctuator text :: tokens ls := rfl

/-- A space is no token. -/
@[simp] theorem tokens_space (ls : List Lexeme) : tokens (space :: ls) = tokens ls := rfl

/-- Tokens in parentheses. -/
@[simp] theorem tokens_parenthesized (ls : List Lexeme) :
    tokens (parenthesized ls) = enclosed "(" ")" (tokens ls) := by
  simp [parenthesized, enclosed]

/-- Tokens of pieces with commas. -/
@[simp] theorem tokens_listed (pieces : List (List Lexeme)) :
    tokens (listed pieces) = commaSeparated (pieces.map tokens) := by
  induction pieces with
  | nil => rfl
  | cons ls pieces ih =>
      cases pieces with
      | nil => rfl
      | cons ms pieces =>
          have hstep : listed (ls :: ms :: pieces) =
              ls ++ [mark ",", space] ++ listed (ms :: pieces) := rfl
          rw [hstep, tokens_append, tokens_append, ih, List.append_assoc]
          rfl

/-- Whether a lexeme can be read. -/
def isReadable : Lexeme → Bool
  | word text => hasIdentifierShape text.toList
  | digits _ _ => true
  | literal _ => true
  | mark text => punctuators.contains text
  | space => true
  | _ => false

/-- The character that a lexeme starts with. -/
def first? : Lexeme → Option Char
  | word text => text.toList.head?
  | digits value _ => (Nat.toDigits 10 value).head?
  | literal _ => some '"'
  | mark text => text.toList.head?
  | space => some ' '
  | _ => none

/-- Whether a lexeme may stand directly before a character. -/
def endsBefore : Lexeme → Char → Bool
  | word _, c => !isWordPart c
  | digits _ pointed, c => !isWordPart c && (pointed || c != '.')
  | mark text, c => !(continuations text).contains c
  | _, _ => true

/-- Whether a lexeme may stand directly before another. -/
def joins (l m : Lexeme) : Prop :=
  ∀ c ∈ m.first?, l.endsBefore c = true

variable {table : ImportTable}

/-- Every lexeme that can be read has a first character. -/
theorem exists_first? (table : ImportTable) {l : Lexeme} (h : l.isReadable = true) :
    ∃ c cs, (l.text table).toList = c :: cs ∧ l.first? = some c := by
  have hfirst : ∀ text : String, text.toList ≠ [] →
      ∃ c cs, text.toList = c :: cs ∧ text.toList.head? = some c := by
    intro text hne
    rcases List.exists_cons_of_ne_nil hne with ⟨c, cs, hcs⟩
    exact ⟨c, cs, hcs, by rw [hcs]; rfl⟩
  cases l with
  | word text =>
      refine hfirst text ?_
      intro hnil
      rw [isReadable, hnil] at h
      exact absurd h (by decide)
  | digits value pointed =>
      obtain ⟨c, cs, hcs⟩ := List.exists_cons_of_ne_nil (Nat.toDigits_ne_nil (n := value) (b := 10))
      cases pointed <;> simp [text, spell, first?, hcs]
  | literal value =>
      exact ⟨'"', escapeText value.toList ++ ['"'], by simp [text, spell, stringLiteral], rfl⟩
  | mark text =>
      refine hfirst text ?_
      intro hnil
      rw [isReadable, String.toList_eq_nil_iff.mp hnil] at h
      exact absurd h (by decide)
  | space => exact ⟨' ', [], by simp [text, spell], rfl⟩
  | _ => exact absurd h Bool.false_ne_true

/-- The text of a readable lexeme is read as its token, before what may end it. -/
theorem readToken_text {l : Lexeme} {token : Script.Token} (h : l.isReadable = true)
    (htoken : l.token? = some token) {rest : List Char}
    (hrest : ∀ c ∈ rest.head?, l.endsBefore c = true) :
    readToken ((l.text table).toList ++ rest) = some (token, rest) := by
  have hbefore : ∀ p : Char → Bool, (∀ c ∈ rest.head?, p c = false) →
      rest.head?.any p = false := by
    intro p hp
    cases rest with
    | nil => rfl
    | cons c rest => exact hp c rfl
  cases l with
  | word text =>
      obtain rfl := Option.some.inj htoken
      have hread := readToken_word (show hasIdentifierShape text.toList = true from h)
        (hbefore isWordPart fun c hc => by simpa [endsBefore] using hrest c hc)
      rw [String.ofList_toList] at hread
      exact hread
  | digits value pointed =>
      obtain rfl := Option.some.inj htoken
      have hread := readToken_number value pointed rest ?_ ?_
      · cases pointed <;> simpa [Lexeme.text, spell] using hread
      · refine hbefore isWordPart fun c hc => ?_
        have hc := hrest c hc
        rw [endsBefore, Bool.and_eq_true, Bool.not_eq_true'] at hc
        exact hc.1
      · rintro rfl hpoint
        exact absurd (hrest '.' hpoint) (by simp [endsBefore])
  | literal value =>
      obtain rfl := Option.some.inj htoken
      exact readToken_literal value rest
  | mark text =>
      obtain rfl := Option.some.inj htoken
      have hsymbol : ∀ c ∈ rest.head?, c ∉ continuations text := by
        intro c hc
        simpa [endsBefore] using hrest c hc
      exact readToken_punctuator (List.contains_iff_mem.mp h) hsymbol
  | _ => exact absurd htoken (by simp [token?])

/-- Only a space is read as nothing. -/
theorem eq_space_of_token? {l : Lexeme} (h : l.isReadable = true) (htoken : l.token? = none) :
    l = space := by
  cases l <;> simp_all [isReadable, token?]

end Lexeme

namespace Script

/-- Lexemes that may stand one before the other are read one by one. -/
theorem scan_spelled (table : ImportTable) {ls : List Lexeme}
    (h : ∀ l ∈ ls, l.isReadable = true) (hchain : ls.IsChain Lexeme.joins) :
    scan (ls.flatMap fun l => (l.text table).toList) = some (Lexeme.tokens ls) := by
  induction ls with
  | nil =>
      rw [List.flatMap_nil, scan]
      rfl
  | cons l ls ih =>
      rcases List.forall_mem_cons.mp h with ⟨hl, hls⟩
      have hscan := ih hls hchain.tail
      have hbefore : ∀ c ∈ (ls.flatMap fun l => (l.text table).toList).head?,
          l.endsBefore c = true := by
        intro c hc
        cases ls with
        | nil => exact absurd hc (by simp)
        | cons m ls =>
            obtain ⟨d, ds, htext, hfirst⟩ :=
              Lexeme.exists_first? table (List.forall_mem_cons.mp hls).1
            rw [List.flatMap_cons, htext] at hc
            obtain rfl := Option.some.inj hc
            exact (List.isChain_cons_cons.mp hchain).1 d hfirst
      rw [List.flatMap_cons]
      cases htoken : l.token? with
      | none =>
          obtain rfl := Lexeme.eq_space_of_token? hl htoken
          have htext : (Lexeme.space.text table).toList = [' '] := by
            simp [Lexeme.text, Lexeme.spell]
          rw [htext, List.singleton_append, scan_space]
          exact hscan
      | some token =>
          have htokens : Lexeme.tokens (l :: ls) = token :: Lexeme.tokens ls := by
            rw [Lexeme.tokens, List.filterMap_cons, htoken]
            rfl
          rw [htokens]
          exact scan_token (Lexeme.readToken_text hl htoken hbefore) hscan

end Script

end EcmaWriter
