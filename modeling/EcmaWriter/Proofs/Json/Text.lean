import EcmaWriter.Json.Draft
import EcmaWriter.Proofs.Decimal.Digits
import Mathlib.Data.List.Chain

/-!
# EcmaWriter - Texts of JSON values

A value has many texts.  Blanks may stand before and after each of its tokens, and a
character of a string may stand as it is or be escaped in several ways.  Each of these texts
is read as the value.  Tokens come first: a number is the only token that the characters
after it could continue, and in the text of a value a number comes before a mark or at the
end.  The tokens of a value are then assembled within any open arrays and objects.

Main results:

- Definition `Token.HaveText`: the texts of tokens.
- Definition `Draft.HasText`: the texts of a value.
- Theorem `Token.read_of_haveText`: tokens are read from each of their texts.
- Theorem `Draft.assemble_tokens`: the assembly of the tokens of a value.
- Theorem `Document.ofText_of_hasText`: a value is read from each of its texts.
-/

namespace EcmaWriter

/-! ## Numbers -/

namespace Numeral

/-- Whether characters are one digit or more. -/
structure AreDigits (ds : List Char) : Prop where
  ne_nil : ds ≠ []
  isDigit : ∀ c ∈ ds, c.isDigit = true

/-- Whether characters are the digits before the point: zero, or digits the first of which
is not zero. -/
structure AreWhole (ds : List Char) : Prop where
  digits : AreDigits ds
  zero : ds.head? = some '0' → ds = ['0']

/-- The texts of the digits after the point, which may be left out with the point. -/
inductive FractionHasText : Option (List Char) → List Char → Prop
  | none : FractionHasText none []
  | point {ds : List Char} (h : AreDigits ds) : FractionHasText (some ds) ('.' :: ds)

/-- The texts of an exponent, which may be left out with its mark. -/
inductive ExponentHasText : Option Int → List Char → Prop
  | none : ExponentHasText none []
  | unsigned {mark : Char} {ds : List Char} (hmark : mark = 'e' ∨ mark = 'E')
      (h : AreDigits ds) : ExponentHasText (some (ofDigits ds)) (mark :: ds)
  | plus {mark : Char} {ds : List Char} (hmark : mark = 'e' ∨ mark = 'E')
      (h : AreDigits ds) : ExponentHasText (some (ofDigits ds)) (mark :: '+' :: ds)
  | minus {mark : Char} {ds : List Char} (hmark : mark = 'e' ∨ mark = 'E')
      (h : AreDigits ds) : ExponentHasText (some (-(ofDigits ds : Int))) (mark :: '-' :: ds)

/-- The texts of a number. -/
inductive HasText : Numeral → List Char → Prop
  | parts (negative : Bool) {whole fractionText exponentText : List Char}
      {fraction : Option (List Char)} {exponent : Option Int} (hwhole : AreWhole whole)
      (hfraction : FractionHasText fraction fractionText)
      (hexponent : ExponentHasText exponent exponentText) :
      HasText (ofParts negative whole fraction exponent)
        ((if negative then ['-'] else []) ++ (whole ++ (fractionText ++ exponentText)))

/-- Whether a character after the digits of a number belongs to the number. -/
def continues (c : Char) : Bool :=
  c.isDigit || c = '.' || c = 'e' || c = 'E'

/-- A condition on the first character that carries over to a stronger one. -/
theorem any_head?_of_imp {p q : Char → Bool} {cs : List Char} (hpq : ∀ c, q c = true → p c = true)
    (h : cs.head?.any p = false) : cs.head?.any q = false := by
  cases cs with
  | nil => rfl
  | cons c cs => exact Bool.eq_false_iff.mpr fun hq => Bool.noConfusion ((hpq c hq).symm.trans h)

/-- Digits are read up to something else. -/
theorem digits?_append {ds rest : List Char} (h : AreDigits ds)
    (hrest : rest.head?.any Char.isDigit = false) : digits? (ds ++ rest) = some (ds, rest) := by
  rcases takeWhile_run h.isDigit hrest with ⟨htake, hdrop⟩
  unfold digits?
  rw [htake, hdrop]
  split
  · exact absurd rfl h.ne_nil
  · rfl

/-- A whole part is read to its end. -/
theorem whole?_append {ds rest : List Char} (h : AreWhole ds)
    (hrest : rest.head?.any Char.isDigit = false) : whole? (ds ++ rest) = some (ds, rest) := by
  unfold whole?
  rw [digits?_append h.digits hrest]
  split
  · rename_i d after _ heq
    obtain ⟨rfl, rfl⟩ := Prod.mk.inj (Option.some.inj heq)
    exact absurd (h.zero rfl) (by simp)
  · rfl

/-- Neither a digit nor a point comes after the digits before an exponent. -/
theorem head?_exponent {exponent : Option Int} {cs rest : List Char}
    (h : ExponentHasText exponent cs) (hrest : rest.head?.any continues = false) :
    (cs ++ rest).head?.any (fun c => c.isDigit || c = '.') = false := by
  have hmark : ∀ {mark : Char}, mark = 'e' ∨ mark = 'E' →
      (mark.isDigit || decide (mark = '.')) = false := by
    rintro mark (rfl | rfl)
    · rfl
    · rfl
  cases h with
  | none =>
      refine any_head?_of_imp (fun c hc => ?_) hrest
      simp only [continues, hc, Bool.true_or]
  | unsigned hm _ => exact hmark hm
  | plus hm _ => exact hmark hm
  | minus hm _ => exact hmark hm

/-- No digit comes after the digits before a fraction. -/
theorem head?_fraction {fraction : Option (List Char)} {cs rest : List Char}
    (h : FractionHasText fraction cs)
    (hrest : rest.head?.any (fun c => c.isDigit || c = '.') = false) :
    (cs ++ rest).head?.any Char.isDigit = false := by
  cases h with
  | none => exact any_head?_of_imp (fun c hc => by rw [hc]; rfl) hrest
  | point _ => rfl

/-- A fraction is read to its end, if there is one. -/
theorem fraction?_append {fraction : Option (List Char)} {cs rest : List Char}
    (h : FractionHasText fraction cs)
    (hrest : rest.head?.any (fun c => c.isDigit || c = '.') = false) :
    fraction? (cs ++ rest) = some (fraction, rest) := by
  cases h with
  | none =>
      rw [List.nil_append]
      unfold fraction?
      split
      · exact absurd hrest (by simp)
      · rfl
  | point hds =>
      have hdigits := digits?_append hds (any_head?_of_imp (fun c hc => by rw [hc]; rfl) hrest)
      rw [List.cons_append, fraction?, hdigits]
      rfl

/-- An exponent needs no sign. -/
theorem signedExponent?_unsigned {ds rest : List Char} (h : AreDigits ds)
    (hrest : rest.head?.any Char.isDigit = false) :
    signedExponent? (ds ++ rest) = some ((ofDigits ds : Int), rest) := by
  have hdigits := digits?_append h hrest
  obtain ⟨d, ds, rfl⟩ := List.exists_cons_of_ne_nil h.ne_nil
  have hd : d.isDigit = true := h.isDigit d List.mem_cons_self
  unfold signedExponent?
  split
  · rename_i heq
    rw [(List.cons.inj heq).1] at hd
    exact absurd hd (by decide)
  · rename_i heq
    rw [(List.cons.inj heq).1] at hd
    exact absurd hd (by decide)
  · rw [hdigits]
    rfl

/-- An exponent is read to its end, if there is one. -/
theorem exponent?_append {exponent : Option Int} {cs rest : List Char}
    (h : ExponentHasText exponent cs) (hrest : rest.head?.any continues = false) :
    exponent? (cs ++ rest) = some (exponent, rest) := by
  have hdigit : rest.head?.any Char.isDigit = false :=
    any_head?_of_imp (fun c hc => by simp only [continues, hc, Bool.true_or]) hrest
  have hmarked : ∀ {mark : Char} (cs : List Char), mark = 'e' ∨ mark = 'E' →
      exponent? (mark :: cs) = (signedExponent? cs).map fun r => (some r.1, r.2) := by
    rintro mark cs (rfl | rfl)
    · rfl
    · rfl
  cases h with
  | none =>
      rw [List.nil_append]
      unfold exponent?
      split
      · exact absurd hrest (by simp [continues])
      · exact absurd hrest (by simp [continues])
      · rfl
  | unsigned hmark hds =>
      rw [List.cons_append, hmarked _ hmark, signedExponent?_unsigned hds hdigit]
      rfl
  | plus hmark hds =>
      rw [List.cons_append, hmarked _ hmark, List.cons_append, signedExponent?,
        digits?_append hds hdigit]
      rfl
  | minus hmark hds =>
      rw [List.cons_append, hmarked _ hmark, List.cons_append, signedExponent?,
        digits?_append hds hdigit]
      rfl

/-- A text of a number starts with a digit, or with a minus before one. -/
theorem HasText.exists_cons {n : Numeral} {cs : List Char} (h : n.HasText cs) :
    ∃ c rest, cs = c :: rest ∧ (c = '-' ∨ c.isDigit = true) := by
  rcases h with ⟨negative, hwhole, _, _⟩
  cases negative with
  | true => exact ⟨'-', _, rfl, Or.inl rfl⟩
  | false =>
      rename_i whole _ _ _ _ _ _
      obtain ⟨d, ds, rfl⟩ := List.exists_cons_of_ne_nil hwhole.digits.ne_nil
      exact ⟨d, _, rfl, Or.inr (hwhole.digits.isDigit d List.mem_cons_self)⟩

/-- Text that does not start with a minus has no sign. -/
theorem sign_of_head {cs : List Char} (h : cs.head? ≠ some '-') : sign cs = (false, cs) := by
  unfold sign
  split
  · exact absurd rfl h
  · rfl

/-- A text of a number is read in full if nothing after it continues it. -/
theorem read?_of_hasText {n : Numeral} {cs rest : List Char} (h : n.HasText cs)
    (hrest : rest.head?.any continues = false) : read? (cs ++ rest) = some (n, rest) := by
  rcases h with @⟨negative, whole, fractionText, exponentText, fraction, exponent, hwhole,
    hfraction, hexponent⟩
  have hafter := head?_exponent hexponent hrest
  have hsign : sign ((if negative then ['-'] else []) ++
      (whole ++ (fractionText ++ exponentText)) ++ rest) =
        (negative, whole ++ (fractionText ++ (exponentText ++ rest))) := by
    cases negative with
    | true => simp [sign]
    | false =>
        obtain ⟨d, ds, rfl⟩ := List.exists_cons_of_ne_nil hwhole.digits.ne_nil
        have hd : d.isDigit = true := hwhole.digits.isDigit d List.mem_cons_self
        have hminus : d ≠ '-' := by
          rintro rfl
          exact absurd hd (by decide)
        rw [sign_of_head (by simpa using hminus)]
        simp
  simp only [read?, hsign, whole?_append hwhole (head?_fraction hfraction hafter),
    fraction?_append hfraction hafter, exponent?_append hexponent hrest, Option.bind_eq_bind,
    Option.bind_some]
  rfl

end Numeral

/-! ## Strings -/

namespace StringUnit

/-- The texts of a character in a string: the character as it stands, an escape of one
letter, an escape of its code, and an escape of each half of its surrogate pair. -/
inductive CharHasText (c : Char) : List Char → Prop
  | plain (hquote : c ≠ '"') (hescape : c ≠ '\\') (hcontrol : 0x20 ≤ c.toNat) :
      CharHasText c [c]
  | letter {e : Char} (h : escape? e = some c) : CharHasText c ['\\', e]
  | code {d₁ d₂ d₃ d₄ : Char} (h : code? d₁ d₂ d₃ d₄ = some c.toNat) :
      CharHasText c ['\\', 'u', d₁, d₂, d₃, d₄]
  | pair {d₁ d₂ d₃ d₄ e₁ e₂ e₃ e₄ : Char} (hwide : 0x10000 ≤ c.toNat)
      (hhigh : code? d₁ d₂ d₃ d₄ = some (0xD800 + (c.toNat - 0x10000) / 0x400))
      (hlow : code? e₁ e₂ e₃ e₄ = some (0xDC00 + (c.toNat - 0x10000) % 0x400)) :
      CharHasText c ['\\', 'u', d₁, d₂, d₃, d₄, '\\', 'u', e₁, e₂, e₃, e₄]

/-- The texts of the characters of a string, between its quotes. -/
inductive HaveText : List Char → List Char → Prop
  | nil : HaveText [] []
  | cons {c : Char} {cs text texts : List Char} (hc : CharHasText c text)
      (hcs : HaveText cs texts) : HaveText (c :: cs) (text ++ texts)

/-- A backslash and what comes after it are one unit. -/
theorem read?_backslash {before : List StringUnit} {cs rest : List Char} {u : StringUnit}
    (h : escaped? cs = some (u, rest)) : read? before ('\\' :: cs) = read? (u :: before) rest := by
  rw [read?, if_neg (by decide), if_pos rfl]
  split
  · rename_i heq
    obtain ⟨rfl, rfl⟩ := Prod.mk.inj (Option.some.inj (h.symm.trans heq))
    rfl
  · rename_i hnone
    exact absurd (h.symm.trans hnone) (by simp)

/-- A letter after a backslash is read as what it stands for. -/
theorem escaped?_letter {c e : Char} (h : escape? e = some c) (cs : List Char) :
    escaped? (e :: cs) = some (.plain c, cs) := by
  have hu : e ≠ 'u' := by
    rintro rfl
    have hnone : escape? 'u' = none := rfl
    exact absurd (hnone.symm.trans h) (by simp)
  refine (if_neg hu).trans ?_
  rw [h]
  rfl

/-- A code after a backslash is read as its number. -/
theorem escaped?_code {a b c d : Char} {n : Nat} (h : code? a b c d = some n) (cs : List Char) :
    escaped? ('u' :: a :: b :: c :: d :: cs) = some (.code n, cs) := by
  rw [escaped?, if_pos rfl]
  exact congrArg (Option.map fun value => (code value, cs)) h

/-- A code that belongs to no surrogate pair stands for its character, whatever comes after. -/
theorem join?_code (before : List Char) (c : Char) (us : List StringUnit) :
    join? before (.code c.toNat :: us) = join? (c :: before) us := by
  have hvalid : c.toNat < 0xD800 ∨ 0xDFFF < c.toNat ∧ c.toNat < 0x110000 := c.valid
  have hhigh : isHighSurrogate c.toNat = false := by
    simp only [isHighSurrogate, Bool.and_eq_false_iff, decide_eq_false_iff_not]
    omega
  have hlow : isLowSurrogate c.toNat = false := by
    simp only [isLowSurrogate, Bool.and_eq_false_iff, decide_eq_false_iff_not]
    omega
  match us with
  | [] => simp [join?, hhigh, hlow]
  | .plain _ :: _ => simp [join?, hhigh, hlow]
  | .code _ :: _ => simp [join?, hhigh, hlow]

/-- The halves of a surrogate pair stand for the character they were made of. -/
theorem join?_pair (before : List Char) {c : Char} (hwide : 0x10000 ≤ c.toNat)
    (us : List StringUnit) :
    join? before (.code (0xD800 + (c.toNat - 0x10000) / 0x400) ::
      .code (0xDC00 + (c.toNat - 0x10000) % 0x400) :: us) = join? (c :: before) us := by
  have hvalid : c.toNat < 0xD800 ∨ 0xDFFF < c.toNat ∧ c.toNat < 0x110000 := c.valid
  have hhigh : isHighSurrogate (0xD800 + (c.toNat - 0x10000) / 0x400) = true := by
    simp only [isHighSurrogate, Bool.and_eq_true, decide_eq_true_eq]
    omega
  have hlow : isLowSurrogate (0xDC00 + (c.toNat - 0x10000) % 0x400) = true := by
    simp only [isLowSurrogate, Bool.and_eq_true, decide_eq_true_eq]
    omega
  have hsum : 0x10000 + (0xD800 + (c.toNat - 0x10000) / 0x400 - 0xD800) * 0x400 +
      (0xDC00 + (c.toNat - 0x10000) % 0x400 - 0xDC00) = c.toNat := by
    omega
  have hchar : pairChar (0xD800 + (c.toNat - 0x10000) / 0x400)
      (0xDC00 + (c.toNat - 0x10000) % 0x400) = c := by
    rw [pairChar, hsum, Char.ofNat_toNat]
  rw [join?, if_pos hhigh, if_pos hlow, hchar]

/-- A text of a character is read as pieces that stand for the character. -/
theorem CharHasText.exists_read? {c : Char} {text : List Char} (h : CharHasText c text) :
    ∃ us : List StringUnit,
      (∀ before rest, read? before (text ++ rest) = read? (us.reverse ++ before) rest) ∧
        ∀ before more, join? before (us ++ more) = join? (c :: before) more := by
  cases h with
  | plain hquote hescape hcontrol =>
      refine ⟨[.plain c], fun before rest => ?_, fun before more => rfl⟩
      rw [List.singleton_append, read?, if_neg hquote, if_neg hescape,
        if_neg (Nat.not_lt.mpr hcontrol)]
      rfl
  | letter h =>
      exact ⟨[.plain c], fun before rest => read?_backslash (escaped?_letter h rest),
        fun before more => rfl⟩
  | code h =>
      exact ⟨[.code c.toNat], fun before rest => read?_backslash (escaped?_code h rest),
        fun before more => join?_code before c more⟩
  | pair hwide hhigh hlow =>
      refine ⟨[.code _, .code _], fun before rest => ?_, fun before more =>
        join?_pair before hwide more⟩
      exact (read?_backslash (escaped?_code hhigh _)).trans
        (read?_backslash (escaped?_code hlow rest))

/-- A text of a string is read up to the closing quote, as pieces that stand for the
string. -/
theorem HaveText.exists_read? {cs text : List Char} (h : HaveText cs text) (rest : List Char) :
    ∃ us : List StringUnit,
      (∀ before, read? before (text ++ '"' :: rest) = some (before.reverse ++ us, rest)) ∧
        ∀ before, join? before us = some (before.reverse ++ cs) := by
  induction h with
  | nil =>
      refine ⟨[], fun before => ?_, fun before => ?_⟩
      · rw [List.nil_append, read?, if_pos rfl, List.append_nil]
      · rw [join?, List.append_nil]
  | @cons c cs text texts hc _ ih =>
      obtain ⟨first, hread, hjoin⟩ := hc.exists_read?
      obtain ⟨us, hreads, hjoins⟩ := ih
      refine ⟨first ++ us, fun before => ?_, fun before => ?_⟩
      · rw [List.append_assoc, hread, hreads]
        simp
      · rw [hjoin, hjoins]
        simp

end StringUnit

/-! ## Tokens -/

namespace Token

/-- The texts of a token. -/
inductive HasText : Token → List Char → Prop
  | mark {c : Char} {token : Token} (h : mark? c = some token) : HasText token [c]
  | nullWord : HasText null "null".toList
  | trueWord : HasText (boolean true) "true".toList
  | falseWord : HasText (boolean false) "false".toList
  | decimal {n : Numeral} {cs : List Char} (h : n.HasText cs) : HasText (number n) cs
  | quoted {text : String} {cs : List Char} (h : StringUnit.HaveText text.toList cs) :
      HasText (string (some text)) ('"' :: (cs ++ ['"']))

/-- The texts of tokens, one after the other, with blanks before, between and after them. -/
inductive HaveText : List Token → List Char → Prop
  | nil : HaveText [] []
  | blank {tokens : List Token} {c : Char} {cs : List Char} (hc : isSeparator c = true)
      (h : HaveText tokens cs) : HaveText tokens (c :: cs)
  | cons {token : Token} {tokens : List Token} {cs rest : List Char} (h : token.HasText cs)
      (hrest : HaveText tokens rest) : HaveText (token :: tokens) (cs ++ rest)

/-- A mark stands for itself. -/
theorem HaveText.mark_cons {c : Char} {token : Token} {tokens : List Token} {cs : List Char}
    (hc : mark? c = some token) (h : HaveText tokens cs) : HaveText (token :: tokens) (c :: cs) :=
  .cons (.mark hc) h

/-- Whether a token cannot continue a number before it. -/
def endsNumber : Token → Bool
  | openArray | closeArray | openObject | closeObject | comma | colon | stray => true
  | _ => false

/-- Whether a token may come right after another. -/
def MayFollow : Token → Token → Prop
  | number _, next => next.endsNumber = true
  | _, _ => True

/-- Whether tokens are in order, also after a number. -/
structure EndNumber (tokens : List Token) : Prop where
  chain : tokens.IsChain MayFollow
  head : ∀ token ∈ tokens.head?, token.endsNumber = true

/-- A chain of tokens ends a number if its first one does. -/
theorem EndNumber.cons {token : Token} {tokens : List Token} (h : tokens.IsChain MayFollow)
    (htoken : token.endsNumber = true) : EndNumber (token :: tokens) := by
  refine ⟨h.cons fun next _ => ?_, by simpa using htoken⟩
  cases token with
  | number _ => contradiction
  | _ => trivial

/-- A mark is no blank, does not continue a number and is no stray token. -/
theorem facts_of_mark? {c : Char} {token : Token} (h : mark? c = some token) :
    isSeparator c = false ∧ Numeral.continues c = false ∧ token ≠ stray := by
  unfold mark? at h
  split at h
  case h_7 => contradiction
  all_goals
    obtain rfl := Option.some.inj h
    exact ⟨rfl, rfl, nofun⟩

/-- A token starts where there is no white space. -/
theorem read_of_next {c : Char} {cs rest : List Char} {token : Token}
    (hc : isSeparator c = false) (h : next c cs = (token, rest)) :
    read (c :: cs) = token :: read rest := by
  rw [read, if_neg (Bool.eq_false_iff.mp hc), h]

/-- A digit starts a number. -/
theorem next_of_isDigit {c : Char} (h : c.isDigit = true) (cs : List Char) :
    isSeparator c = false ∧ next c cs = numeral c cs := by
  have hne : ∀ d : Char, d.isDigit = false → c ≠ d := by
    rintro d hd rfl
    exact Bool.noConfusion (h.symm.trans hd)
  have hmark : mark? c = none := by
    unfold mark?
    split
    all_goals first | rfl | exact absurd h (by decide)
  constructor
  · simp [isSeparator, hne]
  · rw [next, hmark]
    simp only [nextOther, if_neg (hne '"' rfl), if_neg (hne 'n' rfl), if_neg (hne 't' rfl),
      if_neg (hne 'f' rfl)]

/-- A token is read from each of its texts if nothing after a number continues it. -/
theorem HasText.read_append {token : Token} {cs rest : List Char} (h : token.HasText cs)
    (hrest : ∀ n, token = number n → rest.head?.any Numeral.continues = false) :
    read (cs ++ rest) = token :: read rest := by
  cases h with
  | @mark c _ h =>
      refine read_of_next (facts_of_mark? h).1 ?_
      rw [next, h]
      rfl
  | nullWord => exact read_of_next rfl rfl
  | trueWord => exact read_of_next rfl rfl
  | falseWord => exact read_of_next rfl rfl
  | @decimal n _ h =>
      have hread := Numeral.read?_of_hasText h (hrest n rfl)
      obtain ⟨c, cs, rfl, hc⟩ := h.exists_cons
      have hstart : isSeparator c = false ∧ next c (cs ++ rest) = numeral c (cs ++ rest) := by
        rcases hc with rfl | hc
        · exact ⟨rfl, rfl⟩
        · exact next_of_isDigit hc _
      rw [List.cons_append] at hread ⊢
      refine read_of_next hstart.1 ?_
      rw [hstart.2, numeral, hread]
  | @quoted text cs h =>
      obtain ⟨us, hread, hjoin⟩ := h.exists_read? rest
      have hnext : next '"' (cs ++ ['"'] ++ rest) = Token.text (cs ++ '"' :: rest) := by
        rw [List.append_assoc]
        rfl
      refine read_of_next (by decide) (hnext.trans ?_)
      rw [Token.text, hread []]
      simp [hjoin]

/-- What comes after a number does not continue it. -/
theorem HaveText.head? {token : Token} {tokens : List Token} {rest : List Char}
    (h : HaveText tokens rest) (hchain : List.IsChain MayFollow (token :: tokens)) {n : Numeral}
    (htoken : token = number n) : rest.head?.any Numeral.continues = false := by
  subst htoken
  cases h with
  | nil => rfl
  | @blank _ c cs hc _ =>
      simp only [isSeparator, Bool.or_eq_true, beq_iff_eq] at hc
      rcases hc with ((rfl | rfl) | rfl) | rfl
      all_goals rfl
  | @cons next _ cs rest hnext _ =>
      have hends : next.endsNumber = true := (List.isChain_cons_cons.mp hchain).1
      cases hnext with
      | mark h => exact (facts_of_mark? h).2.1
      | nullWord => contradiction
      | trueWord => contradiction
      | falseWord => contradiction
      | decimal _ => contradiction
      | quoted _ => contradiction

/-- Tokens are read from each of their texts. -/
theorem read_of_haveText {tokens : List Token} {cs : List Char} (h : HaveText tokens cs)
    (hchain : List.IsChain MayFollow tokens) : read cs = tokens := by
  induction h with
  | nil => rw [read]
  | blank hc _ ih => rw [read, if_pos hc, ih hchain]
  | cons htoken hrest ih =>
      rw [htoken.read_append fun n hn => hrest.head? hchain hn, ih hchain.tail]

/-- No token without a meaning has a text. -/
theorem HaveText.stray_not_mem {tokens : List Token} {cs : List Char} (h : HaveText tokens cs) :
    stray ∉ tokens := by
  induction h with
  | nil => exact List.not_mem_nil
  | blank _ _ ih => exact ih
  | cons htoken _ ih =>
      refine List.not_mem_cons_of_ne_of_not_mem ?_ ih
      rintro rfl
      cases htoken with
      | mark h => exact (facts_of_mark? h).2.2 rfl

end Token

/-! ## Values -/

namespace Draft

mutual

/-- The tokens of a value. A stray token stands where the value breaks off. -/
def tokens : Draft → List Token
  | .null => [.null]
  | .boolean value => [.boolean value]
  | .number value => [.number value]
  | .string text => [.string text]
  | .array items closed =>
    .openArray :: (itemTokens items ++ [if closed then .closeArray else .stray])
  | .object members closed =>
    .openObject :: (memberTokens members ++ [if closed then .closeObject else .stray])
  | .keyless v => .openObject :: (v.tokens ++ [.stray])
  | .gap => [.stray]

/-- The tokens of the items of an array. -/
def itemTokens : List Draft → List Token
  | [] => []
  | [v] => v.tokens
  | v :: vs => v.tokens ++ .comma :: itemTokens vs

/-- The tokens of the members of an object. -/
def memberTokens : List (Option String × Draft) → List Token
  | [] => []
  | [(key, v)] => .string key :: .colon :: v.tokens
  | (key, v) :: members => .string key :: .colon :: (v.tokens ++ .comma :: memberTokens members)

end

/-- A comma stands between items. -/
theorem itemTokens_cons_cons (v next : Draft) (items : List Draft) :
    itemTokens (v :: next :: items) = v.tokens ++ .comma :: itemTokens (next :: items) :=
  rfl

/-- A comma stands between members. -/
theorem memberTokens_cons_cons (key : Option String) (v : Draft) (next : Option String × Draft)
    (members : List (Option String × Draft)) :
    memberTokens ((key, v) :: next :: members) =
      .string key :: .colon :: (v.tokens ++ .comma :: memberTokens (next :: members)) :=
  rfl

/-- The texts of a value. A value that breaks off has none. -/
def HasText (v : Draft) (text : String) : Prop :=
  Token.HaveText v.tokens text.toList

mutual

/-- In the tokens of a value, a number comes before a mark or at the end. -/
theorem isChain_tokens (v : Draft) {rest : List Token} (h : Token.EndNumber rest) :
    (v.tokens ++ rest).IsChain Token.MayFollow := by
  cases v with
  | null => exact h.chain.cons fun _ _ => trivial
  | boolean _ => exact h.chain.cons fun _ _ => trivial
  | number _ => exact h.chain.cons h.head
  | string _ => exact h.chain.cons fun _ _ => trivial
  | gap => exact h.chain.cons fun _ _ => trivial
  | keyless v =>
      rw [tokens, List.cons_append, List.append_assoc]
      exact (isChain_tokens v (.cons h.chain rfl)).cons fun _ _ => trivial
  | array items closed =>
      rw [tokens, List.cons_append, List.append_assoc]
      refine (isChain_itemTokens items (.cons h.chain ?_)).cons fun _ _ => trivial
      cases closed
      all_goals rfl
  | object members closed =>
      rw [tokens, List.cons_append, List.append_assoc]
      refine (isChain_memberTokens members (.cons h.chain ?_)).cons fun _ _ => trivial
      cases closed
      all_goals rfl

/-- Tokens of items may follow each other. -/
theorem isChain_itemTokens (items : List Draft) {rest : List Token} (h : Token.EndNumber rest) :
    (itemTokens items ++ rest).IsChain Token.MayFollow := by
  match items with
  | [] => exact h.chain
  | [v] => exact isChain_tokens v h
  | v :: next :: items =>
      rw [itemTokens_cons_cons, List.append_assoc, List.cons_append]
      exact isChain_tokens v (.cons (isChain_itemTokens (next :: items) h) rfl)

/-- Tokens of members may follow each other. -/
theorem isChain_memberTokens (members : List (Option String × Draft)) {rest : List Token}
    (h : Token.EndNumber rest) : (memberTokens members ++ rest).IsChain Token.MayFollow := by
  match members with
  | [] => exact h.chain
  | [(key, v)] =>
      have hvalue : (Token.colon :: (v.tokens ++ rest)).IsChain Token.MayFollow :=
        (isChain_tokens v h).cons fun _ _ => trivial
      exact hvalue.cons fun _ _ => trivial
  | (key, v) :: next :: members =>
      have hmore : Token.EndNumber (.comma :: (memberTokens (next :: members) ++ rest)) :=
        .cons (isChain_memberTokens (next :: members) h) rfl
      have hvalue : (Token.colon :: (v.tokens ++
          .comma :: (memberTokens (next :: members) ++ rest))).IsChain Token.MayFollow :=
        (isChain_tokens v hmore).cons fun _ _ => trivial
      rw [memberTokens_cons_cons, List.cons_append, List.cons_append, List.append_assoc,
        List.cons_append]
      exact hvalue.cons fun _ _ => trivial

end

/-! ## Assembly -/

/-- How assembly goes on after a token. -/
def resume : Step → List Token → Draft × List Token
  | .go frames want, tokens => assemble frames want tokens
  | .done v, tokens => (v, tokens)
  | .broken v, _ => (v, [])

/-- Tokens are assembled one by one. -/
theorem assemble_cons (frames : List Frame) (want : Want) (token : Token) (tokens : List Token) :
    assemble frames want (token :: tokens) = resume (step frames want token) tokens := by
  rw [assemble]
  cases step frames want token with
  | go frames want => rfl
  | done v => rfl
  | broken v => rfl

/-- Where an array may be closed, a value may start all the same. -/
theorem step_itemOrClose (frames : List Frame) {token : Token} (h : token ≠ .closeArray) :
    step frames .itemOrClose token = startValue frames token := by
  cases token with
  | closeArray => exact absurd rfl h
  | _ => rfl

/-- A value goes on where one is wanted. -/
theorem resume_startValue {want : Want} (hwant : want = .value ∨ want = .itemOrClose)
    (frames : List Frame) {token : Token} (h : token ≠ .closeArray) (tokens : List Token) :
    assemble frames want (token :: tokens) = resume (startValue frames token) tokens := by
  rw [assemble_cons]
  rcases hwant with rfl | rfl
  · rfl
  · rw [step_itemOrClose frames h]

mutual

/-- The tokens of a value are assembled to the value, where one may start. -/
theorem assemble_tokens (v : Draft) (hv : Token.stray ∉ v.tokens) {want : Want}
    (hwant : want = .value ∨ want = .itemOrClose) (frames : List Frame) (rest : List Token) :
    assemble frames want (v.tokens ++ rest) = resume (finish v frames) rest := by
  cases v with
  | null => exact resume_startValue hwant frames (by decide) rest
  | boolean value => exact resume_startValue hwant frames (by simp) rest
  | number value => exact resume_startValue hwant frames (by simp) rest
  | string text => exact resume_startValue hwant frames (by simp) rest
  | gap => exact absurd List.mem_cons_self hv
  | keyless v => exact absurd (by simp [tokens]) hv
  | array items closed =>
      cases closed with
      | false => exact absurd (by simp [tokens]) hv
      | true =>
          have htokens : (Draft.array items true).tokens ++ rest =
              .openArray :: (itemTokens items ++ .closeArray :: rest) := by
            simp [tokens]
          have hitems : Token.stray ∉ itemTokens items := by
            simpa [tokens] using hv
          rw [htokens, resume_startValue hwant frames (by decide)]
          exact assemble_itemTokens items hitems [] (Or.inr rfl) frames rest
  | object members closed =>
      cases closed with
      | false => exact absurd (by simp [tokens]) hv
      | true =>
          have htokens : (Draft.object members true).tokens ++ rest =
              .openObject :: (memberTokens members ++ .closeObject :: rest) := by
            simp [tokens]
          have hmembers : Token.stray ∉ memberTokens members := by
            simpa [tokens] using hv
          rw [htokens, resume_startValue hwant frames (by decide)]
          exact assemble_memberTokens members hmembers [] (Or.inr rfl) frames rest

/-- The tokens of items are assembled within their array. -/
theorem assemble_itemTokens (items : List Draft) (hitems : Token.stray ∉ itemTokens items)
    (before : List Draft) {want : Want}
    (hwant : want = .value ∧ items ≠ [] ∨ want = .itemOrClose) (frames : List Frame)
    (rest : List Token) :
    assemble (.array before :: frames) want (itemTokens items ++ .closeArray :: rest) =
      resume (finish (.array (before.reverse ++ items) true) frames) rest := by
  have hstart : items ≠ [] → want = .value ∨ want = .itemOrClose := by
    rcases hwant with ⟨hvalue, -⟩ | hclose
    · exact fun _ => Or.inl hvalue
    · exact fun _ => Or.inr hclose
  match items with
  | [] =>
      rcases hwant with ⟨-, hnil⟩ | rfl
      · exact absurd rfl hnil
      · rw [List.append_nil]
        exact assemble_cons _ _ _ _
  | [v] =>
      rw [itemTokens, assemble_tokens v hitems (hstart (by simp))]
      have hall : before.reverse ++ [v] = (v :: before).reverse := by
        simp
      rw [hall]
      exact assemble_cons (.array (v :: before) :: frames) .commaOrClose .closeArray rest
  | v :: next :: items =>
      have htokens : itemTokens (v :: next :: items) ++ .closeArray :: rest =
          v.tokens ++ .comma :: (itemTokens (next :: items) ++ .closeArray :: rest) := by
        simp [itemTokens_cons_cons]
      have hall : before.reverse ++ v :: next :: items =
          (v :: before).reverse ++ next :: items := by
        simp
      have hparts : Token.stray ∉ v.tokens ∧ Token.stray ∉ itemTokens (next :: items) := by
        simpa [itemTokens_cons_cons] using hitems
      rw [htokens, assemble_tokens v hparts.1 (hstart (by simp)), hall]
      exact assemble_itemTokens (next :: items) hparts.2 (v :: before)
        (Or.inl ⟨rfl, by simp⟩) frames rest

/-- The tokens of members are assembled within their object. -/
theorem assemble_memberTokens (members : List (Option String × Draft))
    (hmembers : Token.stray ∉ memberTokens members) (before : List (Option String × Draft))
    {want : Want} (hwant : want = .key ∧ members ≠ [] ∨ want = .keyOrClose)
    (frames : List Frame) (rest : List Token) :
    assemble (.object before none :: frames) want (memberTokens members ++ .closeObject :: rest) =
      resume (finish (.object (before.reverse ++ members) true) frames) rest := by
  have hkey : members ≠ [] → ∀ key tokens,
      assemble (.object before none :: frames) want (.string key :: .colon :: tokens) =
        assemble (.object before (some key) :: frames) .value tokens := by
    rcases hwant with ⟨rfl, -⟩ | rfl
    · exact fun _ key tokens => rfl
    · exact fun _ key tokens => rfl
  match members with
  | [] =>
      rcases hwant with ⟨-, hnil⟩ | rfl
      · exact absurd rfl hnil
      · rw [List.append_nil]
        exact assemble_cons _ _ _ _
  | [(key, v)] =>
      have hv : Token.stray ∉ v.tokens := by
        simpa [memberTokens] using hmembers
      rw [memberTokens, List.cons_append, List.cons_append, hkey (by simp),
        assemble_tokens v hv (Or.inl rfl)]
      have hall : before.reverse ++ [(key, v)] = ((key, v) :: before).reverse := by
        simp
      rw [hall]
      exact assemble_cons (.object ((key, v) :: before) none :: frames) .commaOrClose
        .closeObject rest
  | (key, v) :: next :: members =>
      have htokens : memberTokens ((key, v) :: next :: members) ++ .closeObject :: rest =
          .string key :: .colon :: (v.tokens ++
            .comma :: (memberTokens (next :: members) ++ .closeObject :: rest)) := by
        simp [memberTokens_cons_cons]
      have hall : before.reverse ++ (key, v) :: next :: members =
          ((key, v) :: before).reverse ++ next :: members := by
        simp
      have hparts : Token.stray ∉ v.tokens ∧ Token.stray ∉ memberTokens (next :: members) := by
        simpa [memberTokens_cons_cons] using hmembers
      rw [htokens, hkey (by simp), assemble_tokens v hparts.1 (Or.inl rfl), hall]
      exact assemble_memberTokens (next :: members) hparts.2 ((key, v) :: before)
        (Or.inl ⟨rfl, by simp⟩) frames rest

end

end Draft

/-- A value is read from each of its texts, with nothing after it. -/
theorem Document.ofText_of_hasText {v : Draft} {text : String} (h : v.HasText text) :
    Document.ofText text = ⟨v, false⟩ := by
  have hchain : v.tokens.IsChain Token.MayFollow := by
    have hempty : Token.EndNumber [] := ⟨.nil, by simp⟩
    have hall := Draft.isChain_tokens v hempty
    rwa [List.append_nil] at hall
  have hassemble := Draft.assemble_tokens v h.stray_not_mem (Or.inl rfl) [] []
  rw [List.append_nil] at hassemble
  rw [Document.ofText, Token.read_of_haveText h hchain, hassemble]
  rfl

end EcmaWriter
