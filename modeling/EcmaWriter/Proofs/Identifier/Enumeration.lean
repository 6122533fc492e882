import EcmaWriter.Proofs.Identifier.Minting
import Mathlib.Data.List.Shortlex
import Mathlib.Data.Set.Card

/-!
# EcmaWriter - The order of the supply

The supply lists all texts of a letter followed by letters and digits, shorter ones first and
texts of one length by the alphabet.  So a text stands at the position that is the number of
such texts before it.

Main results:

- Theorem `candidateText_before`: later positions have later names.
- Theorem `exists_candidateText_eq`: every text of this form has a position.
- Theorem `encard_before_candidateText`: the position is the number of texts before.
- Theorem `Candidate.text_enumerates`: the same for 64-bit positions.
-/

namespace EcmaWriter

/-! ## The order of texts -/

/-- Earlier in the alphabet `a-z`, `A-Z`, `0-9`. -/
def EarlierInAlphabet (a b : Char) : Prop :=
  otherChars.idxOf a < otherChars.idxOf b

/-- Shorter, or as long and with the earlier character where the two first differ. -/
def ComesBefore : List Char → List Char → Prop :=
  List.Shortlex EarlierInAlphabet

/-- A letter followed by letters and digits. -/
def IsShortName (s : List Char) : Prop :=
  ∃ c cs, s = c :: cs ∧ c.isAlpha = true ∧ ∀ d ∈ cs, d.isAlphanum = true

instance : Std.Asymm EarlierInAlphabet :=
  ⟨fun _ _ h => Nat.lt_asymm h⟩

instance : Std.Asymm ComesBefore :=
  inferInstanceAs (Std.Asymm (List.Shortlex EarlierInAlphabet))

/-- Texts of one length compare by what comes first in them. -/
theorem ComesBefore.append_singleton {s t : List Char} (h : ComesBefore s t) (a b : Char) :
    ComesBefore (s ++ [a]) (t ++ [b]) := by
  rcases List.shortlex_def.mp h with hshorter | ⟨hlength, hlex⟩
  · refine List.Shortlex.of_length_lt ?_
    rw [List.length_append, List.length_append, List.length_singleton, List.length_singleton]
    omega
  · refine List.Shortlex.of_lex (by simp [hlength]) ?_
    clear h
    induction hlex with
    | nil => exact absurd hlength.symm (Nat.succ_ne_zero _)
    | cons _ ih => exact .cons (ih (Nat.succ.inj hlength))
    | rel hab => exact .rel hab

/-- A last character decides where all before it are the same. -/
theorem ComesBefore.append_left {a b : Char} (h : EarlierInAlphabet a b) (s : List Char) :
    ComesBefore (s ++ [a]) (s ++ [b]) :=
  List.Shortlex.append_left ((List.shortlex_singleton_iff a b).mpr h) s

/-! ## Characters -/

theorem idxOf_candidateChar {n : Nat} (h : n < 62) : otherChars.idxOf (candidateChar n) = n := by
  have hall : ∀ i < 62, otherChars.idxOf (candidateChar i) = i := by decide
  exact hall n h

theorem candidateChar_earlier {a b : Nat} (h : a < b) (hb : b < 62) :
    EarlierInAlphabet (candidateChar a) (candidateChar b) := by
  rw [EarlierInAlphabet, idxOf_candidateChar (by omega), idxOf_candidateChar hb]
  exact h

/-- A letter is one of the first 52 characters of the alphabet. -/
theorem exists_candidateChar_of_isAlpha {c : Char} (h : c.isAlpha = true) :
    ∃ n < 52, candidateChar n = c := by
  have hcases : c.isUpper = true ∨ c.isLower = true := Bool.or_eq_true_iff.mp h
  rcases hcases with hupper | hlower
  · have hrange : 65 ≤ c.toNat ∧ c.toNat ≤ 90 := of_decide_eq_true hupper
    refine ⟨26 + (c.toNat - 65), by omega, ?_⟩
    have hcode : 65 + (26 + (c.toNat - 65) - 26) = c.toNat := by omega
    rw [candidateChar, if_neg (by omega), if_pos (by omega), hcode, Char.ofNat_toNat]
  · have hrange : 97 ≤ c.toNat ∧ c.toNat ≤ 122 := by
      have hboth := Bool.and_eq_true_iff.mp hlower
      exact ⟨of_decide_eq_true hboth.1, of_decide_eq_true hboth.2⟩
    refine ⟨c.toNat - 97, by omega, ?_⟩
    have hcode : 97 + (c.toNat - 97) = c.toNat := by omega
    rw [candidateChar, if_pos (by omega), hcode, Char.ofNat_toNat]

/-- A letter or digit is a character of the alphabet. -/
theorem exists_candidateChar_of_isAlphanum {c : Char} (h : c.isAlphanum = true) :
    ∃ n < 62, candidateChar n = c := by
  have hcases : c.isAlpha = true ∨ c.isDigit = true := Bool.or_eq_true_iff.mp h
  rcases hcases with hletter | hdigit
  · obtain ⟨n, hn, hc⟩ := exists_candidateChar_of_isAlpha hletter
    exact ⟨n, by omega, hc⟩
  · have hrange : 48 ≤ c.toNat ∧ c.toNat ≤ 57 := Char.isDigit_iff_toNat.mp hdigit
    refine ⟨52 + (c.toNat - 48), by omega, ?_⟩
    have hcode : 48 + (52 + (c.toNat - 48) - 52) = c.toNat := by omega
    rw [candidateChar, if_neg (by omega), if_neg (by omega), hcode, Char.ofNat_toNat]

/-! ## Positions -/

/-- The name at a position is a letter followed by letters and digits. -/
theorem isShortName_candidateText (n : Nat) : IsShortName (candidateText n) := by
  have hfirst : ∀ i < 52, (candidateChar i).isAlpha = true := by decide
  have hother : ∀ i < 62, (candidateChar i).isAlphanum = true := by decide
  induction n using Nat.strongRecOn with
  | ind n ih =>
      by_cases h : n < 52
      · exact ⟨candidateChar n, [], candidateText_of_lt h, hfirst n h, List.forall_mem_nil _⟩
      · obtain ⟨c, cs, htext, hc, hcs⟩ := ih ((n - 52) / 62) (by omega)
        refine ⟨c, cs ++ [candidateChar ((n - 52) % 62)], ?_, hc, ?_⟩
        · rw [candidateText_of_ge (by omega), htext, List.cons_append]
        · intro d hd
          rcases List.mem_append.mp hd with hd | hd
          · exact hcs d hd
          · rw [List.mem_singleton.mp hd]
            exact hother _ (Nat.mod_lt _ (by omega))

/-- Later positions have later names. -/
theorem candidateText_before {i j : Nat} (h : i < j) :
    ComesBefore (candidateText i) (candidateText j) := by
  induction j using Nat.strongRecOn generalizing i with
  | ind j ih =>
      by_cases hj : j < 52
      · rw [candidateText_of_lt hj, candidateText_of_lt (by omega)]
        exact (List.shortlex_singleton_iff _ _).mpr (candidateChar_earlier h (by omega))
      · rw [candidateText_of_ge (by omega : 52 ≤ j)]
        by_cases hi : i < 52
        · refine List.Shortlex.of_length_lt ?_
          have hpos := List.length_pos_of_ne_nil (candidateText_ne_nil ((j - 52) / 62))
          rw [candidateText_of_lt hi, List.length_append, List.length_singleton,
            List.length_singleton]
          omega
        · rw [candidateText_of_ge (by omega : 52 ≤ i)]
          rcases Nat.lt_or_ge ((i - 52) / 62) ((j - 52) / 62) with hlt | hge
          · exact (ih _ (by omega) hlt).append_singleton _ _
          · have hsame : (i - 52) / 62 = (j - 52) / 62 := by omega
            rw [hsame]
            exact .append_left (candidateChar_earlier (by omega) (Nat.mod_lt _ (by omega))) _

/-- Every letter followed by letters and digits is the name at some position. -/
theorem exists_candidateText_eq {s : List Char} (h : IsShortName s) :
    ∃ n, candidateText n = s := by
  obtain ⟨c, cs, rfl, hc, hcs⟩ := h
  induction cs using List.reverseRecOn with
  | nil =>
      obtain ⟨n, hn, rfl⟩ := exists_candidateChar_of_isAlpha hc
      exact ⟨n, candidateText_of_lt hn⟩
  | append_singleton ds d ih =>
      obtain ⟨n, hn⟩ := ih fun x hx => hcs x (List.mem_append_left _ hx)
      obtain ⟨k, hk, rfl⟩ := exists_candidateChar_of_isAlphanum (hcs d (by simp))
      refine ⟨52 + 62 * n + k, ?_⟩
      have hdiv : (52 + 62 * n + k - 52) / 62 = n := by omega
      have hmod : (52 + 62 * n + k - 52) % 62 = k := by omega
      rw [candidateText_of_ge (by omega), hdiv, hmod, hn, List.cons_append]

/-- The texts before a name are the names at the positions before it. -/
theorem setOf_before_candidateText (p : Nat) :
    {t | IsShortName t ∧ ComesBefore t (candidateText p)} = candidateText '' Set.Iio p := by
  ext t
  constructor
  · rintro ⟨hname, hbefore⟩
    obtain ⟨n, rfl⟩ := exists_candidateText_eq hname
    refine ⟨n, ?_, rfl⟩
    by_contra hge
    rcases Nat.lt_or_eq_of_le (Nat.le_of_not_lt hge) with hlt | rfl
    · exact Std.Asymm.asymm _ _ hbefore (candidateText_before hlt)
    · exact Std.Asymm.asymm _ _ hbefore hbefore
  · rintro ⟨n, hn, rfl⟩
    exact ⟨isShortName_candidateText n, candidateText_before hn⟩

/-- The position of a name is the number of texts before it. -/
theorem encard_before_candidateText (p : Nat) :
    {t | IsShortName t ∧ ComesBefore t (candidateText p)}.encard = p := by
  rw [setOf_before_candidateText, candidateText_injective.encard_image]
  have hrange : Set.Iio p = ((Finset.range p : Finset Nat) : Set Nat) := by
    ext i
    simp
  rw [hrange, Set.encard_coe_eq_coe_finsetCard, Finset.card_range]

/-- Positions before a block have short names. -/
theorem length_candidateText_le {more n : Nat} (h : n < shorterNames (more + 1)) :
    (candidateText n).length ≤ more + 1 := by
  induction more generalizing n with
  | zero =>
      rw [candidateText_of_lt h]
      exact Nat.le_refl 1
  | succ more ih =>
      by_cases hn : n < 52
      · rw [candidateText_of_lt hn, List.length_singleton]
        omega
      · rw [shorterNames_succ] at h
        have hinit := ih (n := (n - 52) / 62) (by omega)
        rw [candidateText_of_ge (by omega), List.length_append, List.length_singleton]
        omega

/-! ## 64-bit positions -/

/-- The names at 64-bit positions come in the order of texts, each once.  They are letters
followed by letters and digits, and every such text has one position, the number of such texts
before it, and is the name there if a 64-bit word can hold the position.  Finding a name never
fails: no number is too large for a 128-bit word, and no character is looked up past the end of
its table; names have at most eleven characters, so at most ten blocks are gone past. -/
theorem Candidate.text_enumerates :
    (∀ i j : Candidate, i.position < j.position → ComesBefore i.text.toList j.text.toList) ∧
      Function.Injective Candidate.text ∧
      (∀ i : Candidate, IsShortName i.text.toList) ∧
      (∀ s, IsShortName s → ∃! p : ℕ, {t | IsShortName t ∧ ComesBefore t s}.encard = p ∧
        ∀ i : Candidate, i.position.toNat = p → i.text = String.ofList s) ∧
      ∀ i : Candidate, nameAt? i.position = some i.text.toList ∧ i.text.length ≤ 11 := by
  have htext : ∀ i : Candidate, i.text.toList = candidateText i.position.toNat := by
    intro i
    rw [text_eq, String.toList_ofList]
  refine ⟨?_, text_injective, ?_, ?_, ?_⟩
  · intro i j h
    rw [htext, htext]
    exact candidateText_before (UInt64.lt_iff_toNat_lt.mp h)
  · intro i
    rw [htext]
    exact isShortName_candidateText _
  · intro s hs
    obtain ⟨p, rfl⟩ := exists_candidateText_eq hs
    refine ⟨p, ⟨encard_before_candidateText p, ?_⟩, ?_⟩
    · intro i hi
      rw [text_eq, hi]
    · rintro q ⟨hq, -⟩
      rw [encard_before_candidateText] at hq
      exact_mod_cast hq.symm
  · intro i
    have hall : UInt64.size ≤ shorterNames 11 := by decide
    refine ⟨by rw [htext, nameAt?_eq_some], ?_⟩
    rw [← String.length_toList, htext]
    exact length_candidateText_le (Nat.lt_of_lt_of_le (UInt64.toNat_lt i.position) hall)

/-- The last name of two characters and the first of three. -/
theorem Candidate.text_enumerates_across_lengths :
    (⟨3275⟩ : Candidate).text = "Z9" ∧ ComesBefore ['Z', '9'] ['a', 'a', 'a'] ∧
      {t | IsShortName t ∧ ComesBefore t ['a', 'a', 'a']}.encard = (3276 : ℕ) ∧
      (⟨3276⟩ : Candidate).text = "aaa" := by
  obtain ⟨horder, -, -, hposition, -⟩ := text_enumerates
  have hchars : candidateText 3276 = ['a', 'a', 'a'] := by decide +kernel
  have hname := hchars ▸ isShortName_candidateText 3276
  obtain ⟨p, ⟨hp, htext⟩, -⟩ := hposition _ hname
  have hcount : {t | IsShortName t ∧ ComesBefore t ['a', 'a', 'a']}.encard = (3276 : ℕ) := by
    rw [← hchars, encard_before_candidateText]
  have hsame : p = 3276 := by
    rw [hp] at hcount
    exact_mod_cast hcount
  have hfirst := htext ⟨3276⟩ hsame.symm
  have hlast : (⟨3275⟩ : Candidate).text = "Z9" := by decide +kernel
  have hbefore := horder ⟨3275⟩ ⟨3276⟩ (by decide)
  rw [hlast, hfirst] at hbefore
  exact ⟨hlast, hbefore, hcount, hfirst⟩

end EcmaWriter
