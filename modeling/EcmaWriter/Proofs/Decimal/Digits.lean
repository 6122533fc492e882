import Mathlib.Data.List.Basic

/-!
# EcmaWriter - Runs of digits

The decimal digits of a number as a run of characters at the front of a text.

Main results:

- Theorem `takeWhile_run`: where a run of characters ends.
- Theorem `toDigits_eq_of_head`: no digits but those of zero start with zero.
-/

namespace EcmaWriter

/-- A run of characters ends where the next one does not belong to it. -/
theorem takeWhile_run {p : Char → Bool} {cs rest : List Char} (hcs : ∀ c ∈ cs, p c = true)
    (hrest : rest.head?.any p = false) :
    (cs ++ rest).takeWhile p = cs ∧ (cs ++ rest).dropWhile p = rest := by
  rw [List.takeWhile_append_of_pos hcs, List.dropWhile_append_of_pos hcs]
  cases rest with
  | nil => simp
  | cons c rest =>
      have hc : p c = false := hrest
      simp [hc]

/-- The digits of a number are a run of digits. -/
theorem takeWhile_toDigits (n : Nat) {rest : List Char}
    (hrest : rest.head?.any Char.isDigit = false) :
    (Nat.toDigits 10 n ++ rest).takeWhile Char.isDigit = Nat.toDigits 10 n ∧
      (Nat.toDigits 10 n ++ rest).dropWhile Char.isDigit = rest := by
  refine takeWhile_run ?_ hrest
  intro c hc
  exact Nat.isDigit_of_mem_toDigits (by decide) (by decide) hc

/-- Only zero starts with the digit zero. -/
theorem toDigits_eq_of_head {n : Nat} (h : (Nat.toDigits 10 n).head? = some '0') :
    Nat.toDigits 10 n = ['0'] := by
  induction n using Nat.strongRecOn with
  | ind n ih =>
      rcases Nat.lt_or_ge n 10 with hn | hn
      · have hall : ∀ n < 10, (Nat.toDigits 10 n).head? = some '0' → Nat.toDigits 10 n = ['0'] := by
          decide
        exact hall n hn h
      · rw [Nat.toDigits_of_base_le (by decide) hn,
          List.head?_append_of_ne_nil _ Nat.toDigits_ne_nil] at h
        have hzero := ih (n / 10) (by omega) h
        have hvalue := Nat.ofDigitChars_ten_toDigits (n := n / 10)
        rw [hzero] at hvalue
        have hnone : n / 10 = 0 := hvalue.symm
        omega

end EcmaWriter
