import EcmaWriter.Proofs.Comment.Closing
import EcmaWriter.Proofs.Script.Scanner
import EcmaWriter.Proofs.TypeNotation.Grammar

/-!
# EcmaWriter - Scanning types

A scanner that cuts the text of a type into tokens.  White space and comments are skipped.
Angle brackets are always tokens by themselves, also where two of them stand side by side
and would be one operator in an expression; all other tokens are those of expressions.

Main results:

- Definition `TypeNotation.scan`: the tokens of a text.
- Theorem `TypeNotation.scan_documentBlock`: a document is skipped, whatever is in it.
-/

namespace EcmaWriter

namespace TypeNotation

open Script (isLineTerminator)

/-! ## The scanner -/

/-- What follows a block comment. -/
def skipComment : List Char → Option (List Char)
  | [] => none
  | '*' :: '/' :: rest => some rest
  | _ :: rest => skipComment rest

/-- The token at the start of characters, with what follows it. -/
def readToken (cs : List Char) : Option (Token × List Char) :=
  match cs with
  | '<' :: rest => some (.punctuator "<", rest)
  | '>' :: rest => some (.punctuator ">", rest)
  | cs => Script.readToken cs

/-- A comment takes at least one character. -/
theorem length_of_skipComment {cs rest : List Char} (h : skipComment cs = some rest) :
    rest.length < cs.length := by
  fun_induction skipComment cs with
  | case1 => contradiction
  | case2 rest' =>
      obtain rfl := Option.some.inj h
      exact Nat.lt_succ_of_lt (Nat.lt_succ_self _)
  | case3 c cs _ ih => exact Nat.lt_succ_of_lt (ih h)

/-- A token takes at least one character. -/
theorem length_of_readToken {cs rest : List Char} {token : Token}
    (h : readToken cs = some (token, rest)) : rest.length < cs.length := by
  unfold readToken at h
  split at h
  · obtain ⟨-, rfl⟩ := Prod.mk.inj (Option.some.inj h)
    exact Nat.lt_succ_self _
  · obtain ⟨-, rfl⟩ := Prod.mk.inj (Option.some.inj h)
    exact Nat.lt_succ_self _
  · exact Script.length_of_readToken h

/-- The tokens of characters. Blanks and comments separate tokens and are dropped. -/
def scan (cs : List Char) : Option (List Token) :=
  match cs with
  | [] => some []
  | '/' :: '*' :: rest =>
    match _hcomment : skipComment rest with
    | none => none
    | some rest => scan rest
  | '/' :: '/' :: rest => scan (rest.dropWhile fun c => !isLineTerminator c)
  | c :: rest =>
    if c.isWhitespace then scan rest
    else
      match _htoken : readToken (c :: rest) with
      | none => none
      | some (token, rest) => do
        let tokens ← scan rest
        some (token :: tokens)
termination_by cs.length
decreasing_by
  · exact Nat.lt_succ_of_lt (Nat.lt_succ_of_lt (length_of_skipComment _hcomment))
  · exact Nat.lt_succ_of_lt (Nat.lt_succ_of_le (List.dropWhile_suffix _).length_le)
  · exact Nat.lt_succ_self _
  · exact length_of_readToken _htoken

/-- Nothing is scanned to no tokens. -/
theorem scan_nil : scan [] = some [] := by
  rw [scan]

/-- White space is passed over. -/
theorem scan_blank {c : Char} (h : c.isWhitespace = true) (cs : List Char) :
    scan (c :: cs) = scan cs := by
  rw [scan]
  · exact if_pos h
  · rintro rest rfl
    exact absurd h (by decide)
  · rintro rest rfl
    exact absurd h (by decide)

/-- A comment is passed over. -/
theorem scan_comment {cs rest : List Char} (h : skipComment cs = some rest) :
    scan ('/' :: '*' :: cs) = scan rest := by
  rw [scan]
  split
  · rename_i hnone
    exact absurd (h.symm.trans hnone) (by simp)
  · rename_i after hsome
    obtain rfl := Option.some.inj (h.symm.trans hsome)
    rfl

/-- What a token leaves is scanned after it. -/
theorem scan_token {c : Char} {cs rest : List Char} {token : Token} {us : List Token}
    (hslash : c ≠ '/') (hblank : c.isWhitespace = false)
    (h : readToken (c :: cs) = some (token, rest)) (hrest : scan rest = some us) :
    scan (c :: cs) = some (token :: us) := by
  rw [scan, if_neg (Bool.eq_false_iff.mp hblank)]
  · split
    · rename_i hnone
      exact absurd (h.symm.trans hnone) (by simp)
    · rename_i token' after hsome
      obtain ⟨rfl, rfl⟩ := Prod.mk.inj (Option.some.inj (h.symm.trans hsome))
      simp only [Option.bind_eq_bind, Option.bind_some, hrest]
  · rintro rest rfl
    exact absurd rfl hslash
  · rintro rest rfl
    exact absurd rfl hslash

/-- Whether a character starts a token as it does in an expression. -/
def startsPlainly (c : Char) : Bool :=
  c ≠ '/' && c ≠ '<' && c ≠ '>' && !c.isWhitespace

/-- A token that starts no comment is read as in an expression. -/
theorem scan_plain {c : Char} {cs rest : List Char} {token : Token} {us : List Token}
    (hc : startsPlainly c = true) (h : Script.readToken (c :: cs) = some (token, rest))
    (hrest : scan rest = some us) : scan (c :: cs) = some (token :: us) := by
  simp only [startsPlainly, Bool.and_eq_true, decide_eq_true_eq, Bool.not_eq_true'] at hc
  rcases hc with ⟨⟨⟨hslash, hopening⟩, hclosing⟩, hblank⟩
  refine scan_token hslash hblank ?_ hrest
  rw [readToken]
  · exact h
  · rintro more heq
    exact hopening (List.cons.inj heq).1
  · rintro more heq
    exact hclosing (List.cons.inj heq).1

/-- An angle bracket may stand before anything. -/
theorem scan_angle {symbol : String} (h : symbol = "<" ∨ symbol = ">") {rest : List Char}
    {us : List Token} (hrest : scan rest = some us) :
    scan (symbol.toList ++ rest) = some (.punctuator symbol :: us) := by
  rcases h with rfl | rfl
  · have hchars : "<".toList = ['<'] := by decide
    rw [hchars]
    exact scan_token (by decide) (by decide) (by rw [readToken]; rfl) hrest
  · have hchars : ">".toList = ['>'] := by decide
    rw [hchars]
    exact scan_token (by decide) (by decide) (by rw [readToken]; rfl) hrest

/-! ## Documents -/

/-- A comment is skipped up to the first end in it. -/
theorem skipComment_of_unclosed {body : List Char} (h : Unclosed (body ++ ['*']))
    (rest : List Char) : skipComment (body ++ commentEnd ++ rest) = some rest := by
  rw [unclosed_iff_isChain] at h
  induction body with
  | nil => rfl
  | cons c body ih =>
      rw [List.cons_append, List.isChain_cons] at h
      rw [List.cons_append, List.cons_append, skipComment]
      · exact ih h.2
      · rintro more rfl heq
        cases body with
        | nil => exact absurd heq (by simp [commentEnd])
        | cons d body => exact h.1 d rfl rfl (List.cons.inj heq).1

/-- Any number of spaces is passed over. -/
theorem scan_spaces (n : Nat) (cs : List Char) : scan (List.replicate n ' ' ++ cs) = scan cs := by
  induction n with
  | zero => rfl
  | succ n ih =>
      rw [List.replicate_succ, List.cons_append, scan_blank (by decide)]
      exact ih

/-- The indentation of a line is passed over. -/
theorem scan_indentation (level : Nat) (cs : List Char) :
    scan ((indentation level).toList ++ cs) = scan cs := by
  rw [indentation, String.toList_ofList]
  exact scan_spaces _ _

/-- A document is skipped, whatever is in it. -/
theorem scan_documentBlock (level : Nat) (document : String) (rest : List Char) :
    scan ((documentBlock (indentation level) document).toList ++ rest) = scan rest := by
  by_cases hblank : isBlankDocument document = true
  · rw [documentBlock_of_isBlankDocument _ hblank]
    rfl
  · obtain ⟨body, hbody, heq⟩ :=
      exists_documentBody (2 * level) (Bool.eq_false_iff.mpr hblank)
    have hskip := skipComment_of_unclosed hbody ('\n' :: rest)
    rw [List.append_assoc] at hskip
    rw [indentation, heq, List.append_assoc, List.append_assoc, scan_spaces, List.append_assoc,
      List.append_assoc]
    exact (scan_comment hskip).trans (scan_blank (by decide) rest)

end TypeNotation

end EcmaWriter
