import EcmaWriter.Identifier
import EcmaWriter.Proofs.Comment.Closing
import EcmaWriter.Proofs.Script.Literal
import EcmaWriter.Text.Comment
import EcmaWriter.Text.StringLiteral

/-!
# EcmaWriter - Lexical contexts

A reader that goes over source text character by character and knows only three things:
code, strings in double quotes, in which a backslash escapes one character, and block
comments.  In code it keeps the brackets that are open.  It stops at a bracket that closes
another than the innermost one, and at a line terminator inside a string.

Text is self-contained if the reader comes out of it as it went in: in code, with the same
brackets open.  Put one after the other, or between a pair of brackets, such texts make up
such texts again.  String literals and comments are self-contained whatever is in them.

Main results:

- Definition `Reader.scan`: how far a reader gets in a text.
- Theorem `selfContained_stringLiteral`: a string literal is self-contained.
- Theorem `selfContained_comment`: a comment is self-contained if its body does not end it.
- Theorem `selfContained_documentBlock`: a document is self-contained.
-/

namespace EcmaWriter

open Script

/-! ## The reader -/

/-- What a reader of source text takes the next character for. -/
inductive Context
  | code
  /-- Code after a slash, which may open a comment. -/
  | slash
  | string
  /-- A string after a backslash. -/
  | escape
  | comment
  /-- A comment after a star, which may close it. -/
  | star
deriving DecidableEq

/-- How far a reader is: its context and the closing brackets that it waits for, the
innermost first. -/
structure Reader where
  context : Context
  awaited : List Char
deriving DecidableEq

/-- The bracket that closes an opening one. -/
def closing? : Char → Option Char
  | '(' => some ')'
  | '[' => some ']'
  | '\x7b' => some '\x7d'
  | _ => none

/-- Whether a character is a closing bracket. -/
def isClosing (c : Char) : Bool :=
  [')', ']', '\x7d'].contains c

namespace Reader

/-- One character of code. A closing bracket has to be the one that is awaited. -/
def stepCode (awaited : List Char) (c : Char) : Option Reader :=
  match closing? c with
  | some close => some ⟨.code, close :: awaited⟩
  | none =>
    if c = '"' then some ⟨.string, awaited⟩
    else if c = '/' then some ⟨.slash, awaited⟩
    else if isClosing c then
      if awaited.head? = some c then some ⟨.code, awaited.tail⟩ else none
    else some ⟨.code, awaited⟩

/-- One character. A string cannot go over the end of a line. -/
def step (r : Reader) (c : Char) : Option Reader :=
  match r.context with
  | .code => stepCode r.awaited c
  | .slash => if c = '*' then some ⟨.comment, r.awaited⟩ else stepCode r.awaited c
  | .string =>
    if isLineTerminator c then none
    else if c = '"' then some ⟨.code, r.awaited⟩
    else if c = '\\' then some ⟨.escape, r.awaited⟩
    else some ⟨.string, r.awaited⟩
  | .escape => if isLineTerminator c then none else some ⟨.string, r.awaited⟩
  | .comment => if c = '*' then some ⟨.star, r.awaited⟩ else some ⟨.comment, r.awaited⟩
  | .star =>
    if c = '/' then some ⟨.code, r.awaited⟩
    else if c = '*' then some ⟨.star, r.awaited⟩
    else some ⟨.comment, r.awaited⟩

/-- How far a reader gets in a text, unless it is stopped. -/
def scan (r : Reader) (cs : List Char) : Option Reader :=
  cs.foldlM step r

/-- The reader at the start of a file. -/
def start : Reader :=
  ⟨.code, []⟩

@[simp] theorem scan_nil (r : Reader) : r.scan [] = some r := rfl

@[simp] theorem scan_cons (r : Reader) (c : Char) (cs : List Char) :
    r.scan (c :: cs) = (r.step c).bind fun r => r.scan cs := rfl

/-- Two texts are gone over one after the other. -/
theorem scan_append (r : Reader) (cs ds : List Char) :
    r.scan (cs ++ ds) = (r.scan cs).bind fun r => r.scan ds :=
  List.foldlM_append

/-- Where the first text leaves the reader the second one starts. -/
theorem scan_append_of_eq {r r' : Reader} {cs : List Char} (h : r.scan cs = some r')
    (ds : List Char) : r.scan (cs ++ ds) = r'.scan ds := by
  rw [scan_append, h]
  rfl

/-- Only a star may lead out of a comment. -/
theorem step_comment {c : Char} (h : c ≠ '*') (awaited : List Char) :
    step ⟨.comment, awaited⟩ c = some ⟨.comment, awaited⟩ :=
  if_neg h

/-- After a star that no slash follows the comment goes on. -/
theorem step_star {c : Char} (hslash : c ≠ '/') (hstar : c ≠ '*') (awaited : List Char) :
    step ⟨.star, awaited⟩ c = some ⟨.comment, awaited⟩ :=
  (if_neg hslash).trans (if_neg hstar)

/-- What comes after a backslash is part of the string. -/
theorem step_escape {c : Char} (h : isLineTerminator c = false) (awaited : List Char) :
    step ⟨.escape, awaited⟩ c = some ⟨.string, awaited⟩ :=
  if_neg (Bool.eq_false_iff.mp h)

/-- Plain characters do not end a string. -/
theorem step_string {c : Char} (h : IsPlain c) (awaited : List Char) :
    step ⟨.string, awaited⟩ c = some ⟨.string, awaited⟩ :=
  (if_neg (Bool.eq_false_iff.mp h.2.2.1)).trans ((if_neg h.2.1).trans (if_neg h.1))

/-- A pair of brackets of different kinds and a string over two lines stop the reader. -/
example : start.scan "(]".toList = none ∧ start.scan "\"\n\"".toList = none := by
  decide

end Reader

open Reader

/-! ## Self-contained text -/

/-- A reader in code comes out of the text as it went in. -/
def SelfContained (cs : List Char) : Prop :=
  ∀ awaited, scan ⟨.code, awaited⟩ cs = some ⟨.code, awaited⟩

/-- Characters that take a reader of code somewhere. -/
def significant : List Char :=
  ['(', ')', '[', ']', '\x7b', '\x7d', '"', '/']

/-- Characters that mean nothing to the reader, wherever they stand in code. -/
def isInert (c : Char) : Bool :=
  !significant.contains c

/-- A character is inert unless it is one of the significant ones. -/
theorem isInert_iff {c : Char} : isInert c = true ↔ c ∉ significant := by
  simp [isInert]

/-- Inert characters do not move the reader. -/
theorem stepCode_of_isInert {c : Char} (h : isInert c = true) (awaited : List Char) :
    stepCode awaited c = some ⟨.code, awaited⟩ := by
  have hmem := isInert_iff.mp h
  have hopening : closing? c = none := by
    unfold closing?
    split
    case h_4 => rfl
    all_goals exact absurd (by decide) hmem
  have hquote : c ≠ '"' := by
    rintro rfl
    exact hmem (by decide)
  have hslash : c ≠ '/' := by
    rintro rfl
    exact hmem (by decide)
  have hclosing : ¬ isClosing c = true := by
    intro hc
    have hsub : [')', ']', '\x7d'] ⊆ significant := by decide
    exact hmem (hsub (List.contains_iff_mem.mp hc))
  rw [stepCode, hopening]
  dsimp only
  rw [if_neg hquote, if_neg hslash, if_neg hclosing]

namespace SelfContained

variable {cs ds : List Char}

/-- Nothing is self-contained. -/
@[simp] theorem nil : SelfContained [] :=
  fun _ => rfl

/-- Two self-contained texts, one after the other. -/
theorem append (h : SelfContained cs) (h' : SelfContained ds) : SelfContained (cs ++ ds) := by
  intro awaited
  rw [scan_append_of_eq (h awaited)]
  exact h' awaited

/-- Inert characters are self-contained in any order. -/
theorem of_isInert (h : cs.all isInert = true) : SelfContained cs := by
  intro awaited
  induction cs with
  | nil => rfl
  | cons c cs ih =>
      rw [List.all_cons, Bool.and_eq_true] at h
      have hstep : step ⟨.code, awaited⟩ c = some ⟨.code, awaited⟩ :=
        stepCode_of_isInert h.1 awaited
      rw [scan_cons, hstep]
      exact ih h.2

/-- Self-contained text in a pair of brackets. -/
theorem bracketed {c d : Char} (hpair : closing? c = some d) (h : SelfContained cs) :
    SelfContained (c :: (cs ++ [d])) := by
  intro awaited
  have hopen : step ⟨.code, awaited⟩ c = some ⟨.code, d :: awaited⟩ := by
    have hcode : step ⟨.code, awaited⟩ c = stepCode awaited c := rfl
    rw [hcode, stepCode, hpair]
  have hclose : scan ⟨.code, d :: awaited⟩ [d] = some ⟨.code, awaited⟩ := by
    unfold closing? at hpair
    split at hpair
    case h_4 => exact absurd hpair (Option.some_ne_none d).symm
    all_goals
      rw [← Option.some.inj hpair]
      rfl
  rw [scan_cons, hopen, Option.bind_some, scan_append_of_eq (h (d :: awaited)), hclose]

end SelfContained

/-! ## Names and numbers -/

/-- No character of a name is significant. -/
theorem isInert_of_isIdentifierPart {c : Char} (h : isIdentifierPart c = true) :
    isInert c = true := by
  have hnone : significant.any isIdentifierPart = false := by decide
  rw [isInert_iff]
  intro hmem
  exact absurd h (List.any_eq_false.mp hnone c hmem)

/-- A property name is plain, an identifier in particular. -/
theorem all_isInert_of_isPropertyName {text : String} (h : isPropertyName text = true) :
    text.toList.all isInert = true := by
  rw [isPropertyName] at h
  cases hcs : text.toList with
  | nil => rfl
  | cons c cs =>
      rw [hcs, hasIdentifierShape, Bool.and_eq_true] at h
      have hstart : isIdentifierPart c = true := by
        have hc := h.1
        simp only [isIdentifierStart, isIdentifierPart, Char.isAlphanum, Bool.or_eq_true]
          at hc ⊢
        exact hc.imp_left (Or.imp_left Or.inl)
      rw [List.all_cons, isInert_of_isIdentifierPart hstart, Bool.true_and, List.all_eq_true]
      intro d hd
      exact isInert_of_isIdentifierPart (List.all_eq_true.mp h.2 d hd)

/-- So a name is inert. -/
theorem Identifier.all_isInert (n : Identifier) : n.text.toList.all isInert = true :=
  all_isInert_of_isPropertyName n.isPropertyName

/-- And so is a number. -/
theorem all_isInert_toDigits (n : Nat) : (Nat.toDigits 10 n).all isInert = true := by
  rw [List.all_eq_true]
  intro c hc
  have hdigit : c.isDigit = true := Nat.isDigit_of_mem_toDigits (by decide) (by decide) hc
  refine isInert_of_isIdentifierPart ?_
  simp [isIdentifierPart, Char.isAlphanum, hdigit]

/-- Spaces are self-contained. -/
theorem selfContained_indentation (level : Nat) : SelfContained (indentation level).toList := by
  refine .of_isInert ?_
  rw [indentation, String.toList_ofList, List.all_eq_true]
  intro c hc
  rw [List.eq_of_mem_replicate hc]
  decide

/-! ## String literals -/

/-- No escape leaves its string. -/
theorem scan_escapeForm {c : Char} {next : Option Char} {text : List Char}
    (h : EscapeForm c next text) (awaited : List Char) :
    scan ⟨.string, awaited⟩ text = some ⟨.string, awaited⟩ := by
  cases h with
  | letter l hletter hvalue =>
      rcases of_mem_shortEscapes hletter with ⟨-, -, hline, -⟩
      have hopen : scan ⟨.string, awaited⟩ ['\\'] = some ⟨.escape, awaited⟩ := rfl
      refine (scan_append_of_eq hopen [l]).trans ?_
      rw [scan_cons, step_escape hline]
      rfl
  | nul => rfl
  | two n hcontrol hvalue =>
      have hopen : scan ⟨.string, awaited⟩ ['\\', 'x'] = some ⟨.string, awaited⟩ := rfl
      refine (scan_append_of_eq hopen _).trans ?_
      rw [scan_cons, step_string (isPlain_upperHexDigit _ (by omega)), Option.bind_some,
        scan_cons, step_string (isPlain_upperHexDigit _ (by omega))]
      rfl
  | four d hdigit hvalue =>
      have hopen : scan ⟨.string, awaited⟩ ['\\', 'u', '2', '0', '2'] =
          some ⟨.string, awaited⟩ := rfl
      refine (scan_append_of_eq hopen _).trans ?_
      rw [scan_cons, step_string (isPlain_of_mem hdigit)]
      rfl
  | plain hplain =>
      rw [scan_cons, step_string hplain]
      rfl

/-- The characters between the quotes do not end the literal. -/
theorem scan_escapeText (cs : List Char) (awaited : List Char) :
    scan ⟨.string, awaited⟩ (escapeText cs) = some ⟨.string, awaited⟩ := by
  fun_induction escapeText cs with
  | case1 => rfl
  | case2 cs ih => exact ih
  | case3 c cs _ ih =>
      rw [scan_append_of_eq (scan_escapeForm (escapeForm_escapeChar c _) awaited)]
      exact ih

/-- A string literal is self-contained, whatever the string. -/
theorem selfContained_stringLiteral (value : String) :
    SelfContained (stringLiteral value).toList := by
  intro awaited
  have hopen : scan ⟨.code, awaited⟩ ['"'] = some ⟨.string, awaited⟩ := rfl
  have htext : (stringLiteral value).toList = ['"'] ++ (escapeText value.toList ++ ['"']) := by
    simp [stringLiteral]
  rw [htext, scan_append_of_eq hopen, scan_append_of_eq (scan_escapeText _ awaited)]
  rfl

/-! ## Comments -/

/-- A reader in a comment does not come out of it in the text. -/
def StaysInComment (cs : List Char) : Prop :=
  ∀ awaited, ∃ context, (context = .comment ∨ context = .star) ∧
    scan ⟨.comment, awaited⟩ cs = some ⟨context, awaited⟩

/-- A text that does not end a comment does not do so after a star either, unless it starts
with a slash. -/
theorem scan_unclosed {context : Context} {cs : List Char} (hcs : Unclosed cs)
    (awaited : List Char) (h : context = .comment ∨ context = .star ∧ cs.head? ≠ some '/') :
    ∃ context', (context' = .comment ∨ context' = .star) ∧
      scan ⟨context, awaited⟩ cs = some ⟨context', awaited⟩ := by
  rw [unclosed_iff_isChain] at hcs
  induction cs generalizing context with
  | nil => exact ⟨context, h.imp_right And.left, rfl⟩
  | cons c cs ih =>
      rw [List.isChain_cons] at hcs
      by_cases hstar : c = '*'
      · subst hstar
        have hnext : cs.head? ≠ some '/' := fun hslash => hcs.1 '/' hslash rfl rfl
        rcases ih hcs.2 (Or.inr ⟨rfl, hnext⟩) with ⟨context', hcontext', hscan⟩
        refine ⟨context', hcontext', ?_⟩
        rcases h with rfl | ⟨rfl, -⟩ <;> exact hscan
      · rcases ih hcs.2 (Or.inl rfl) with ⟨context', hcontext', hscan⟩
        refine ⟨context', hcontext', ?_⟩
        rcases h with rfl | ⟨rfl, hslash⟩
        · rw [scan_cons, step_comment hstar]
          exact hscan
        · have hc : c ≠ '/' := by
            rintro rfl
            exact hslash rfl
          rw [scan_cons, step_star hc hstar]
          exact hscan

/-- Text without the end of a comment does not lead out of one. -/
theorem staysInComment_of_unclosed {cs : List Char} (h : Unclosed cs) : StaysInComment cs :=
  fun awaited => scan_unclosed h awaited (Or.inl rfl)

/-- A comment is self-contained if its body does not end it. -/
theorem selfContained_comment {body : List Char} (h : StaysInComment body) :
    SelfContained ("/*".toList ++ body ++ "*/".toList) := by
  intro awaited
  have hopen : scan ⟨.code, awaited⟩ "/*".toList = some ⟨.comment, awaited⟩ := rfl
  rcases h awaited with ⟨context, hcontext, hscan⟩
  rw [List.append_assoc, scan_append_of_eq hopen, scan_append_of_eq hscan]
  rcases hcontext with rfl | rfl <;> rfl

/-- The credit line does not end its comment, whatever the links. -/
theorem staysInComment_bannerBody (links : List String) :
    StaysInComment (bannerBody links).toList :=
  staysInComment_of_unclosed (unclosed_bannerBody links)

/-- A document is self-contained, whatever is in it. -/
theorem selfContained_documentBlock (level : Nat) (document : String) :
    SelfContained (documentBlock (indentation level) document).toList := by
  by_cases hblank : isBlankDocument document = true
  · rw [documentBlock_of_isBlankDocument _ hblank]
    exact .nil
  · obtain ⟨body, hbody, heq⟩ :=
      exists_documentBody (2 * level) (Bool.eq_false_iff.mpr hblank)
    have hindent : SelfContained (List.replicate (2 * level) ' ') := by
      simpa [indentation] using selfContained_indentation level
    have hcomment := selfContained_comment (staysInComment_of_unclosed hbody.of_append_left)
    have hnewline : SelfContained ['\n'] := .of_isInert (by decide)
    rw [indentation, heq]
    exact (hindent.append hcomment).append hnewline

end EcmaWriter
