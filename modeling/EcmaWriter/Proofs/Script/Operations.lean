import EcmaWriter.Proofs.Scoping.Agreement
import EcmaWriter.Proofs.Script.RoundTrip

/-!
# EcmaWriter - Texts of operations

What is written of references, numbers and operators is a sequence of pieces, between which
either an operand or an operator is expected.  A parenthesis changes nothing about what is
expected, so a sequence stays one when parentheses are taken away, whether they match or not.

Sequences are scanned piece by piece, with one exception.  Two minus signs in a row become
one token, which no operation has.  So where minus is a unary operator in the tokens of a
sequence, no other minus comes next.

Main results:

- Definition `Script.Sequence`: the texts of operations, with or without parentheses.
- Theorem `Script.Sequence.delete`: a sequence without one of its parentheses.
- Theorem `Script.Sequence.exists_scanned`: the tokens of a sequence have its parentheses, and
  their minus signs keep apart.
- Theorem `Expr.isOperand_layout`: what is written of an operation is a sequence.
-/

namespace EcmaWriter

open Script Lexeme

/-! ## Sequences of pieces -/

namespace Script

/-- What the next piece of a text is to be. -/
inductive Expected
  | operand
  | operator
deriving DecidableEq

/-- The marks that stand between operands. -/
def marks : List String :=
  "?" :: ":" :: operators.map fun op => (production op).symbol

/-- The pieces of the texts of operations, with what is expected before and after them. -/
inductive Piece : Expected → List Char → Expected → Prop
  | opening : Piece .operand ['('] .operand
  | closing : Piece .operator [')'] .operator
  | name (n : Identifier) : Piece .operand n.text.toList .operator
  | number (n : Nat) : Piece .operand (Nat.toDigits 10 n) .operator
  | sign {symbol : String} (h : symbol ∈ ["-", "~", "!"]) :
    Piece .operand symbol.toList .operand
  | keyword {word : String} (h : word ∈ ["typeof", "await"]) :
    Piece .operand (word.toList ++ [' ']) .operand
  | mark {symbol : String} (h : symbol ∈ marks) :
    Piece .operator (' ' :: symbol.toList ++ [' ']) .operand

/-- A text of pieces, each of which is one that is expected. It may end anywhere. -/
inductive Sequence : Expected → List Char → Prop
  | nil {x : Expected} : Sequence x []
  | cons {x y : Expected} {piece cs : List Char} (h : Piece x piece y) (hcs : Sequence y cs) :
    Sequence x (piece ++ cs)

/-! ### Taking parentheses away -/

/-- Words have no parentheses and no signs. -/
theorem not_mem_of_hasIdentifierShape {cs : List Char} {c : Char}
    (h : hasIdentifierShape cs = true) (hc : isWordPart c = false) : c ∉ cs := by
  intro hmem
  have hpart : isWordPart c = true := by
    cases cs with
    | nil => exact absurd hmem List.not_mem_nil
    | cons d cs =>
        have hshape : isWordStart d = true ∧ ∀ e ∈ cs, isWordPart e = true := by
          rw [hasIdentifierShape, Bool.and_eq_true, List.all_eq_true] at h
          exact h
        rcases List.mem_cons.mp hmem with rfl | hmem
        · have hstart := hshape.1
          simp only [isWordStart, isWordPart, Char.isAlphanum, Bool.or_eq_true] at hstart ⊢
          tauto
        · exact hshape.2 c hmem
  rw [hc] at hpart
  exact Bool.false_ne_true hpart

/-- Only digits are in a number. -/
theorem not_mem_toDigits {n : Nat} {c : Char} (hc : c.isDigit = false) :
    c ∉ Nat.toDigits 10 n := by
  intro hmem
  rw [Nat.isDigit_of_mem_toDigits (by decide) (by decide) hmem] at hc
  exact Bool.false_ne_true hc.symm

/-- The text of an identifier has the shape of one. -/
theorem hasIdentifierShape_text (n : Identifier) : hasIdentifierShape n.text.toList = true := by
  have hbare := n.isBare
  rw [isBareName, Bool.and_eq_true] at hbare
  exact hbare.1

/-- A parenthesis is not in a text that has none. -/
theorem not_mem_of_parenthesis {cs : List Char} {c : Char} (hc : c = '(' ∨ c = ')')
    (hcs : '(' ∉ cs ∧ ')' ∉ cs) : c ∉ cs := by
  rcases hc with rfl | rfl
  · exact hcs.1
  · exact hcs.2

/-- A parenthesis is a piece of its own, and leaves what is expected as it is. -/
theorem Piece.eq_or_not_mem {x y : Expected} {piece : List Char} {c : Char}
    (h : Piece x piece y) (hc : c = '(' ∨ c = ')') : piece = [c] ∧ x = y ∨ c ∉ piece := by
  have hword : isWordPart c = false ∧ c.isDigit = false := by
    rcases hc with rfl | rfl <;> decide
  cases h with
  | opening =>
      rcases hc with rfl | rfl
      · exact Or.inl ⟨rfl, rfl⟩
      · exact Or.inr (by decide)
  | closing =>
      rcases hc with rfl | rfl
      · exact Or.inr (by decide)
      · exact Or.inl ⟨rfl, rfl⟩
  | name n =>
      exact Or.inr (not_mem_of_hasIdentifierShape (hasIdentifierShape_text n) hword.1)
  | number n => exact Or.inr (not_mem_toDigits hword.2)
  | sign h =>
      have hall : ∀ symbol ∈ ["-", "~", "!"], '(' ∉ symbol.toList ∧ ')' ∉ symbol.toList := by
        decide
      exact Or.inr (not_mem_of_parenthesis hc (hall _ h))
  | keyword h =>
      have hall : ∀ word ∈ ["typeof", "await"],
          '(' ∉ word.toList ++ [' '] ∧ ')' ∉ word.toList ++ [' '] := by
        decide
      exact Or.inr (not_mem_of_parenthesis hc (hall _ h))
  | mark h =>
      have hall : ∀ symbol ∈ marks,
          '(' ∉ ' ' :: symbol.toList ++ [' '] ∧ ')' ∉ ' ' :: symbol.toList ++ [' '] := by
        decide
      exact Or.inr (not_mem_of_parenthesis hc (hall _ h))

/-- Without one of its parentheses a sequence is a sequence. -/
theorem Sequence.delete {x : Expected} {before after : List Char} {c : Char}
    (hc : c = '(' ∨ c = ')') (h : Sequence x (before ++ c :: after)) :
    Sequence x (before ++ after) := by
  generalize hcs : before ++ c :: after = cs at h
  induction h generalizing before with
  | nil => exact absurd hcs (by simp)
  | @cons x y piece cs hpiece hrest ih =>
      rcases hpiece.eq_or_not_mem hc with ⟨rfl, rfl⟩ | hnot
      · cases before with
        | nil =>
            obtain rfl := (List.cons.inj hcs).2
            exact hrest
        | cons d before =>
            obtain ⟨rfl, hcs⟩ := List.cons.inj hcs
            have hcons : Sequence x ([d] ++ (before ++ after)) := .cons hpiece (ih hcs)
            exact hcons
      · rcases List.append_eq_append_iff.mp hcs with ⟨middle, rfl, hsplit⟩ | ⟨middle, rfl, hsplit⟩
        · cases middle with
          | nil =>
              have hdelete : Sequence y ([] ++ after) := ih hsplit
              exact .cons (List.append_nil before ▸ hpiece) hdelete
          | cons d middle =>
              obtain ⟨rfl, -⟩ := List.cons.inj hsplit
              exact absurd (List.mem_append_right _ List.mem_cons_self) hnot
        · rw [List.append_assoc]
          exact .cons hpiece (ih hsplit.symm)

/-! ### Scanning -/

/-- Whether an operand ends with a token. -/
def Token.ends : Token → Bool
  | .number _ => true
  | .string _ => true
  | .word text => text != "typeof" && text != "await"
  | .punctuator symbol => symbol == ")"

/-- Whether no minus sign comes directly after one that is a unary operator, which it is if no
operand ends before it. -/
def apart (ended : Bool) : List Token → Bool
  | [] => true
  | token :: ts =>
    (ended || token != .punctuator "-" || ts.head? != some (.punctuator "-"))
      && apart token.ends ts

/-- What the tokens of a sequence tell about it. -/
structure Scanned (x : Expected) (cs : List Char) (ts : List Token) : Prop where
  scan : scan cs = some ts
  count : ts.count (.punctuator "(") = cs.count '('
  apart : apart (x = .operator) ts = true
  /-- A minus sign comes first only if it is the first character. -/
  minus : x = .operand → ts.head? = some (.punctuator "-") → cs.head? = some '-'

/-- One token, with spaces that are dropped before it and after it. -/
theorem Scanned.cons {x y : Expected} {text cs rest inner : List Char} {token : Token}
    {ts : List Token} (h : Scanned y inner ts) (htext : Script.scan text = Script.scan cs)
    (hread : readToken cs = some (token, rest)) (hrest : Script.scan rest = Script.scan inner)
    (hcount : text.count '(' = [token].count (.punctuator "(") + inner.count '(')
    (hends : token.ends = decide (y = .operator))
    (hminus : x = .operand → token = .punctuator "-" →
      text.head? = some '-' ∧ inner.head? ≠ some '-' ∧ y = .operand) :
    Scanned x text (token :: ts) := by
  refine ⟨?_, ?_, ?_, ?_⟩
  · rw [htext]
    exact scan_token hread (hrest.trans h.scan)
  · rw [hcount, ← h.count, ← List.count_append]
    rfl
  · rw [Script.apart, hends, h.apart, Bool.and_true, Bool.or_eq_true, Bool.or_eq_true]
    cases x with
    | operator => exact Or.inl (Or.inl rfl)
    | operand =>
        by_cases htoken : token = .punctuator "-"
        · obtain ⟨-, hinner, hy⟩ := hminus rfl htoken
          refine Or.inr (bne_iff_ne.mpr ?_)
          intro hhead
          exact hinner (h.minus hy hhead)
        · exact Or.inl (Or.inr (bne_iff_ne.mpr htoken))
  · intro hx hhead
    exact (hminus hx (Option.some.inj hhead)).1

/-- Where an operator is expected a sequence goes on with a parenthesis or a space. -/
theorem Sequence.head_operator {cs : List Char} (h : Sequence .operator cs) :
    ∀ c ∈ cs.head?, c = ')' ∨ c = ' ' := by
  generalize hx : Expected.operator = x at h
  cases h with
  | nil => intro c hc; exact absurd hc (by simp)
  | cons hpiece hcs =>
      cases hpiece with
      | closing => rintro c ⟨⟩; exact Or.inl rfl
      | mark h => rintro c ⟨⟩; exact Or.inr rfl
      | _ => exact nomatch hx

/-- Neither a parenthesis nor a space goes on with a word or a number. -/
theorem head_facts {cs : List Char} (h : ∀ c ∈ cs.head?, c = ')' ∨ c = ' ') :
    cs.head?.any isWordPart = false ∧ cs.head? ≠ some '.' := by
  cases cs with
  | nil => exact ⟨rfl, by simp⟩
  | cons c cs =>
      rcases h c rfl with rfl | rfl
      · exact ⟨rfl, by simp⟩
      · exact ⟨rfl, by simp⟩

/-- A name starts as words do. -/
theorem isWordStart_of_head {cs : List Char} {c : Char} (h : hasIdentifierShape cs = true)
    (hc : c ∈ cs.head?) : isWordStart c = true := by
  cases cs with
  | nil => exact absurd hc (by simp)
  | cons d cs =>
      obtain rfl : d = c := Option.some.inj hc
      rw [hasIdentifierShape, Bool.and_eq_true] at h
      exact h.1

/-- A number starts with a digit. -/
theorem isDigit_of_head {n : Nat} {c : Char} (hc : c ∈ (Nat.toDigits 10 n).head?) :
    c.isDigit = true :=
  Nat.isDigit_of_mem_toDigits (by decide) (by decide) (List.mem_of_mem_head? hc)

/-- A piece is not empty. Where an operand is expected it does not start with an equals sign,
and with a minus sign only if this is all of it. -/
theorem Piece.head {x y : Expected} {piece : List Char} (h : Piece x piece y) :
    piece ≠ [] ∧ (x = .operand → ∀ c ∈ piece.head?,
      c ≠ '=' ∧ (c = '-' → piece = ['-'] ∧ y = .operand)) := by
  cases h with
  | opening => exact ⟨by simp, fun _ c hc => by obtain rfl := Option.some.inj hc; simp⟩
  | closing => exact ⟨by simp, fun hx => nomatch hx⟩
  | name n =>
      have hshape := hasIdentifierShape_text n
      refine ⟨?_, fun _ c hc => ?_⟩
      · intro hnil
        rw [hnil] at hshape
        exact absurd hshape (by decide)
      · have hstart := isWordStart_of_head hshape hc
        constructor
        · rintro rfl
          exact absurd hstart (by decide)
        · rintro rfl
          exact absurd hstart (by decide)
  | number n =>
      refine ⟨Nat.toDigits_ne_nil, fun _ c hc => ?_⟩
      have hdigit := isDigit_of_head hc
      constructor
      · rintro rfl
        exact absurd hdigit (by decide)
      · rintro rfl
        exact absurd hdigit (by decide)
  | sign h =>
      have hall : ∀ symbol ∈ ["-", "~", "!"], symbol.toList ≠ [] ∧
          symbol.toList.head? ≠ some '=' ∧
          (symbol.toList.head? = some '-' → symbol.toList = ['-']) := by
        decide
      obtain ⟨hne, hequals, hminus⟩ := hall _ h
      refine ⟨hne, fun _ c hc => ⟨?_, ?_⟩⟩
      · rintro rfl
        exact hequals hc
      · rintro rfl
        exact ⟨hminus hc, rfl⟩
  | keyword h =>
      have hall : ∀ word ∈ ["typeof", "await"], (word.toList ++ [' ']).head? ≠ some '=' ∧
          (word.toList ++ [' ']).head? ≠ some '-' := by
        decide
      obtain ⟨hequals, hminus⟩ := hall _ h
      refine ⟨by simp, fun _ c hc => ⟨?_, ?_⟩⟩
      · rintro rfl
        exact absurd hc hequals
      · rintro rfl
        exact absurd hc hminus
  | mark h => exact ⟨by simp, fun hx => nomatch hx⟩

/-- Where an operand is expected a sequence does not go on with an equals sign. -/
theorem Sequence.head_operand {cs : List Char} (h : Sequence .operand cs) :
    ∀ c ∈ cs.head?, c ≠ '=' := by
  cases h with
  | nil => intro c hc; exact absurd hc (by simp)
  | cons hpiece hcs =>
      intro c hc
      rw [List.head?_append_of_ne_nil _ hpiece.head.1] at hc
      exact (hpiece.head.2 rfl c hc).1

namespace Scanned

variable {cs : List Char} {ts : List Token}

/-- A parenthesis opens before an operand. -/
theorem opening (h : Scanned .operand cs ts) :
    Scanned .operand ('(' :: cs) (.punctuator "(" :: ts) := by
  have hread : readToken ("(".toList ++ cs) = some (.punctuator "(", cs) :=
    readToken_punctuator (by decide) (by simp [show continuations "(" = [] by decide])
  exact h.cons rfl hread rfl (by simp [Nat.add_comm]) rfl (by simp)

/-- A parenthesis closes before an operator. -/
theorem closing (h : Scanned .operator cs ts) :
    Scanned .operator (')' :: cs) (.punctuator ")" :: ts) := by
  have hread : readToken (")".toList ++ cs) = some (.punctuator ")", cs) :=
    readToken_punctuator (by decide) (by simp [show continuations ")" = [] by decide])
  exact h.cons rfl hread rfl (by simp) rfl (by simp)

/-- A name is an operand, before an operator or a parenthesis. -/
theorem name (n : Identifier) (h : Scanned .operator cs ts)
    (hcs : ∀ c ∈ cs.head?, c = ')' ∨ c = ' ') :
    Scanned .operand (n.text.toList ++ cs) (.word n.text :: ts) := by
  have hshape := hasIdentifierShape_text n
  have hread := readToken_word hshape (head_facts hcs).1
  rw [String.ofList_toList] at hread
  refine h.cons rfl hread rfl ?_ ?_ (by simp)
  · have hnot : '(' ∉ n.text.toList := not_mem_of_hasIdentifierShape hshape (by decide)
    rw [List.count_append, List.count_eq_zero_of_not_mem hnot]
    simp
  · have htypeof := n.text_ne_of_mem_reservedWords (show "typeof" ∈ reservedWords by decide)
    have hawait := n.text_ne_of_mem_reservedWords (show "await" ∈ reservedWords by decide)
    simp [Token.ends, htypeof, hawait]

/-- A number is an operand, before an operator or a parenthesis. -/
theorem number (n : Nat) (h : Scanned .operator cs ts) (hcs : ∀ c ∈ cs.head?, c = ')' ∨ c = ' ') :
    Scanned .operand (Nat.toDigits 10 n ++ cs) (.number n :: ts) := by
  have hread := readToken_number n false cs (head_facts hcs).1 fun _ => (head_facts hcs).2
  refine h.cons rfl hread rfl ?_ rfl (by simp)
  rw [List.count_append, List.count_eq_zero_of_not_mem (not_mem_toDigits (by decide))]
  simp

/-- A sign before anything but an equals sign and, after minus, another minus sign. -/
theorem sign {symbol : String} (hsymbol : symbol ∈ ["-", "~", "!"]) (h : Scanned .operand cs ts)
    (hequals : ∀ c ∈ cs.head?, c ≠ '=') (hminus : symbol = "-" → cs.head? ≠ some '-') :
    Scanned .operand (symbol.toList ++ cs) (.punctuator symbol :: ts) := by
  have hall : ∀ symbol ∈ ["-", "~", "!"], symbol ∈ punctuators ∧ symbol.toList.count '(' = 0 ∧
      ((continuations symbol).all fun c => c = '=' ∨ c = '-' ∧ symbol = "-") = true ∧
      symbol ≠ "(" ∧ symbol ≠ ")" := by
    decide
  obtain ⟨hmem, hcount, hnext, hopening, hclosing⟩ := hall symbol hsymbol
  have hread : readToken (symbol.toList ++ cs) = some (.punctuator symbol, cs) := by
    refine readToken_punctuator hmem ?_
    intro c hc hcontinues
    rcases of_decide_eq_true (List.all_eq_true.mp hnext c hcontinues) with rfl | ⟨rfl, rfl⟩
    · exact hequals '=' hc rfl
    · exact hminus rfl hc
  refine h.cons rfl hread rfl ?_ ?_ ?_
  · rw [List.count_append, hcount]
    simp [hopening]
  · simp [Token.ends, hclosing]
  · rintro - htoken
    obtain rfl := Token.punctuator.inj htoken
    exact ⟨rfl, hminus rfl, rfl⟩

/-- Two minus signs are one token. -/
theorem doubled (h : Scanned .operand cs ts) :
    Scanned .operand ('-' :: '-' :: cs) (.punctuator "--" :: ts) := by
  have hread : readToken ("--".toList ++ cs) = some (.punctuator "--", cs) :=
    readToken_punctuator (by decide) (by simp [show continuations "--" = [] by decide])
  exact h.cons rfl hread rfl (by simp) rfl (by simp)

/-- An operator that is a word has a space after it. -/
theorem keyword {word : String} (hword : word ∈ ["typeof", "await"]) (h : Scanned .operand cs ts) :
    Scanned .operand (word.toList ++ ' ' :: cs) (.word word :: ts) := by
  have hall : ∀ word ∈ ["typeof", "await"], hasIdentifierShape word.toList = true ∧
      word.toList.count '(' = 0 ∧ Token.ends (.word word) = false := by
    decide
  obtain ⟨hshape, hcount, hends⟩ := hall word hword
  have hread : readToken (word.toList ++ ' ' :: cs) =
      some (.word (String.ofList word.toList), ' ' :: cs) :=
    readToken_word hshape rfl
  rw [String.ofList_toList] at hread
  refine h.cons rfl hread (scan_space cs) ?_ hends (by simp)
  rw [List.count_append, hcount]
  simp

/-- An operator between operands has a space on each side. -/
theorem mark {symbol : String} (hsymbol : symbol ∈ marks) (h : Scanned .operand cs ts) :
    Scanned .operator (' ' :: (symbol.toList ++ ' ' :: cs)) (.punctuator symbol :: ts) := by
  have hall : ∀ symbol ∈ marks, symbol ∈ punctuators ∧ symbol.toList.count '(' = 0 ∧
      ' ' ∉ continuations symbol ∧ symbol ≠ "(" ∧ symbol ≠ ")" := by
    decide
  obtain ⟨hmem, hcount, hnext, hopening, hclosing⟩ := hall symbol hsymbol
  have hread : readToken (symbol.toList ++ ' ' :: cs) = some (.punctuator symbol, ' ' :: cs) := by
    refine readToken_punctuator hmem ?_
    rintro c ⟨⟩
    exact hnext
  refine h.cons (scan_space _) hread (scan_space cs) ?_ ?_ (by simp)
  · rw [List.count_cons_of_ne (by decide), List.count_append, hcount]
    simp [hopening]
  · simp [Token.ends, hclosing]

end Scanned

/-- A sequence can be scanned.  The second part is for the minus sign that may come before
it: if it starts with one itself, the two are one token, and the rest is scanned after that. -/
theorem Sequence.exists_scanned {x : Expected} {cs : List Char} (h : Sequence x cs) :
    (∃ ts, Scanned x cs ts) ∧
      (x = .operand → ∀ rest, cs = '-' :: rest → ∃ ts, Scanned .operand rest ts) := by
  induction h with
  | @nil x =>
      refine ⟨⟨[], ?_, rfl, rfl, by simp⟩, fun _ rest hrest => by simp at hrest⟩
      rw [Script.scan]
  | @cons x y piece cs hpiece hcs ih =>
      obtain ⟨⟨ts, hscanned⟩, hafter⟩ := ih
      constructor
      · cases hpiece with
        | opening => exact ⟨_, hscanned.opening⟩
        | closing => exact ⟨_, hscanned.closing⟩
        | name n => exact ⟨_, hscanned.name n hcs.head_operator⟩
        | number n => exact ⟨_, hscanned.number n hcs.head_operator⟩
        | @sign symbol hsymbol =>
            by_cases hdoubled : symbol = "-" ∧ cs.head? = some '-'
            · obtain ⟨rfl, hhead⟩ := hdoubled
              obtain ⟨rest, rfl⟩ := List.head?_eq_some_iff.mp hhead
              obtain ⟨us, hrest⟩ := hafter rfl rest rfl
              exact ⟨_, hrest.doubled⟩
            · rw [not_and] at hdoubled
              exact ⟨_, hscanned.sign hsymbol hcs.head_operand hdoubled⟩
        | keyword hword =>
            rw [List.append_assoc]
            exact ⟨_, hscanned.keyword hword⟩
        | mark hsymbol =>
            rw [List.cons_append, List.cons_append, List.append_assoc]
            exact ⟨_, hscanned.mark hsymbol⟩
      · rintro rfl rest hrest
        have hminus : '-' ∈ (piece ++ cs).head? := by
          rw [hrest]
          rfl
        rw [List.head?_append_of_ne_nil _ hpiece.head.1] at hminus
        obtain ⟨rfl, rfl⟩ := (hpiece.head.2 rfl '-' hminus).2 rfl
        obtain rfl := (List.cons.inj hrest).2
        exact ⟨ts, hscanned⟩

end Script

/-! ## Operations -/

namespace Expr

/-- Whether an expression has nothing but references, numbers and operators. -/
def isOperation : Expr → Bool
  | .number _ => true
  | .reference _ => true
  | .unary _ e => e.isOperation
  | .binary _ left right => left.isOperation && right.isOperation
  | .conditional condition thenExpr elseExpr =>
    condition.isOperation && thenExpr.isOperation && elseExpr.isOperation
  | _ => false

end Expr

/-- Lexemes that can stand where an operand is expected. -/
def Script.IsOperand (table : ImportTable) (ls : List Lexeme) : Prop :=
  ∀ cs, Sequence .operator cs → Sequence .operand (characters table ls ++ cs)

namespace Script.IsOperand

variable {table : ImportTable} {ls ms ns : List Lexeme}

/-- An operand in parentheses is one. -/
theorem wrappedIf (h : IsOperand table ls) (needed : Bool) :
    IsOperand table (Lexeme.wrappedIf needed ls) := by
  cases needed with
  | false => exact h
  | true =>
      intro cs hcs
      have hclosing : Sequence .operator (')' :: cs) := .cons .closing hcs
      have hinside : Sequence .operand ('(' :: (characters table ls ++ ')' :: cs)) :=
        .cons .opening (h _ hclosing)
      have htext : characters table (Lexeme.wrappedIf true ls) ++ cs =
          '(' :: (characters table ls ++ ')' :: cs) := by
        simp [Lexeme.wrappedIf, parenthesized, characters, Lexeme.text, spell]
      rw [htext]
      exact hinside

/-- An operand as the layout writes it. -/
theorem operand (h : IsOperand table ls) (p : Place) (least : Strength) (e : Expr) :
    IsOperand table (Layout.operand p least e ls) :=
  h.wrappedIf _

/-- A mark between two operands. -/
theorem spaced {symbol : String} (h : IsOperand table ls) (hsymbol : symbol ∈ marks)
    (hms : IsOperand table ms) :
    IsOperand table (ls ++ [space, Lexeme.mark symbol, space] ++ ms) := by
  intro cs hcs
  have hright : Sequence .operator
      ((' ' :: symbol.toList ++ [' ']) ++ (characters table ms ++ cs)) :=
    .cons (.mark hsymbol) (hms cs hcs)
  have htext : characters table (ls ++ [space, Lexeme.mark symbol, space] ++ ms) ++ cs =
      characters table ls ++ ((' ' :: symbol.toList ++ [' ']) ++ (characters table ms ++ cs)) := by
    simp [characters, Lexeme.text, spell]
  rw [htext]
  exact h _ hright

/-- An operator before an operand makes it another operand. -/
theorem unaryOperator (h : IsOperand table ls) (op : UnaryOperator) :
    IsOperand table (Layout.unaryOperator op ++ ls) := by
  intro cs hcs
  have hsign : ∀ symbol ∈ ["-", "~", "!"],
      Sequence .operand (characters table ([Lexeme.mark symbol] ++ ls) ++ cs) := by
    intro symbol hsymbol
    have htext : characters table ([Lexeme.mark symbol] ++ ls) ++ cs =
        symbol.toList ++ (characters table ls ++ cs) := by
      simp [characters, Lexeme.text, spell]
    rw [htext]
    exact .cons (.sign hsymbol) (h cs hcs)
  have hword : ∀ text ∈ ["typeof", "await"],
      Sequence .operand (characters table ([word text, space] ++ ls) ++ cs) := by
    intro text hword
    have htext : characters table ([word text, space] ++ ls) ++ cs =
        (text.toList ++ [' ']) ++ (characters table ls ++ cs) := by
      simp [characters, Lexeme.text, spell]
    rw [htext]
    exact .cons (.keyword hword) (h cs hcs)
  cases op with
  | minus => exact hsign "-" (by decide)
  | bitwiseNot => exact hsign "~" (by decide)
  | logicalNot => exact hsign "!" (by decide)
  | typeOf => exact hword "typeof" (by decide)
  | await => exact hword "await" (by decide)

/-- A name is an operand. -/
theorem name (n : Identifier) : IsOperand table [Layout.name n] := by
  intro cs hcs
  have htext : characters table [Layout.name n] = n.text.toList := by
    simp [characters, Layout.name, Lexeme.text, spell]
  rw [htext]
  exact .cons (.name n) hcs

/-- Digits are an operand. -/
theorem digits (n : Nat) : IsOperand table [Lexeme.digits n false] := by
  intro cs hcs
  have htext : characters table [Lexeme.digits n false] = Nat.toDigits 10 n := by
    simp [characters, Lexeme.text, spell]
  rw [htext]
  exact .cons (.number n) hcs

/-- A number is an operand, with its sign or without. -/
theorem number (value : Int32) : IsOperand table (Layout.number value) := by
  rw [Layout.number]
  split
  · exact (digits _).unaryOperator .minus
  · exact digits _

end Script.IsOperand

/-- What is written of an operation is a sequence of pieces. -/
theorem Expr.isOperand_layout (table : ImportTable) (p : Place) :
    (e : Expr) → e.isOperation = true → IsOperand table (e.layout p)
  | .number value, _ => .number value
  | .reference n, _ => .name n
  | .unary op e, h => ((e.isOperand_layout table p h).wrappedIf _).unaryOperator op
  | .binary op left right, h => by
      obtain ⟨hleft, hright⟩ := Bool.and_eq_true_iff.mp h
      have hmark : op.mark ∈ marks := by cases op <;> decide
      exact ((left.isOperand_layout table p hleft).wrappedIf _).spaced hmark
        ((right.isOperand_layout table p hright).wrappedIf _)
  | .conditional condition thenExpr elseExpr, h => by
      obtain ⟨h, helse⟩ := Bool.and_eq_true_iff.mp h
      obtain ⟨hcondition, hthen⟩ := Bool.and_eq_true_iff.mp h
      have hcondition := (condition.isOperand_layout table p hcondition).operand p
        (.conditional + 1) condition
      have hthen := (thenExpr.isOperand_layout table p hthen).operand p .conditional thenExpr
      have helse := (elseExpr.isOperand_layout table p helse).operand p .conditional elseExpr
      exact (hcondition.spaced (by decide : "?" ∈ marks) hthen).spaced
        (by decide : ":" ∈ marks) helse

end EcmaWriter
