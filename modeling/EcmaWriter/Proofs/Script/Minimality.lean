import EcmaWriter.Proofs.Script.Operations

/-!
# EcmaWriter - No parentheses too many

What is written of references, numbers and operators has no parentheses that could be left
out.  The grammar needs as many: a derivation of the tree of an operation goes through the
same operands as the layout does, and where the layout has parentheses, because an operand is
too weak for its side or starts with a second minus sign, no phrase without them is taken.

Main results:

- Theorem `Expr.Operation.wraps_eq_false`: a side that takes the phrase of an operand has it
  without parentheses.
- Theorem `Expr.bound_of_derives`: a derivation of the tree of an operation has at least the
  parentheses of the layout.
- Theorem `Expr.parentheses_minimal`: without one pair of its parentheses the text of an
  operation does not read as the tree of the operation.
-/

namespace EcmaWriter

open Script Lexeme

namespace Script

/-! ## Phrases -/

/-- What an alternative covers is covered. -/
theorem Phrase.covers_of_mem_alternatives {A B C : Phrase} (h : B ∈ A.alternatives)
    (hC : B.covers C = true) : A.covers C = true := by
  have hall : ∀ B ∈ A.alternatives, B.covers C = true → A.covers C = true := by
    cases A <;> cases C <;> decide
  exact hall B h hC

/-! ## Minus signs that keep apart -/

/-- Tokens that are apart stay so without those after them. -/
theorem apart_append_left {ended : Bool} {ts us : List Token}
    (h : apart ended (ts ++ us) = true) : apart ended ts = true := by
  induction ts generalizing ended with
  | nil => rfl
  | cons token ts ih =>
      rw [List.cons_append, apart, Bool.and_eq_true] at h
      rw [apart, ih h.2, Bool.and_true]
      cases ts with
      | nil => simp
      | cons next ts => exact h.1

/-- Tokens that are apart stay so without those before an operator. -/
theorem apart_append_right {ended : Bool} {token : Token} {ts us : List Token}
    (h : apart ended (ts ++ token :: us) = true) : apart token.ends us = true := by
  induction ts generalizing ended with
  | nil =>
      rw [List.nil_append, apart, Bool.and_eq_true] at h
      exact h.2
  | cons other ts ih =>
      rw [List.cons_append, apart, Bool.and_eq_true] at h
      exact ih h.2

/-- Both sides of a mark keep their minus signs apart. -/
theorem apart_of_marked {symbol : String} {ts us : List Token} (hsymbol : symbol ∈ marks)
    (h : apart false (ts ++ .punctuator symbol :: us) = true) :
    apart false ts = true ∧ apart false us = true := by
  have hends : ∀ symbol ∈ marks, Token.ends (.punctuator symbol) = false := by decide
  have hright := apart_append_right h
  rw [hends symbol hsymbol] at hright
  exact ⟨apart_append_left h, hright⟩

/-! ## Opening parentheses -/

/-- The number of opening parentheses among tokens. -/
def openings (ts : List Token) : Nat :=
  ts.count (.punctuator "(")

/-- Parentheses around tokens are one opening more. -/
theorem openings_enclosed (ts : List Token) :
    openings (enclosed "(" ")" ts) = openings ts + 1 := by
  simp [openings, enclosed]

/-- A mark is no parenthesis. -/
theorem openings_marked {symbol : String} (ts us : List Token) (hsymbol : symbol ∈ marks) :
    openings (ts ++ .punctuator symbol :: us) = openings ts + openings us := by
  have hne : ∀ symbol ∈ marks, symbol ≠ "(" := by decide
  rw [openings, List.count_append, List.count_cons_of_ne]
  · rfl
  · exact fun h => hne symbol hsymbol (Token.punctuator.inj h)

/-- The token of an operator opens nothing. -/
theorem openings_unary (op : UnaryOperator) (ts : List Token) :
    openings (unaryToken op :: ts) = openings ts := by
  cases op <;> simp [openings, unaryToken]

/-- The symbol of an operator is one of the marks. -/
theorem symbol_mem_marks (op : BinaryOperator) : (production op).symbol ∈ marks := by
  cases op <;> decide

end Script

/-! ## Operations and their trees -/

namespace Expr

/-- Operations with their trees. -/
inductive Operation : Expr → Tree → Prop
  | number {value : Int32} (h : ¬ value < 0) :
    Operation (.number value) (.number value.toInt.toNat)
  | negative {value : Int32} (h : value < 0) :
    Operation (.number value) (.unary .minus (.number value.toInt.natAbs))
  | reference (n : Identifier) : Operation (.reference n) (.reference n.text)
  | unary {e : Expr} {t : Tree} (op : UnaryOperator) (h : Operation e t) :
    Operation (.unary op e) (.unary op t)
  | binary {left right : Expr} {t u : Tree} (op : BinaryOperator) (hleft : Operation left t)
    (hright : Operation right u) : Operation (.binary op left right) (.binary op t u)
  | conditional {condition thenExpr elseExpr : Expr} {t u v : Tree}
    (hcondition : Operation condition t) (hthen : Operation thenExpr u)
    (helse : Operation elseExpr v) :
    Operation (.conditional condition thenExpr elseExpr) (.conditional t u v)

/-- An expression of operators, names and numbers has a tree. -/
theorem exists_operation : (e : Expr) → e.isOperation = true → ∃ t, e.Operation t
  | .number value, _ => by
      by_cases hneg : value < 0
      · exact ⟨_, .negative hneg⟩
      · exact ⟨_, .number hneg⟩
  | .reference n, _ => ⟨_, .reference n⟩
  | .unary op e, h => by
      obtain ⟨t, ht⟩ := exists_operation e h
      exact ⟨_, .unary op ht⟩
  | .binary op left right, h => by
      obtain ⟨hleft, hright⟩ := Bool.and_eq_true_iff.mp h
      obtain ⟨t, ht⟩ := exists_operation left hleft
      obtain ⟨u, hu⟩ := exists_operation right hright
      exact ⟨_, .binary op ht hu⟩
  | .conditional condition thenExpr elseExpr, h => by
      obtain ⟨h, helse⟩ := Bool.and_eq_true_iff.mp h
      obtain ⟨hcondition, hthen⟩ := Bool.and_eq_true_iff.mp h
      obtain ⟨t, ht⟩ := exists_operation condition hcondition
      obtain ⟨u, hu⟩ := exists_operation thenExpr hthen
      obtain ⟨v, hv⟩ := exists_operation elseExpr helse
      exact ⟨_, .conditional ht hu hv⟩

namespace Operation

variable {e : Expr} {t : Tree}

/-- The tree of an operation is the one that it is to be read back as. -/
theorem tree?_eq (h : e.Operation t) : e.tree? = some t := by
  induction h with
  | number h => rw [tree?, numberTree, if_neg h]
  | negative h => rw [tree?, numberTree, if_pos h]
  | reference n => rfl
  | unary op h ih => simp [tree?, ih]
  | binary op hleft hright ihl ihr => simp [tree?, ihl, ihr]
  | conditional hcondition hthen helse ihc iht ihe => simp [tree?, ihc, iht, ihe]

/-! ### Phrases that need no parentheses -/

/-- The forms of operations, and what decides about parentheses around each. -/
inductive Form (e : Expr) : Prop
  | primary (hphrase : e.phrase = .primary)
      (hstrength : e.operandStrength .javaScript = Strength.primary)
      (hunary : e.isUnaryLike .javaScript = false) (hop : e.binaryOperator? .javaScript = none)
  | unary (hphrase : e.phrase = .unary)
      (hstrength : e.operandStrength .javaScript = Strength.unary)
      (hunary : e.isUnaryLike .javaScript = true) (hop : e.binaryOperator? .javaScript = none)
  | binary (op : BinaryOperator) (hphrase : e.phrase = (production op).whole)
      (hstrength : e.operandStrength .javaScript = op.strength)
      (hunary : e.isUnaryLike .javaScript = false)
      (hop : e.binaryOperator? .javaScript = some op)
  | conditional (hphrase : e.phrase = .conditional)
      (hstrength : e.operandStrength .javaScript = Strength.conditional)

/-- An operation has one of the forms that the layout writes. -/
theorem form (h : e.Operation t) : Form e := by
  cases h with
  | number hneg =>
      refine .primary ?_ ?_ ?_ rfl
      · rw [phrase, if_neg hneg]
      · simp [operandStrength, written, writtenStrength, hneg]
      · simp [isUnaryLike, written, hneg]
  | negative hneg =>
      refine .unary ?_ ?_ ?_ rfl
      · rw [phrase, if_pos hneg]
      · simp [operandStrength, written, writtenStrength, hneg]
      · simp [isUnaryLike, written, hneg]
  | reference n => exact .primary rfl rfl rfl rfl
  | unary op h => exact .unary rfl rfl rfl rfl
  | binary op hleft hright => exact .binary op rfl rfl rfl rfl
  | conditional hcondition hthen helse => exact .conditional rfl rfl

/-- A side that takes the phrase of an operand has it without parentheses. -/
theorem wraps_eq_false (h : e.Operation t) (op : BinaryOperator) (side : Side)
    (hcovers : (operandPhrase op side).covers e.phrase = true) :
    op.wraps .javaScript side e = false := by
  rw [BinaryOperator.wraps]
  cases h.form with
  | primary hphrase hstrength hunary hop =>
      rw [hstrength, hunary, hop]
      cases op <;> cases side <;> decide
  | unary hphrase hstrength hunary hop =>
      rw [hphrase] at hcovers
      rw [hstrength, hunary, hop]
      revert hcovers
      cases op <;> cases side <;> decide
  | binary inner hphrase hstrength hunary hop =>
      rw [hphrase] at hcovers
      rw [hstrength, hunary, hop]
      revert hcovers
      cases op <;> cases side <;> cases inner <;> decide
  | conditional hphrase hstrength =>
      have hnone : (operandPhrase op side).covers .conditional = false := by
        cases op <;> cases side <;> decide
      rw [hphrase, hnone] at hcovers
      exact absurd hcovers Bool.false_ne_true

/-- Where the operand of a unary operator may stand it has no parentheses. -/
theorem unary_le (h : e.Operation t) (hcovers : Phrase.unary.covers e.phrase = true) :
    Strength.unary ≤ e.operandStrength .javaScript := by
  cases h.form with
  | primary hphrase hstrength => rw [hstrength]; decide
  | unary hphrase hstrength => rw [hstrength]
  | binary op hphrase hstrength =>
      rw [hphrase] at hcovers
      exact absurd hcovers (by cases op <;> decide)
  | conditional hphrase hstrength =>
      rw [hphrase] at hcovers
      exact absurd hcovers (by decide)

/-- No operation is weaker than a conditional expression. -/
theorem conditional_le (h : e.Operation t) :
    Strength.conditional ≤ e.operandStrength .javaScript := by
  cases h.form with
  | primary hphrase hstrength => rw [hstrength]; decide
  | unary hphrase hstrength => rw [hstrength]; decide
  | binary op hphrase hstrength => rw [hstrength]; cases op <;> decide
  | conditional hphrase hstrength => rw [hstrength]

/-- Only a conditional expression is as weak as one, and it is no condition of another. -/
theorem conditional_lt (h : e.Operation t)
    (hcovers : Phrase.shortCircuit.covers e.phrase = true) :
    Strength.conditional + 1 ≤ e.operandStrength .javaScript := by
  cases h.form with
  | primary hphrase hstrength => rw [hstrength]; decide
  | unary hphrase hstrength => rw [hstrength]; decide
  | binary op hphrase hstrength => rw [hstrength]; cases op <;> decide
  | conditional hphrase hstrength =>
      rw [hphrase] at hcovers
      exact absurd hcovers (by decide)

/-- What may be the operand of a unary operator starts with a minus sign only if this is its
own operator. -/
theorem exists_minus (h : e.Operation t) (p : Place)
    (hcovers : Phrase.unary.covers e.phrase = true)
    (hstart : startWith "-" (e.layout p) = true) : ∃ u, t = .unary .minus u := by
  cases h with
  | number hneg => simp [layout, Layout.number, hneg, startWith] at hstart
  | negative hneg => exact ⟨_, rfl⟩
  | reference n => simp [layout, Layout.name, startWith] at hstart
  | unary op h =>
      cases op with
      | minus => exact ⟨_, rfl⟩
      | _ => simp [layout, Layout.unary, Layout.unaryOperator, startWith] at hstart
  | binary op hleft hright =>
      have hnone : Phrase.unary.covers (production op).whole = false := by cases op <;> decide
      exact absurd (hcovers.symm.trans hnone) (by decide)
  | conditional hcondition hthen helse =>
      have hnone : Phrase.unary.covers .conditional = false := by decide
      exact absurd (hcovers.symm.trans hnone) (by decide)

/-! ### Layouts in different places -/

/-- An operation binds as strongly in both dialects. -/
theorem operandStrength_eq (h : e.Operation t) (dialect other : Dialect) :
    e.operandStrength dialect = e.operandStrength other := by
  rw [operandStrength, operandStrength, written_of_tree? h.tree?_eq, written_of_tree? h.tree?_eq]

/-- So the same operands are wrapped in both. -/
theorem wraps_eq (h : e.Operation t) (dialect other : Dialect) (op : BinaryOperator)
    (side : Side) : op.wraps dialect side e = op.wraps other side e := by
  have hunary : e.isUnaryLike dialect = e.isUnaryLike other := by
    rw [isUnaryLike, isUnaryLike, written_of_tree? h.tree?_eq, written_of_tree? h.tree?_eq]
  have hop : e.binaryOperator? dialect = e.binaryOperator? other := by
    rw [binaryOperator?, binaryOperator?, written_of_tree? h.tree?_eq,
      written_of_tree? h.tree?_eq]
  rw [BinaryOperator.wraps, BinaryOperator.wraps, h.operandStrength_eq dialect other, hunary, hop]

/-- What is written of an operation is the same in every place and in both dialects. -/
theorem layout_eq (h : e.Operation t) (p q : Place) : e.layout p = e.layout q := by
  induction h with
  | number hneg => rfl
  | negative hneg => rfl
  | reference n => rfl
  | unary op h ih =>
      rw [layout, layout, Layout.unary, Layout.unary, ih,
        h.operandStrength_eq p.dialect q.dialect]
  | binary op hleft hright ihl ihr =>
      rw [layout, layout, Layout.binary, Layout.binary, ihl, ihr,
        hleft.wraps_eq p.dialect q.dialect, hright.wraps_eq p.dialect q.dialect]
  | conditional hcondition hthen helse ihc iht ihe =>
      rw [layout, layout, ihc, iht, ihe]
      simp only [Layout.operand]
      rw [hcondition.operandStrength_eq p.dialect q.dialect,
        hthen.operandStrength_eq p.dialect q.dialect,
        helse.operandStrength_eq p.dialect q.dialect]

end Operation

/-! ## Parentheses of derivations -/

/-- What the tokens of a phrase tell about an operation whose tree they derive: the phrase
takes the layout of the operation as it is, or the tokens have parentheses around it. -/
inductive Bound (p : Place) (e : Expr) (t : Tree) (A : Phrase) (ts : List Script.Token) : Prop
  | bare (hcovers : A.covers e.phrase = true)
      (hcount : openings (tokens (e.layout p)) ≤ openings ts)
      (hminus : ∀ u, t = .unary .minus u → ts.head? = some (.punctuator "-"))
  | wrapped (hcount : openings (tokens (e.layout p)) < openings ts)

namespace Bound

variable {p : Place} {e : Expr} {t : Tree} {A : Phrase} {ts : List Script.Token}

/-- The layout has the fewest openings. -/
theorem le (b : Bound p e t A ts) : openings (tokens (e.layout p)) ≤ openings ts := by
  cases b with
  | bare hcovers hcount hminus => exact hcount
  | wrapped hcount => exact Nat.le_of_lt hcount

/-- A place that has parentheses only around what its phrase does not take. -/
theorem wrappedIf_le (b : Bound p e t A ts) {needed : Bool}
    (h : A.covers e.phrase = true →
      (∀ u, t = .unary .minus u → ts.head? = some (.punctuator "-")) → needed = false) :
    openings (tokens (wrappedIf needed (e.layout p))) ≤ openings ts := by
  cases needed with
  | false => exact b.le
  | true =>
      rw [wrappedIf, if_pos rfl, tokens_parenthesized, openings_enclosed]
      cases b with
      | bare hcovers hcount hminus => exact absurd (h hcovers hminus) (by decide)
      | wrapped hcount => exact hcount

end Bound

/-! ### Derivations -/

section

variable {p : Place} (hp : p.dialect = .javaScript) {A : Phrase} {ts us vs : List Script.Token}
include hp

/-- An operation with one operand, whose parentheses are needed or there are none. -/
theorem openings_unary_le {e : Expr} {t : Tree} (op : UnaryOperator) (h : e.Operation t)
    (hapart : apart false (unaryToken op :: ts) = true) (b : Bound p e t .unary ts) :
    openings (tokens (Expr.layout p (.unary op e))) ≤ openings ts := by
  have hoperator : tokens (Layout.unaryOperator op) = [unaryToken op] := by cases op <;> rfl
  rw [layout, Layout.unary, tokens_append, hoperator, List.singleton_append, openings_unary]
  refine b.wrappedIf_le ?_
  intro hcovers hminus
  rw [hp, Bool.or_eq_false_iff, decide_eq_false_iff_not, Nat.not_lt, Bool.and_eq_false_iff]
  refine ⟨h.unary_le hcovers, ?_⟩
  by_cases hop : op = .minus
  · right
    obtain rfl := hop
    rw [← Bool.not_eq_true]
    intro hstart
    obtain ⟨u, rfl⟩ := h.exists_minus p hcovers hstart
    -- two minus signs in a row are not two tokens
    rw [apart, hminus u rfl] at hapart
    exact absurd hapart (by simp [unaryToken])
  · exact Or.inl (decide_eq_false hop)

/-- An operation with two operands, each with parentheses where they are needed. -/
theorem openings_binary_le {left right : Expr} {t u : Tree} (op : BinaryOperator)
    (hleft : left.Operation t) (hright : right.Operation u)
    (bl : Bound p left t (production op).left ts) (br : Bound p right u (production op).right us) :
    openings (tokens (Expr.layout p (.binary op left right))) ≤ openings ts + openings us := by
  have hmark : op.mark = (production op).symbol := by cases op <;> rfl
  have htokens : tokens (Expr.layout p (.binary op left right)) =
      tokens (wrappedIf (op.wraps .javaScript .left left) (left.layout p)) ++
        .punctuator (production op).symbol ::
          tokens (wrappedIf (op.wraps .javaScript .right right) (right.layout p)) := by
    simp [layout, Layout.binary, hp, hmark]
  rw [htokens, openings_marked _ _ (symbol_mem_marks op)]
  exact Nat.add_le_add (bl.wrappedIf_le fun hcovers _ => hleft.wraps_eq_false op .left hcovers)
    (br.wrappedIf_le fun hcovers _ => hright.wraps_eq_false op .right hcovers)

/-- A conditional, whose parts only need parentheses if they are weaker. -/
theorem openings_conditional_le {e thenExpr elseExpr : Expr} {t u v : Tree}
    (h : e.Operation t) (hthen : thenExpr.Operation u) (helse : elseExpr.Operation v)
    (b : Bound p e t .shortCircuit ts) (bthen : Bound p thenExpr u .assignment us)
    (belse : Bound p elseExpr v .assignment vs) :
    openings (tokens (Expr.layout p (.conditional e thenExpr elseExpr))) ≤
      openings ts + openings us + openings vs := by
  have hstrong : ∀ {e : Expr} {least : Strength}, least ≤ e.operandStrength .javaScript →
      decide (e.operandStrength p.dialect < least) = false := by
    intro e least hle
    rw [hp]
    exact decide_eq_false (Nat.not_lt.mpr hle)
  have htokens : tokens (Expr.layout p (.conditional e thenExpr elseExpr)) =
      (tokens (Layout.operand p (.conditional + 1) e (e.layout p)) ++ .punctuator "?" ::
        tokens (Layout.operand p .conditional thenExpr (thenExpr.layout p))) ++ .punctuator ":" ::
          tokens (Layout.operand p .conditional elseExpr (elseExpr.layout p)) := by
    simp [layout]
  rw [htokens, openings_marked _ _ (by decide), openings_marked _ _ (by decide)]
  refine Nat.add_le_add (Nat.add_le_add ?_ ?_) ?_
  · exact b.wrappedIf_le fun hcovers _ => hstrong (h.conditional_lt hcovers)
  · exact bthen.wrappedIf_le fun _ _ => hstrong hthen.conditional_le
  · exact belse.wrappedIf_le fun _ _ => hstrong helse.conditional_le

/-- A derivation of the tree of an operation goes through the operands of the operation. -/
theorem bound_of_derives {t : Tree} (d : Derives A ts t) {e : Expr} (h : e.Operation t)
    (hapart : apart false ts = true) : Bound p e t A ts := by
  induction d generalizing e with
  | unit hB d ih =>
      cases ih h hapart with
      | bare hcovers hcount hminus =>
          exact .bare (Phrase.covers_of_mem_alternatives hB hcovers) hcount hminus
      | wrapped hcount => exact .wrapped hcount
  | number value =>
      cases h with
      | number hneg =>
          refine .bare ?_ ?_ (by simp)
          · rw [phrase, if_neg hneg]
            decide
          · simp [layout, Layout.number, hneg, openings]
  | reference hreference =>
      cases h with
      | reference n =>
          refine .bare rfl ?_ (by simp)
          simp [layout, Layout.name, openings]
  | @parenthesized ts t d ih =>
      have hinside : apart false ts = true := by
        rw [enclosed, List.cons_append, apart, Bool.and_eq_true] at hapart
        exact apart_append_left hapart.2
      refine .wrapped ?_
      rw [openings_enclosed]
      exact Nat.lt_succ_of_le (ih h hinside).le
  | @unary ts t op d ih =>
      cases h with
      | negative hneg =>
          refine .bare ?_ ?_ ?_
          · rw [phrase, if_pos hneg]
            decide
          · simp [layout, Layout.number, hneg, openings]
          · rintro u -
            rfl
      | unary op h =>
          have hends : (unaryToken op).ends = false := by cases op <;> decide
          have hoperand : apart false ts = true := by
            rw [apart, Bool.and_eq_true, hends] at hapart
            exact hapart.2
          refine .bare rfl ?_ ?_
          · rw [openings_unary]
            exact openings_unary_le hp op h hapart (ih h hoperand)
          · rintro u hu
            cases hu
            rfl
  | binary op d du ih ihu =>
      cases h with
      | binary op hleft hright =>
          obtain ⟨hts, hus⟩ := apart_of_marked (symbol_mem_marks op) hapart
          refine .bare ?_ ?_ (by simp)
          · rw [phrase]
            cases op <;> decide
          · rw [openings_marked _ _ (symbol_mem_marks op)]
            exact openings_binary_le hp op hleft hright (ih hleft hts) (ihu hright hus)
  | conditional d du dv ih ihu ihv =>
      cases h with
      | conditional hcondition hthen helse =>
          obtain ⟨hboth, hvs⟩ := apart_of_marked (by decide) hapart
          obtain ⟨hts, hus⟩ := apart_of_marked (by decide) hboth
          refine .bare rfl ?_ (by simp)
          rw [openings_marked _ _ (by decide), openings_marked _ _ (by decide)]
          exact openings_conditional_le hp hcondition hthen helse (ih hcondition hts)
            (ihu hthen hus) (ihv helse hvs)
  | _ => cases h

end

/-! ## Texts without a pair of parentheses -/

/-- Tokens of a sequence that are read as the tree of an operation have its parentheses. -/
theorem openings_le_of_reads {p : Place} (hp : p.dialect = .javaScript) {e : Expr} {t : Tree}
    {cs : List Char} (h : e.Operation t) (hcs : Sequence .operand cs)
    (hreads : Reads (String.ofList cs) t) : openings (tokens (e.layout p)) ≤ cs.count '(' := by
  obtain ⟨⟨ts, hscanned⟩, -⟩ := hcs.exists_scanned
  obtain ⟨us, hscan, d⟩ := hreads
  rw [String.toList_ofList, hscanned.scan] at hscan
  obtain rfl := Option.some.inj hscan
  rw [← hscanned.count]
  exact (bound_of_derives hp d h hscanned.apart).le

/-- What is written of references, numbers, unary and binary operators and conditional
expressions reads as its own tree.  Whatever opening parenthesis and whatever closing one
after it are taken away, the matching ones among them, what is left does not read as this
tree. -/
theorem parentheses_minimal {e : Expr} (h : e.isOperation = true) (table : ImportTable)
    (p : Place) :
    ∃ text t, e.tree? = some t ∧ spellAll table (e.layout p) = .ok text ∧
      (∀ u, Reads text u ↔ u = t) ∧
      ∀ before inside after : List Char,
        text.toList = before ++ '(' :: inside ++ ')' :: after →
          ¬ Reads (String.ofList (before ++ inside ++ after)) t := by
  obtain ⟨t, ht⟩ := exists_operation e h
  let q : Place := { p with dialect := .javaScript }
  obtain ⟨text, htext, hscan, hreads⟩ := exists_spelled ht.tree?_eq table q rfl
  refine ⟨text, t, ht.tree?_eq, ht.layout_eq p q ▸ htext, hreads, ?_⟩
  intro before inside after hsplit hdeleted
  have hcharacters : text.toList = characters table (e.layout q) := by
    rw [eq_join_of_spellAll htext, String.toList_join, List.flatMap_map]
    rfl
  have hsequence : Sequence .operand text.toList := by
    have hlayout := e.isOperand_layout table q h [] .nil
    rwa [List.append_nil, ← hcharacters] at hlayout
  have hcount : openings (tokens (e.layout q)) = text.toList.count '(' := by
    obtain ⟨⟨ts, hscanned⟩, -⟩ := hsequence.exists_scanned
    obtain rfl := Option.some.inj (hscan.symm.trans hscanned.scan)
    exact hscanned.count
  have hleft : Sequence .operand (before ++ inside ++ after) := by
    rw [hsplit] at hsequence
    have hopened := hsequence.delete (Or.inr rfl)
    rw [List.append_assoc, List.cons_append] at hopened
    rw [List.append_assoc]
    exact hopened.delete (Or.inl rfl)
  have hless : (before ++ inside ++ after).count '(' < text.toList.count '(' := by
    rw [hsplit]
    simp [List.count_append]
  have hbound := openings_le_of_reads (p := q) rfl ht hleft hdeleted
  rw [hcount] at hbound
  exact Nat.not_le_of_lt hless hbound

/-- A sum in a product, and a negative number after a minus sign. -/
theorem parentheses_minimal_product :
    ∃ text t, text = "(1 + 2) * -(-3)" ∧
      t = .binary .multiplication (.binary .addition (.number 1) (.number 2))
        (.unary .minus (.unary .minus (.number 3))) ∧
      Reads text t ∧ ¬ Reads "1 + 2 * -(-3)" t ∧ ¬ Reads "(1 + 2) * --3" t := by
  obtain ⟨text, t, ht, htext, hreads, hminimal⟩ := parentheses_minimal
    (e := .binary .multiplication (.binary .addition (.number 1) (.number 2))
      (.unary .minus (.number (-3)))) rfl ⟨[]⟩ ⟨.typeScript, 0, .root [], .root []⟩
  have hspelled : (.ok text : Except Fault String) = .ok "(1 + 2) * -(-3)" := by
    rw [← htext]
    rfl
  obtain rfl := Except.ok.inj hspelled
  obtain rfl := Option.some.inj ht
  refine ⟨_, _, rfl, rfl, (hreads _).mpr rfl, ?_, ?_⟩
  · exact hminimal [] "1 + 2".toList " * -(-3)".toList rfl
  · exact hminimal "(1 + 2) * -".toList "-3".toList [] rfl

end Expr

end EcmaWriter
