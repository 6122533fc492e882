import EcmaWriter.Strength
import EcmaWriter.Proofs.Script.Scanner

/-!
# EcmaWriter - Trees and phrases of expressions

The tree that an expression is to be read back as, and the phrase of the grammar that it
is written as.  Strengths speak of phrases: an expression that is strong enough for a
place is a phrase that the grammar takes there.

Main results:

- Definition `Expr.tree?`: the tree of an expression.
- Definition `Expr.phrase`: the phrase that an expression is written as.
- Theorem `Expr.operand_covered`: an operand without parentheses is a phrase that the
  side of its operator takes.
-/

namespace EcmaWriter

open Script Lexeme

/-! ## Trees -/

/-- The tree of a whole number. A negative one is the negation of its magnitude. -/
def numberTree (value : Int32) : Tree :=
  if value < 0 then .unary .minus (.number value.toInt.natAbs) else .number value.toInt.toNat

/-- A property name has no line breaks. -/
theorem readBack_of_isPropertyName {key : String} (h : isPropertyName key = true) :
    readBack key = key := by
  rw [readBack, joinLineBreaks_of_not_mem, String.ofList_toList]
  intro hmem
  rw [isPropertyName] at h
  cases hchars : key.toList with
  | nil => exact absurd (hchars ▸ hmem) List.not_mem_nil
  | cons c cs =>
      rw [hchars] at h hmem
      rw [hasIdentifierShape, Bool.and_eq_true, List.all_eq_true] at h
      rcases List.mem_cons.mp hmem with rfl | hmem
      · exact absurd h.1 (by decide)
      · exact absurd (h.2 _ hmem) (by decide)

mutual

/-- The tree that an expression is to be read back as. Of a lambda it has the names of the
parameters, but no types. There is no tree for assertions and instantiations, for
built-in values and exports of other modules, and for a lambda that does not return at
once. -/
def Expr.tree? : Expr → Option Tree
  | .number value => some (numberTree value)
  | .string value => some (.string (readBack value))
  | .boolean value => some (.boolean value)
  | .null => some .null
  | .undefined => some .undefined
  | .reference n => some (.reference n.text)
  | .unary op e => do
    let t ← e.tree?
    some (.unary op t)
  | .binary op left right => do
    let t ← left.tree?
    let u ← right.tree?
    some (.binary op t u)
  | .conditional condition thenExpr elseExpr => do
    let t ← condition.tree?
    let u ← thenExpr.tree?
    let v ← elseExpr.tree?
    some (.conditional t u v)
  | .array items => do
    let list ← ArrayItem.trees? items
    some (.array list)
  | .object members => do
    let list ← Member.trees? members
    some (.object list)
  | .lambda isAsync _ parameters _ body => do
    let t ← Statement.returnedTree? body
    some (.lambda isAsync (parameters.map fun q => q.name.text) t)
  | .get base property => do
    let t ← base.tree?
    let u ← property.tree?
    some (.get t u)
  | .call callee arguments => do
    let t ← callee.tree?
    let list ← Expr.trees? arguments
    some (.call t list)
  | .new callee arguments => do
    let t ← callee.tree?
    let list ← Expr.trees? arguments
    some (.new t list)
  | .global _ => none
  | .imported _ _ => none
  | .assertion _ _ => none
  | .instantiation _ _ => none

/-- The trees of expressions. -/
def Expr.trees? : List Expr → Option (List Tree)
  | [] => some []
  | e :: es => do
    let t ← e.tree?
    let list ← Expr.trees? es
    some (t :: list)

/-- The trees of array items. -/
def ArrayItem.trees? : List ArrayItem → Option (List Item)
  | [] => some []
  | ⟨e, spread⟩ :: items => do
    let t ← e.tree?
    let list ← ArrayItem.trees? items
    some (⟨t, spread⟩ :: list)

/-- The trees of members of an object. -/
def Member.trees? : List Member → Option (List Property)
  | [] => some []
  | .spread e :: members => do
    let t ← e.tree?
    let list ← Member.trees? members
    some (.spread t :: list)
  | .keyValue key value :: members => do
    let t ← key.tree?
    let u ← value.tree?
    let list ← Member.trees? members
    some (.keyValue t u :: list)

/-- The tree of the one expression that statements return. -/
def Statement.returnedTree? : List Statement → Option Tree
  | [.returnValue e] => e.tree?
  | _ => none

end

/-! ## Phrases -/

namespace Expr

/-- The phrase that goes on after a callee or the base of a member access. -/
def headPhrase (e : Expr) : Phrase :=
  if e.hasCallInChain .javaScript then .call else .member

/-- The phrase that an expression is written as. -/
def phrase : Expr → Phrase
  | .number value => if value < 0 then .unary else .primary
  | .unary _ _ => .unary
  | .binary op _ _ => (production op).whole
  | .conditional _ _ _ => .conditional
  | .lambda _ _ _ _ _ => .assignment
  | .get base _ => base.headPhrase
  | .call _ _ => .call
  | .new _ _ => .member
  | _ => .primary

/-- What the strength of an expression tells about its phrase. -/
inductive Kind (e : Expr) : Prop
  | tight (hphrase : e.headPhrase.covers e.phrase = true)
      (hstrength : Strength.callMember ≤ e.operandStrength .javaScript)
      (hunary : e.isUnaryLike .javaScript = false) (hop : e.binaryOperator? .javaScript = none)
  | unary (hphrase : e.phrase = .unary)
      (hstrength : e.operandStrength .javaScript = Strength.unary)
      (hunary : e.isUnaryLike .javaScript = true)
  | binary (op : BinaryOperator) (hphrase : e.phrase = (production op).whole)
      (hstrength : e.operandStrength .javaScript = op.strength)
      (hop : e.binaryOperator? .javaScript = some op)
  | conditional (hphrase : e.phrase = .conditional)
      (hstrength : e.operandStrength .javaScript = Strength.conditional)
  | lambda (hphrase : e.phrase = .assignment)
      (hstrength : e.operandStrength .javaScript = Strength.lambdaOperand)

theorem headPhrase_eq (e : Expr) : e.headPhrase = .member ∨ e.headPhrase = .call := by
  rw [headPhrase]
  split
  · exact Or.inr rfl
  · exact Or.inl rfl

theorem headPhrase_covers_self (e : Expr) : e.headPhrase.covers e.headPhrase = true := by
  rw [headPhrase]
  split <;> decide

/-- What may be a callee is a primary phrase, a member access or a call. -/
theorem eq_of_headPhrase_covers {e : Expr} {A : Phrase} (h : e.headPhrase.covers A = true) :
    A = .primary ∨ A = .member ∨ A = .call := by
  rw [headPhrase] at h
  split at h
  · revert h
    cases A <;> decide
  · revert h
    cases A <;> decide

/-- What has a tree is written as it is. -/
theorem written_of_tree? {e : Expr} {t : Tree} (h : e.tree? = some t) (dialect : Dialect) :
    e.written dialect = e := by
  cases e with
  | assertion e type => exact absurd h (by simp [tree?])
  | instantiation e arguments => exact absurd h (by simp [tree?])
  | _ => rfl

/-- What has a tree is of one of the kinds. -/
theorem kind {e : Expr} {t : Tree} (h : e.tree? = some t) : e.Kind := by
  cases e with
  | number value =>
      by_cases hneg : value < 0
      · refine .unary ?_ ?_ ?_
        · rw [phrase, if_pos hneg]
        · simp [operandStrength, written, writtenStrength, hneg]
        · simp [isUnaryLike, written, hneg]
      · refine .tight ?_ ?_ ?_ rfl
        · rw [phrase, if_neg hneg]
          rfl
        · simp [operandStrength, written, writtenStrength, hneg, Strength.callMember,
            Strength.primary]
        · simp [isUnaryLike, written, hneg]
  | unary op e => exact .unary rfl rfl rfl
  | binary op left right => exact .binary op rfl rfl rfl
  | conditional condition thenExpr elseExpr => exact .conditional rfl rfl
  | lambda isAsync typeParameters parameters returnType body => exact .lambda rfl rfl
  | get base property =>
      exact .tight (headPhrase_covers_self base) (Nat.le_refl _) rfl rfl
  | call callee arguments => exact .tight rfl (Nat.le_refl _) rfl rfl
  | new callee arguments => exact .tight rfl (Nat.le_refl _) rfl rfl
  | global n => exact absurd h (by simp [tree?])
  | imported path key => exact absurd h (by simp [tree?])
  | assertion e type => exact absurd h (by simp [tree?])
  | instantiation e arguments => exact absurd h (by simp [tree?])
  | _ => exact .tight rfl (Nat.le_of_ble_eq_true rfl) rfl rfl

/-- Only a callee or a base that needs no parentheses has a call in its chain. -/
theorem callMember_le_of_hasCallInChain {e : Expr} {t : Tree} (h : e.tree? = some t)
    (hchain : e.hasCallInChain .javaScript = true) :
    Strength.callMember ≤ e.operandStrength .javaScript := by
  cases e with
  | get base property => exact Nat.le_refl _
  | call callee arguments => exact Nat.le_refl _
  | assertion e type => exact absurd h (by simp [tree?])
  | instantiation e arguments => exact absurd h (by simp [tree?])
  | _ => exact absurd hchain (by simp [hasCallInChain])

/-- Every expression is an expression of the grammar. -/
theorem assignment_covers_phrase (e : Expr) : Phrase.assignment.covers e.phrase = true := by
  cases e with
  | number value =>
      rw [phrase]
      split <;> decide
  | binary op left right => cases op <;> rfl
  | get base property =>
      rw [phrase, headPhrase]
      split <;> decide
  | _ => rfl

end Expr

/-! ## Operands -/

/-- The phrases that an operator takes on its sides. -/
def operandPhrase (op : BinaryOperator) : Side → Phrase
  | .left => (production op).left
  | .right => (production op).right

/-- Both sides of an operator take what may be a callee. -/
theorem operandPhrase_covers_head (op : BinaryOperator) (side : Side) {A : Phrase}
    (h : A = .primary ∨ A = .member ∨ A = .call) : (operandPhrase op side).covers A = true := by
  rcases h with rfl | rfl | rfl
  · cases op <;> cases side <;> decide
  · cases op <;> cases side <;> decide
  · cases op <;> cases side <;> decide

/-- Both sides of an operator take a unary operation, except for the left side of a power. -/
theorem operandPhrase_covers_unary (op : BinaryOperator) (side : Side)
    (h : (side = .left && op = .exponentiation) = false) :
    (operandPhrase op side).covers .unary = true := by
  revert h
  cases op <;> cases side <;> decide

/-- Where the strengths allow it and `??` does not meet `&&` or `||`, an operator takes
an operation as its operand. -/
theorem operandPhrase_covers_whole (op inner : BinaryOperator) (side : Side)
    (hstrength : op.least side ≤ inner.strength) (hmix : op.mixesWith inner = false) :
    (operandPhrase op side).covers (production inner).whole = true := by
  revert hstrength hmix
  cases op <;> cases side <;> cases inner <;> decide

namespace Expr

/-- What is strong enough for a place is a phrase that is taken there, where no place in
question is weak enough for conditional expressions and lambdas. -/
theorem Kind.covered {e : Expr} (k : e.Kind) {A : Phrase} {least : Strength}
    (hstrong : least ≤ e.operandStrength .javaScript) (hleast : Strength.conditional < least)
    (htight : e.headPhrase.covers e.phrase = true → A.covers e.phrase = true)
    (hunary : e.isUnaryLike .javaScript = true → least ≤ Strength.unary →
      A.covers .unary = true)
    (hbinary : ∀ op, e.binaryOperator? .javaScript = some op → least ≤ op.strength →
      A.covers (production op).whole = true) :
    A.covers e.phrase = true := by
  cases k with
  | tight hphrase => exact htight hphrase
  | unary hphrase hstrength hlike =>
      rw [hstrength] at hstrong
      rw [hphrase]
      exact hunary hlike hstrong
  | binary op hphrase hstrength hop =>
      rw [hstrength] at hstrong
      rw [hphrase]
      exact hbinary op hop hstrong
  | conditional hphrase hstrength =>
      rw [hstrength] at hstrong
      exact absurd hstrong (Nat.not_le_of_lt hleast)
  | lambda hphrase hstrength =>
      have hweak : Strength.lambdaOperand < Strength.conditional := by decide
      rw [hstrength] at hstrong
      exact absurd hstrong (Nat.not_le_of_lt (Nat.lt_trans hweak hleast))

/-- An operand that is written without parentheses is a phrase that its side takes. -/
theorem operand_covered {e : Expr} {t : Tree} (h : e.tree? = some t) (op : BinaryOperator)
    (side : Side) (hwraps : op.wraps .javaScript side e = false) :
    (operandPhrase op side).covers e.phrase = true := by
  rw [BinaryOperator.wraps, Bool.or_eq_false_iff, Bool.or_eq_false_iff] at hwraps
  rcases hwraps with ⟨⟨hweak, hpower⟩, hmix⟩
  refine (e.kind h).covered (Nat.le_of_not_lt (of_decide_eq_false hweak)) ?_ ?_ ?_ ?_
  · cases op <;> cases side <;> decide
  · intro hphrase
    exact operandPhrase_covers_head op side (eq_of_headPhrase_covers hphrase)
  · intro hlike _
    rw [hlike, Bool.and_true] at hpower
    exact operandPhrase_covers_unary op side hpower
  · intro inner hop hstrength
    rw [hop] at hmix
    exact operandPhrase_covers_whole op inner side hstrength hmix

/-- What is strong enough for a callee may be one. -/
theorem headPhrase_covers_phrase {e : Expr} {t : Tree} (h : e.tree? = some t)
    (hstrong : Strength.callMember ≤ e.operandStrength .javaScript) :
    e.headPhrase.covers e.phrase = true := by
  refine (e.kind h).covered hstrong (by decide) id ?_ ?_
  · intro _ hweak
    exact absurd hweak (by decide)
  · intro op _ hweak
    exact absurd hweak (by cases op <;> decide)

/-- What is strong enough for the operand of a unary operator may be one. -/
theorem unary_covers_phrase {e : Expr} {t : Tree} (h : e.tree? = some t)
    (hstrong : Strength.unary ≤ e.operandStrength .javaScript) :
    Phrase.unary.covers e.phrase = true := by
  refine (e.kind h).covered hstrong (by decide) ?_ (fun _ _ => by decide) ?_
  · intro hphrase
    rcases eq_of_headPhrase_covers hphrase with htight | htight | htight <;> rw [htight] <;>
      decide
  · intro op _ hweak
    exact absurd hweak (by cases op <;> decide)

/-- What is strong enough for a condition may be one. -/
theorem shortCircuit_covers_phrase {e : Expr} {t : Tree} (h : e.tree? = some t)
    (hstrong : Strength.conditional + 1 ≤ e.operandStrength .javaScript) :
    Phrase.shortCircuit.covers e.phrase = true := by
  refine (e.kind h).covered hstrong (Nat.lt_succ_self _) ?_ (fun _ _ => by decide) ?_
  · intro hphrase
    rcases eq_of_headPhrase_covers hphrase with htight | htight | htight <;> rw [htight] <;>
      decide
  · intro op _ _
    cases op <;> decide

end Expr

end EcmaWriter
