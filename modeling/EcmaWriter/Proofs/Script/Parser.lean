import EcmaWriter.Proofs.Script.Grammar

/-!
# EcmaWriter - A parser of expressions

A parser by recursive descent for the tokens of expressions.  Binary operators are
climbed by level.  A parenthesis is read as a list of expressions, and only the token
after it tells whether the list was the parameters of an arrow function.  The parser
accepts more than the grammar; what counts is that it is a function.

What follows a phrase decides where the parser stops, so every symbol has a rank, and
every phrase has the greatest rank that may follow it.

Main definitions:

- `Parser.assignment`: the parser.
- `rank`, `Phrase.reach`: what goes on with a phrase, and what may follow one.
-/

namespace EcmaWriter

namespace Script

/-! ## Levels -/

/-- Level of a binary operator. -/
def level : BinaryOperator → Nat
  | .exponentiation => 12
  | .multiplication | .division | .remainder => 11
  | .addition | .subtraction => 10
  | .leftShift | .signedRightShift | .unsignedRightShift => 9
  | .lessThan | .lessThanOrEqual => 8
  | .equal | .notEqual => 7
  | .bitwiseAnd => 6
  | .bitwiseXor => 5
  | .bitwiseOr => 4
  | .logicalAnd => 3
  | .logicalOr | .nullishCoalescing => 2

/-- Least level of the operators inside the right operand of an operator. -/
def rightLevel : BinaryOperator → Nat
  | .exponentiation => 12
  | op => level op + 1

/-- All binary operators. -/
def operators : List BinaryOperator :=
  BinaryOperator.names.map Prod.snd

/-- The operator with a symbol. -/
def operatorOf? (symbol : String) : Option BinaryOperator :=
  operators.find? fun op => (production op).symbol = symbol

/-- The symbol of an operator is that operator. -/
theorem operatorOf?_symbol (op : BinaryOperator) :
    operatorOf? (production op).symbol = some op := by
  cases op <;> decide

/-- The operator at the start of tokens, with the tokens after it. -/
def takeOperator : List Token → Option (BinaryOperator × List Token)
  | .punctuator symbol :: rest => (operatorOf? symbol).map (·, rest)
  | _ => none

/-- The tokens after a punctuator. -/
def takeMark (symbol : String) : List Token → Option (List Token)
  | .punctuator other :: rest => if other = symbol then some rest else none
  | _ => none

/-- The unary operator that is a token. -/
def unaryOf? : Token → Option UnaryOperator
  | .punctuator "-" => some .minus
  | .punctuator "~" => some .bitwiseNot
  | .punctuator "!" => some .logicalNot
  | .word "typeof" => some .typeOf
  | .word "await" => some .await
  | _ => none

/-- The names among arguments. -/
def parameterNames (items : List Item) : List String :=
  items.filterMap fun i =>
    match i.tree with
    | .reference name => some name
    | _ => none

/-- An operator takes at least one token. -/
theorem length_of_takeOperator {ts rest : List Token} {op : BinaryOperator}
    (h : takeOperator ts = some (op, rest)) : rest.length < ts.length := by
  match ts with
  | [] => exact absurd h (by simp [takeOperator])
  | .number _ :: _ => exact absurd h (by simp [takeOperator])
  | .string _ :: _ => exact absurd h (by simp [takeOperator])
  | .word _ :: _ => exact absurd h (by simp [takeOperator])
  | .punctuator symbol :: ts =>
      obtain ⟨found, -, heq⟩ := Option.map_eq_some_iff.mp h
      obtain ⟨-, rfl⟩ := Prod.mk.inj heq
      exact Nat.lt_succ_self _

/-- What stands after dots, if there are any. -/
theorem length_getD_takeMark_le (symbol : String) (ts : List Token) :
    ((takeMark symbol ts).getD ts).length ≤ ts.length := by
  match ts with
  | [] => exact Nat.le_refl _
  | .number _ :: _ => exact Nat.le_refl _
  | .string _ :: _ => exact Nat.le_refl _
  | .word _ :: _ => exact Nat.le_refl _
  | .punctuator other :: ts =>
      rw [takeMark]
      split
      · exact Nat.le_succ _
      · exact Nat.le_refl _

/-! ## The parser -/

namespace Parser

-- No phrase leaves more tokens than it was given.  The parser asks for this where it goes
-- on, so that it ends on all tokens.
mutual

/-- An expression. -/
def assignment (ts : List Token) : Option (Tree × List Token) := do
  let (t, rest) ← binary 0 ts
  match takeMark "?" rest with
  | none => some (t, rest)
  | some rest =>
    if rest.length < ts.length then do
      let (u, rest) ← assignment rest
      let rest ← takeMark ":" rest
      if rest.length < ts.length then do
        let (v, rest) ← assignment rest
        some (.conditional t u v, rest)
      else none
    else none
termination_by 10 * ts.length + 7

/-- Operands with binary operators of some level and tighter ones. -/
def binary (least : Nat) (ts : List Token) : Option (Tree × List Token) := do
  let (t, rest) ← unary ts
  if rest.length ≤ ts.length then climb least t rest else none
termination_by 10 * ts.length + 6

/-- Go on with binary operators after a left operand. -/
def climb (least : Nat) (t : Tree) (ts : List Token) : Option (Tree × List Token) :=
  match _hoperator : takeOperator ts with
  | none => some (t, ts)
  | some (op, rest) =>
    if least ≤ level op then do
      let (u, rest) ← binary (rightLevel op) rest
      if rest.length < ts.length then climb least (.binary op t u) rest else none
    else some (t, ts)
termination_by 10 * ts.length
decreasing_by
  · have := length_of_takeOperator _hoperator
    omega
  · omega

/-- Unary operators and their operand. -/
def unary (ts : List Token) : Option (Tree × List Token) :=
  match ts with
  | [] => none
  | token :: rest =>
    match unaryOf? token with
    | none => leftHand (token :: rest)
    | some op => do
      let (t, rest) ← unary rest
      some (.unary op t, rest)
termination_by 10 * ts.length + 5

/-- Member accesses and calls. -/
def leftHand (ts : List Token) : Option (Tree × List Token) := do
  let (t, rest) ← member ts
  if rest.length ≤ ts.length then calls t rest else none
termination_by 10 * ts.length + 4

/-- Go on with calls and member accesses. Arguments before an arrow were parameters. -/
def calls (t : Tree) (ts : List Token) : Option (Tree × List Token) :=
  match ts with
  | .punctuator "." :: .word name :: rest => calls (.get t (.string name)) rest
  | .punctuator "[" :: ts => do
    let (u, rest) ← assignment ts
    let rest ← takeMark "]" rest
    if rest.length ≤ ts.length then calls (.get t u) rest else none
  | .punctuator "(" :: ts => do
    let (args, rest) ← items ")" ts
    match takeMark "=>" rest with
    | none => if rest.length ≤ ts.length then calls (.call t (args.map Item.tree)) rest else none
    | some rest =>
      if rest.length ≤ ts.length then do
        let (u, rest) ← assignment rest
        some (.lambda true (parameterNames args) u, rest)
      else none
  | ts => some (t, ts)
termination_by 10 * ts.length

/-- Member accesses and constructions. -/
def member (ts : List Token) : Option (Tree × List Token) :=
  match ts with
  | .word "new" :: ts => do
    let (t, rest) ← member ts
    match takeMark "(" rest with
    | none => some (.new t [], rest)
    | some rest =>
      if rest.length ≤ ts.length then do
        let (args, rest) ← items ")" rest
        if rest.length ≤ ts.length then members (.new t (args.map Item.tree)) rest else none
      else none
  | ts => do
    let (t, rest) ← primary ts
    if rest.length ≤ ts.length then members t rest else none
termination_by 10 * ts.length + 3

/-- Go on with member accesses. -/
def members (t : Tree) (ts : List Token) : Option (Tree × List Token) :=
  match ts with
  | .punctuator "." :: .word name :: rest => members (.get t (.string name)) rest
  | .punctuator "[" :: ts => do
    let (u, rest) ← assignment ts
    let rest ← takeMark "]" rest
    if rest.length ≤ ts.length then members (.get t u) rest else none
  | ts => some (t, ts)
termination_by 10 * ts.length

/-- Literals, references and brackets. A list before an arrow was parameters. -/
def primary (ts : List Token) : Option (Tree × List Token) :=
  match ts with
  | .number value :: rest => some (.number value, rest)
  | .string value :: rest => some (.string value, rest)
  | .word "true" :: rest => some (.boolean true, rest)
  | .word "false" :: rest => some (.boolean false, rest)
  | .word "null" :: rest => some (.null, rest)
  | .word "undefined" :: rest => some (.undefined, rest)
  | .word name :: rest => some (.reference name, rest)
  | .punctuator "(" :: ts => do
    let (list, rest) ← items ")" ts
    match takeMark "=>" rest with
    | none => do
      let i ← list.head?
      some (i.tree, rest)
    | some rest =>
      if rest.length ≤ ts.length then do
        let (u, rest) ← assignment rest
        some (.lambda false (parameterNames list) u, rest)
      else none
  | .punctuator "[" :: rest => do
    let (list, rest) ← items "]" rest
    some (.array list, rest)
  | .punctuator "\x7b" :: rest => do
    let (list, rest) ← properties rest
    some (.object list, rest)
  | _ => none
termination_by 10 * ts.length + 2

/-- Items up to a closing bracket. -/
def items (closing : String) (ts : List Token) : Option (List Item × List Token) :=
  match takeMark closing ts with
  | some rest => some ([], rest)
  | none => itemsFrom closing ts
termination_by 10 * ts.length + 9

/-- Items up to a closing bracket, at least one. -/
def itemsFrom (closing : String) (ts : List Token) : Option (List Item × List Token) := do
  let (t, rest) ← assignment ((takeMark "..." ts).getD ts)
  match takeMark "," rest with
  | some rest =>
    if rest.length < ts.length then do
      let (list, rest) ← itemsFrom closing rest
      some (⟨t, (takeMark "..." ts).isSome⟩ :: list, rest)
    else none
  | none => do
    let rest ← takeMark closing rest
    some ([⟨t, (takeMark "..." ts).isSome⟩], rest)
termination_by 10 * ts.length + 8
decreasing_by
  · have := length_getD_takeMark_le "..." ts
    omega
  · omega

/-- Members of an object up to its brace. -/
def properties (ts : List Token) : Option (List Property × List Token) :=
  match takeMark "\x7d" ts with
  | some rest => some ([], rest)
  | none => propertiesFrom ts
termination_by 10 * ts.length + 3

/-- Members of an object up to its brace, at least one. -/
def propertiesFrom (ts : List Token) : Option (List Property × List Token) := do
  let (p, rest) ← property ts
  match takeMark "," rest with
  | some rest =>
    if rest.length < ts.length then do
      let (list, rest) ← propertiesFrom rest
      some (p :: list, rest)
    else none
  | none => do
    let rest ← takeMark "\x7d" rest
    some ([p], rest)
termination_by 10 * ts.length + 2

/-- A member of an object. -/
def property (ts : List Token) : Option (Property × List Token) :=
  match ts with
  | .punctuator "..." :: rest => do
    let (t, rest) ← assignment rest
    some (.spread t, rest)
  | .punctuator "[" :: ts => do
    let (t, rest) ← assignment ts
    let rest ← takeMark "]" rest
    let rest ← takeMark ":" rest
    if rest.length ≤ ts.length then do
      let (u, rest) ← assignment rest
      some (.keyValue t u, rest)
    else none
  | .string key :: ts => do
    let rest ← takeMark ":" ts
    if rest.length ≤ ts.length then do
      let (u, rest) ← assignment rest
      some (.keyValue (.string key) u, rest)
    else none
  | .word name :: ts =>
    match takeMark ":" ts with
    | none => some (.keyValue (.string name) (.reference name), ts)
    | some rest =>
      if rest.length ≤ ts.length then do
        let (u, rest) ← assignment rest
        some (.keyValue (.string name) u, rest)
      else none
  | _ => none
termination_by 10 * ts.length + 1

end

end Parser

/-! ## What may follow -/

/-- How much a symbol after a phrase would go on with: 14 for an arrow, 13 for a member
access or a call, the level of a binary operator, 1 for a question mark. -/
def symbolRank (symbol : String) : Nat :=
  if symbol = "=>" then 14
  else if symbol = "." ∨ symbol = "[" ∨ symbol = "(" then 13
  else if symbol = "?" then 1
  else ((operatorOf? symbol).map level).getD 0

/-- How much tokens after a phrase would go on with. -/
def rank : List Token → Nat
  | .punctuator symbol :: _ => symbolRank symbol
  | _ => 0

/-- The rank of tokens is that of the mark that they start with. -/
@[simp] theorem rank_punctuator (symbol : String) (rest : List Token) :
    rank (.punctuator symbol :: rest) = symbolRank symbol := rfl

/-- A mark that is there is taken. -/
@[simp] theorem takeMark_self (symbol : String) (rest : List Token) :
    takeMark symbol (.punctuator symbol :: rest) = some rest := by
  simp [takeMark]

/-- A mark of a higher rank than the tokens is not taken. -/
theorem takeMark_eq_none_of_rank {symbol : String} {rest : List Token}
    (h : rank rest < symbolRank symbol) : takeMark symbol rest = none := by
  match rest with
  | [] => rfl
  | .number _ :: _ => rfl
  | .string _ :: _ => rfl
  | .word _ :: _ => rfl
  | .punctuator other :: _ =>
      rw [takeMark, if_neg]
      rintro rfl
      exact Nat.lt_irrefl _ h

/-- The rank of an operator is its level. -/
theorem symbolRank_symbol (op : BinaryOperator) : symbolRank (production op).symbol = level op := by
  cases op <;> decide

/-- An operator that is taken is no stronger than the rank of the tokens. -/
theorem level_le_of_takeOperator {rest us : List Token} {op : BinaryOperator}
    (h : takeOperator rest = some (op, us)) : level op ≤ rank rest := by
  match rest with
  | [] => exact absurd h (by simp [takeOperator])
  | .number _ :: _ => exact absurd h (by simp [takeOperator])
  | .string _ :: _ => exact absurd h (by simp [takeOperator])
  | .word _ :: _ => exact absurd h (by simp [takeOperator])
  | .punctuator symbol :: _ =>
      rw [takeOperator, Option.map_eq_some_iff] at h
      rcases h with ⟨found, hfound, heq⟩
      have hop : found = op := congrArg Prod.fst heq
      have hsymbol : (production op).symbol = symbol := by
        have := List.find?_some hfound
        simpa [hop] using this
      exact (symbolRank_symbol op ▸ hsymbol ▸ Nat.le_refl _ : level op ≤ symbolRank symbol)

namespace Parser

/-- An operation without operators between operands. -/
theorem binary_of_unary {least : Nat} {t : Tree} {ts rest : List Token}
    (h : unary ts = some (t, rest)) (hrest : rest.length ≤ ts.length) :
    binary least ts = climb least t rest := by
  rw [binary, h]
  exact if_pos hrest

/-- A member access without a call. -/
theorem leftHand_of_member {t : Tree} {ts rest : List Token}
    (h : member ts = some (t, rest)) (hrest : rest.length ≤ ts.length) :
    leftHand ts = calls t rest := by
  rw [leftHand, h]
  exact if_pos hrest

/-- A primary expression that no `new` is before. -/
theorem member_of_primary {t : Tree} {ts rest : List Token} (hnew : ∀ us, ts ≠ .word "new" :: us)
    (h : primary ts = some (t, rest)) (hrest : rest.length ≤ ts.length) :
    member ts = members t rest := by
  rw [member, h]
  · exact if_pos hrest
  · exact fun us hus => hnew us hus

/-- No operator is taken before tokens of a lower rank. -/
theorem climb_stop {least : Nat} {t : Tree} {rest : List Token} (h : rank rest < least) :
    climb least t rest = some (t, rest) := by
  rw [climb]
  split
  · rfl
  · rename_i op us hop
    have hlevel := level_le_of_takeOperator hop
    rw [if_neg (by omega)]

/-- No operator at all is taken before tokens that have none. -/
theorem climb_zero_stop {t : Tree} {rest : List Token} (h : rank rest ≤ 1) :
    climb 0 t rest = some (t, rest) := by
  rw [climb]
  split
  · rfl
  · rename_i op us hop
    have hlevel := level_le_of_takeOperator hop
    have hpos : 2 ≤ level op := by cases op <;> decide
    omega

/-- An operator is taken if its level is high enough. -/
theorem climb_operator {least : Nat} {t u : Tree} (op : BinaryOperator) {ts rest : List Token}
    (h : least ≤ level op) (hright : binary (rightLevel op) ts = some (u, rest))
    (hrest : rest.length ≤ ts.length) :
    climb least t (.punctuator (production op).symbol :: ts) =
      climb least (.binary op t u) rest := by
  rw [climb, takeOperator, operatorOf?_symbol]
  simp only [Option.map_some]
  rw [if_pos h, hright]
  exact if_pos (Nat.lt_succ_of_le hrest)

/-- No member is taken before tokens of a lower rank. -/
theorem members_stop {t : Tree} {rest : List Token} (h : rank rest ≤ 12) :
    members t rest = some (t, rest) := by
  unfold members
  split
  · exact absurd h (by simp [symbolRank])
  · exact absurd h (by simp [symbolRank])
  · rfl

/-- Nor is one before arguments. -/
theorem members_parenthesis {t : Tree} {rest : List Token} :
    members t (.punctuator "(" :: rest) = some (t, .punctuator "(" :: rest) := by
  rw [members]
  · simp
  · simp

/-- No arguments are taken before tokens of a lower rank. -/
theorem calls_stop {t : Tree} {rest : List Token} (h : rank rest ≤ 12) :
    calls t rest = some (t, rest) := by
  unfold calls
  split
  · exact absurd h (by simp [symbolRank])
  · exact absurd h (by simp [symbolRank])
  · exact absurd h (by simp [symbolRank])
  · rfl

end Parser

namespace Phrase

/-- The greatest rank of tokens that may follow a phrase. -/
def reach : Phrase → Nat
  | primary | member | call => 13
  | construction | leftHand | unary => 12
  | power | product => 11
  | sum => 10
  | shift => 9
  | comparison => 8
  | equality => 7
  | bitAnd => 6
  | bitXor => 5
  | bitOr => 4
  | conjunction => 3
  | disjunction | coalescence | coalesceHead => 2
  | shortCircuit => 1
  | conditional | assignment => 0

/-- The greatest least level at which a phrase with binary operators is read whole. -/
def floor : Phrase → Nat
  | power => 12
  | shortCircuit => 0
  | A => A.reach

end Phrase

end Script

end EcmaWriter
