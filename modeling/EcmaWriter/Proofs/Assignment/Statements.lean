import EcmaWriter.Proofs.Assignment.Targets

/-!
# EcmaWriter - What is read of assignments

An assignment is read back as its target, its operator and its value exactly if the target is
assignable.  A target that starts with a brace is: it is put in parentheses.  No other one is, so
it has to be at least as strong as a member access, or the text is no assignment to it: it is
`c ? x : (y = 1)` that is read of `c ? x : y = 1`.  Nor are type lists read that stand directly
after one another or before some of the operators.

Main results:

- Definition `Expr.isAssignable`: the targets that are read back.
- Theorem `Expr.isAssignable_javaScript`: the same without types.
- Theorem `Assignment.refuses_layout`: nothing is read of a weaker target without parentheses.
- Theorem `Statement.set_reads_back`: what is read of an assignment.
-/

namespace EcmaWriter

open Lexeme Script
open ObjectLiteral (isSpace trim)

/-- Whether an expression is read back as the target of an assignment. -/
def Expr.isAssignable (p : Place) (op : Option AssignmentOperator) (target : Expr) : Bool :=
  startWith "\x7b" (target.layout p) ||
    target.isBareHead p.dialect && !(target.repeatsList p.dialect ||
      target.endsInList p.dialect &&
        Assignment.refusedMarks.contains (Layout.assignmentMark op))

/-- JavaScript has no type lists: all targets that are strong enough are read back. -/
theorem Expr.isAssignable_javaScript {p : Place} (hp : p.dialect = .javaScript)
    (op : Option AssignmentOperator) (target : Expr) : target.isAssignable p op =
      (startWith "\x7b" (target.layout p) || target.isBareHead p.dialect) := by
  rw [isAssignable, hp, target.repeatsList_javaScript, target.endsInList_javaScript,
    Bool.false_and, Bool.false_or, Bool.not_false, Bool.and_true]

namespace Assignment

variable {table : ImportTable} {p : Place} {isFirst pointed broken listed : Bool}
  {ls ms : List Lexeme}

/-! ## What ends a target -/

/-- Text before which a target ends and an assignment does not go on. -/
structure Foreign (cs : List Char) : Prop where
  head : cs.head?.any isWordPart = false
  point : cs.head? ≠ some '.'
  chain : readChain cs = some cs
  operator : readOperator cs = none

/-- A chain ends before a space, unless it goes on after it. -/
theorem readChain_space {c : Char} {cs : List Char} (hspace : isSpace c = false)
    (hlink : c ∉ ['(', '[', '.']) : readChain (' ' :: c :: cs) = some (' ' :: c :: cs) := by
  have hdrop : (' ' :: c :: cs).dropWhile isSpace = c :: cs := by
    rw [List.dropWhile_cons_of_pos (by decide), List.dropWhile_cons_of_neg (by simp [hspace])]
  refine readChain_of_head (by simp) ?_
  rw [hdrop]
  rintro d ⟨⟩
  exact hlink

namespace Foreign

/-- After a space only the next token counts. -/
theorem spaced {c : Char} {cs : List Char} (hspace : isSpace c = false)
    (hlink : c ∉ ['(', '[', '.']) (h : readOperator (c :: cs) = none) :
    Foreign (' ' :: c :: cs) :=
  ⟨rfl, by simp, readChain_space hspace hlink, h⟩

/-- An operator between operands goes on with no chain and is no assignment. -/
theorem binary (op : BinaryOperator) (rest : List Char) :
    Foreign (' ' :: (op.mark.toList ++ ' ' :: rest)) := by
  cases op <;> exact .spaced (by decide) (by decide) rfl

/-- Nor is a question mark. -/
theorem question (rest : List Char) : Foreign (' ' :: '?' :: ' ' :: rest) :=
  .spaced (by decide) (by decide) rfl

/-- Nor is the word before a type. -/
theorem as (rest : List Char) : Foreign (' ' :: 'a' :: 's' :: ' ' :: rest) :=
  .spaced (by decide) (by decide) rfl

/-- Nor is the arrow of a function. -/
theorem arrow (rest : List Char) : Foreign (' ' :: '=' :: '>' :: ' ' :: rest) :=
  .spaced (by decide) (by decide) rfl

/-- Nor is the colon before a type. -/
theorem colon (rest : List Char) : Foreign (':' :: ' ' :: rest) :=
  ⟨rfl, by simp, readChain_of_head (by simp) (by rintro c ⟨⟩; decide), rfl⟩

/-- A type list after a space belongs to nothing before it. -/
theorem angled {pieces : List (List Lexeme)} (hne : pieces ≠ [])
    (h : ∀ ls ∈ pieces, Fluent (characters table ls)) (rest : List Char) :
    Foreign (' ' :: (characters table (Lexeme.angled pieces) ++ rest)) := by
  obtain ⟨cs, more, hcs, htext⟩ := exists_characters_angled hne h rest
  obtain ⟨symbol, hsymbol, after, hnext⟩ := exists_readNext_less hcs more
  have hlookup : ∀ symbol ∈ ["<", "<<"], operators.lookup symbol = none := by decide
  rw [htext]
  refine .spaced (by decide) (by decide) ?_
  rw [readOperator, hnext]
  simp only [hlookup symbol hsymbol, Option.map_none]

/-- What comes after the parameters of a function. -/
theorem function (p : Place) (returnType : Option (List Lexeme)) (body : List Lexeme)
    (rest : List Char) :
    Foreign (characters table
      (Layout.annotation p returnType ++ [space, mark "=>", space] ++ body) ++ rest) := by
  have harrow : Foreign (characters table ([space, mark "=>", space] ++ body) ++ rest) := by
    simpa [Lexeme.text, spell] using arrow (characters table body ++ rest)
  rw [List.append_assoc]
  cases returnType with
  | none => exact harrow
  | some type =>
      rw [Layout.annotation, Layout.typed]
      split
      · simpa [Lexeme.text, spell] using colon (characters table type ++
          (characters table ([space, mark "=>", space] ++ body) ++ rest))
      · exact harrow

end Foreign

/-! ## Texts of which nothing is read -/

/-- Whether nothing is read of a text that starts with lexemes. -/
def Rejected (table : ImportTable) (ls : List Lexeme) : Prop :=
  ∀ rest, (readTarget true (characters table ls ++ rest)).bind readOperator = none

namespace Rejected

/-- What is rejected stays so whatever comes after it. -/
theorem append (h : Rejected table ls) (ms : List Lexeme) : Rejected table (ls ++ ms) := by
  intro rest
  rw [characters_append, List.append_assoc]
  exact h _

/-- A target before something foreign. -/
theorem of_heads (h : Heads table true ls pointed broken listed)
    (hms : ∀ rest, Foreign (characters table ms ++ rest)) : Rejected table (ls ++ ms) := by
  intro rest
  have hrest := hms rest
  rw [characters_append, List.append_assoc, h.readTarget_eq hrest.head fun _ => hrest.point]
  split
  · rfl
  · rw [hrest.chain]
    exact hrest.operator

/-- A text that starts as no operand does. -/
theorem of_head {c : Char} (h : mayStartOperand c = false) {cs : List Char}
    (htext : characters table ls = c :: cs) : Rejected table ls := by
  intro rest
  rw [htext, List.cons_append, readTarget, readOperand_eq_none h]
  rfl

/-- A mark with which no operand starts is rejected. -/
theorem mark {symbol : String} {c : Char} (h : mayStartOperand c = false)
    (hsymbol : symbol.toList = [c]) : Rejected table [mark symbol] :=
  of_head h ((characters_singleton _).trans hsymbol)

/-- A keyword that is no operand is rejected. -/
theorem keyword (text : String) (hshape : hasIdentifierShape text.toList = true)
    (hnew : text ≠ "new") (hoperand : isOperand text = false) :
    Rejected table [word text, space] := by
  intro rest
  have hnext : readNext (text.toList ++ ' ' :: rest) = some (.word text, ' ' :: rest) := by
    rw [readNext_word hshape rfl, String.ofList_toList]
  have htext : characters table [word text, space] ++ rest = text.toList ++ ' ' :: rest := by
    simp [Lexeme.text, spell]
  rw [htext, readTarget, readOperand_word hnext, if_neg hnew, hoperand]
  rfl

/-- No operator starts a target. -/
theorem unaryOperator (op : UnaryOperator) : Rejected table (Layout.unaryOperator op) := by
  cases op with
  | typeOf => exact keyword "typeof" (by decide) (by decide) (by decide)
  | await => exact keyword "await" (by decide) (by decide) (by decide)
  | minus => exact mark (by decide : mayStartOperand '-' = false) rfl
  | bitwiseNot => exact mark (by decide : mayStartOperand '~' = false) rfl
  | logicalNot => exact mark (by decide : mayStartOperand '!' = false) rfl

theorem angled {pieces : List (List Lexeme)} (hne : pieces ≠ []) :
    Rejected table (Lexeme.angled pieces) := by
  have htext : characters table (Lexeme.angled pieces) ++ [] =
      '<' :: (characters table (listed pieces) ++ ['>']) := characters_angled hne []
  rw [List.append_nil] at htext
  exact of_head (by decide) htext

/-- Before its parameters a function has a type list or nothing. -/
theorem typed_angled_eq (p : Place) (typeParameters : List (List Lexeme)) :
    Layout.typed p (Lexeme.angled typeParameters) = [] ∨
      typeParameters ≠ [] ∧
        Layout.typed p (Lexeme.angled typeParameters) = Lexeme.angled typeParameters := by
  rw [Layout.typed]
  split
  · cases typeParameters with
    | nil => exact Or.inl rfl
    | cons ls pieces => exact Or.inr ⟨List.cons_ne_nil ls pieces, rfl⟩
  · exact Or.inl rfl

/-- The parameters of a function are read like an operand. -/
theorem plainFunction (p : Place) {typeParameters parameters : List (List Lexeme)}
    (hparameters : AllNested table parameters) (returnType : Option (List Lexeme))
    (body : List Lexeme) :
    Rejected table (Layout.function p false typeParameters parameters returnType body) := by
  have htext : Layout.function p false typeParameters parameters returnType body =
      Layout.typed p (Lexeme.angled typeParameters) ++ (parenthesized (listed parameters) ++
        (Layout.annotation p returnType ++ [space, Lexeme.mark "=>", space] ++ body)) := by
    simp [Layout.function]
  rw [htext]
  rcases typed_angled_eq p typeParameters with hnone | ⟨hne, hangled⟩
  · rw [hnone, List.nil_append]
    exact of_heads (.parenthesized (.listed hparameters)) (Foreign.function p returnType body)
  · rw [hangled]
    exact (angled hne).append _

/-- The parameters of an asynchronous function are read like those of a call. -/
theorem asyncFunction (p : Place) {typeParameters parameters : List (List Lexeme)}
    (htypes : ∀ ls ∈ typeParameters, Fluent (characters table ls))
    (hparameters : AllNested table parameters) (returnType : Option (List Lexeme))
    (body : List Lexeme) :
    Rejected table (Layout.function p true typeParameters parameters returnType body) := by
  have hasync : Heads table true [word "async"] true false false :=
    .word "async" rfl (by decide) (by decide) (by decide)
  rcases typed_angled_eq p typeParameters with hnone | ⟨hne, hangled⟩
  · have htext : Layout.function p true typeParameters parameters returnType body =
        [word "async"] ++ (space :: parenthesized (listed parameters)) ++
          (Layout.annotation p returnType ++ [space, Lexeme.mark "=>", space] ++ body) := by
      simp [Layout.function, hnone]
    rw [htext]
    exact of_heads (hasync.spacedCall (.listed hparameters)) (Foreign.function p returnType body)
  · have htext : Layout.function p true typeParameters parameters returnType body =
        [word "async"] ++ space :: (Lexeme.angled typeParameters ++
          (parenthesized (listed parameters) ++
            (Layout.annotation p returnType ++ [space, Lexeme.mark "=>", space] ++ body))) := by
      simp [Layout.function, hangled]
    rw [htext]
    -- `async` is read as a name, and the list after the space is none of its own
    refine of_heads hasync fun rest => ?_
    simpa [Lexeme.text, spell] using Foreign.angled hne htypes _

end Rejected

/-! ## Targets that are too weak -/

/-- Whether nothing is read of an expression that is weaker than a member access. -/
def Refuses (table : ImportTable) (p : Place) (e : Expr) : Prop :=
  e.isBareHead p.dialect = false → Resolved table (e.layout p) → MayStart true (e.layout p) →
    Rejected table (e.layout p)

namespace Refuses

variable {e : Expr}

/-- There is nothing to refuse if an expression stands bare before arguments. -/
theorem of_strong (h : Strength.callMember ≤ e.operandStrength p.dialect) : Refuses table p e :=
  fun hbare => absurd h (of_decide_eq_false hbare)

/-- What is refused only depends on what is written. -/
theorem of_written {inner : Expr} (h : Refuses table p inner)
    (hwritten : e.written p.dialect = inner.written p.dialect) : Refuses table p e := by
  rw [Refuses, Expr.isBareHead_congr hwritten, Expr.layout_congr hwritten]
  exact h

/-- An operand before something foreign. -/
theorem operand (h : Refuses table p e) {needed : Bool}
    (hresolved : Resolved table (Lexeme.wrappedIf needed (e.layout p) ++ ms))
    (hstart : MayStart true (Lexeme.wrappedIf needed (e.layout p) ++ ms))
    (hms : ∀ rest, Foreign (characters table ms ++ rest)) :
    Rejected table (Lexeme.wrappedIf needed (e.layout p) ++ ms) := by
  cases needed with
  | true => exact .of_heads (.parenthesized (e.nested_layout p)) hms
  | false =>
      cases hbare : e.isBareHead p.dialect with
      -- an operand that could be a target itself is read as one, and then nothing more is
      | true => exact .of_heads (reads_layout p e hbare hresolved.of_append hstart.of_append) hms
      | false => exact (h hbare hresolved.of_append hstart.of_append).append ms

end Refuses

/-- Nothing is read of an expression that is weaker than a member access. -/
theorem refuses_layout (p : Place) : (e : Expr) → Refuses table p e
  | .number value => fun hbare _ _ => by
      have hnegative : value < 0 := by
        by_contra hpositive
        have hstrength : (Expr.number value).operandStrength p.dialect = Strength.primary :=
          if_neg hpositive
        rw [Expr.isBareHead, hstrength] at hbare
        exact absurd hbare (by decide)
      have hlayout : (Expr.number value).layout p =
          [mark "-"] ++ [digits value.toInt.natAbs false] := if_pos hnegative
      rw [hlayout]
      exact (Rejected.unaryOperator .minus).append _
  | .string _ | .boolean _ | .null | .undefined | .array _ | .reference _ | .global _
  | .imported _ _ => .of_strong (by decide : Strength.callMember ≤ Strength.primary)
  | .object _ => .of_strong (by decide : Strength.callMember ≤ Strength.objectLiteral)
  | .get _ _ | .call _ _ | .new _ _ => .of_strong (le_refl Strength.callMember)
  | .unary op e => fun _ _ _ => (Rejected.unaryOperator op).append _
  | .binary op left right => fun _ hresolved hstart => by
      rw [Expr.layout, Layout.binary, List.append_assoc] at hresolved hstart ⊢
      refine (refuses_layout p left).operand hresolved hstart fun rest => ?_
      simpa [Lexeme.text, spell] using Foreign.binary op _
  | .conditional condition thenExpr elseExpr => fun _ hresolved hstart => by
      rw [Expr.layout, Layout.operand] at hresolved hstart ⊢
      simp only [List.append_assoc] at hresolved hstart ⊢
      refine (refuses_layout p condition).operand hresolved hstart fun rest => ?_
      simpa [Lexeme.text, spell] using Foreign.question _
  | .lambda isAsync typeParameters parameters returnType body => fun _ _ _ => by
      have hparameters : AllNested table
          (Parameter.layouts (p.bindFunction typeParameters parameters) parameters) :=
        Parameter.allNested_layouts _ parameters
      cases isAsync with
      | false => exact .plainFunction p hparameters _ _
      | true => exact .asyncFunction p (TypeParameter.fluent_layouts _ _) hparameters _ _
  | .assertion e type => by
      cases hdialect : p.dialect with
      | typeScript =>
          intro _ hresolved hstart
          have htypes : p.hasTypes = true := decide_eq_true hdialect
          rw [Expr.layout, if_pos htypes, Layout.operand, List.append_assoc] at hresolved hstart ⊢
          refine (refuses_layout p e).operand hresolved hstart fun rest => ?_
          simpa [Lexeme.text, spell] using Foreign.as _
      | javaScript =>
          refine (refuses_layout p e).of_written ?_
          rw [hdialect]
          rfl
  | .instantiation e arguments => by
      cases hdialect : p.dialect with
      | typeScript =>
          refine .of_strong ?_
          rw [hdialect]
          exact (by decide : Strength.callMember ≤ Strength.primary)
      | javaScript =>
          refine (refuses_layout p e).of_written ?_
          rw [hdialect]
          rfl

/-! ## Statements -/

/-- The mark of an assignment is one token. -/
theorem readNext_assignmentMark (op : Option AssignmentOperator) (rest : List Char) :
    readNext (' ' :: ((Layout.assignmentMark op).toList ++ ' ' :: rest)) =
      some (.punctuator (Layout.assignmentMark op), ' ' :: rest) := by
  rcases op with _ | op
  · rfl
  · cases op <;> rfl

/-- The mark of an assignment is read as its operator. -/
theorem readOperator_assignmentMark (op : Option AssignmentOperator) (rest : List Char) :
    readOperator (' ' :: ((Layout.assignmentMark op).toList ++ ' ' :: rest)) =
      some (op, ' ' :: rest) := by
  have hlookup : operators.lookup (Layout.assignmentMark op) = some op := by
    rcases op with _ | op
    · rfl
    · cases op <;> rfl
  rw [readOperator, readNext_assignmentMark]
  simp only [hlookup, Option.map_some]

/-- The mark of an assignment ends a chain. -/
theorem readChain_assignmentMark (op : Option AssignmentOperator) (rest : List Char) :
    readChain (' ' :: ((Layout.assignmentMark op).toList ++ rest)) =
      some (' ' :: ((Layout.assignmentMark op).toList ++ rest)) := by
  rcases op with _ | op
  · exact readChain_space (by decide) (by decide)
  · cases op <;> exact readChain_space (by decide) (by decide)

/-- A value is read up to the semicolon after it. -/
theorem readValue_layout (p : Place) (e : Expr) :
    readValue (' ' :: (characters table (e.layout p) ++ [';'])) =
      some (trim (characters table (e.layout p))) := by
  have hundivided : Undivided ([' '] ++ characters table (e.layout p)) :=
    steady_space.undivided.append (e.undivided_layout p)
  have htext : ' ' :: (characters table (e.layout p) ++ [';']) =
      ([' '] ++ characters table (e.layout p)) ++ [';'] := rfl
  rw [htext, readValue, List.getLast?_concat, List.dropLast_concat, if_pos ⟨rfl, hundivided⟩]
  rfl

/-- What is read of a target with an operator and a value after it. -/
theorem read_append (p : Place) (op : Option AssignmentOperator) (value : Expr)
    (h : Heads table true ls pointed broken listed) :
    read (characters table ls ++ ' ' :: ((Layout.assignmentMark op).toList ++
      ' ' :: (characters table (value.layout p) ++ [';']))) =
      if !(broken || listed && refusedMarks.contains (Layout.assignmentMark op)) then
        some ⟨characters table ls, op, trim (characters table (value.layout p))⟩
      else none := by
  have hrefused : ∀ rest, refusesList (' ' :: ((Layout.assignmentMark op).toList ++ ' ' :: rest)) =
      refusedMarks.contains (Layout.assignmentMark op) := by
    intro rest
    rw [refusesList, readNext_assignmentMark]
  -- what was read of the text is all of it but what is left
  have htaken : ∀ rest : List Char, (characters table ls ++ rest).take
      ((characters table ls ++ rest).length - rest.length) = characters table ls := by
    intro rest
    rw [List.length_append, Nat.add_sub_cancel, List.take_left]
  rw [read, h.readTarget_eq rfl (by simp), hrefused, readChain_assignmentMark]
  cases broken || listed && refusedMarks.contains (Layout.assignmentMark op) with
  | true => rfl
  | false =>
      simp only [Bool.false_eq_true, if_false, Bool.not_false, if_true, Option.bind_eq_bind,
        Option.bind_some, readOperator_assignmentMark, readValue_layout, htaken]
      rfl

/-- Nothing is read of an assignment if nothing is read of its target. -/
theorem read_eq_none {cs : List Char} (h : (readTarget true cs).bind readOperator = none) :
    read cs = none := by
  rw [read]
  cases htarget : readTarget true cs with
  | none => rfl
  | some rest =>
      rw [htarget, Option.bind_some] at h
      rw [Option.bind_eq_bind, Option.bind_some, h]
      rfl

/-- A target that starts with a brace is in parentheses. -/
theorem characters_opening (target : Expr) :
    characters table (Layout.opening (target.layout p)) =
      if startWith "\x7b" (target.layout p) then
        '(' :: (characters table (target.layout p) ++ [')'])
      else characters table (target.layout p) := by
  rw [Layout.opening]
  cases startWith "\x7b" (target.layout p) with
  | true => exact characters_between rfl rfl _
  | false => rfl

end Assignment

open Assignment

/-- An assignment is read back as its target, its operator and its value exactly if its target
is assignable. Otherwise the text is read as no assignment. -/
theorem Statement.set_reads_back (table : ImportTable) (p : Place) (target : Expr)
    (op : Option AssignmentOperator) (value : Expr) (text : String)
    (h : spellAll table ((Statement.set target op value).layout p) = .ok text) :
    let before :=
      if startWith "\x7b" (target.layout p) then
        '(' :: (characters table (target.layout p) ++ [')'])
      else characters table (target.layout p)
    let after := characters table (value.layout p)
    text.toList =
        before ++ ' ' :: ((Layout.assignmentMark op).toList ++ ' ' :: (after ++ [';'])) ∧
      Assignment.read text.toList =
        if target.isAssignable p op then some ⟨before, op, trim after⟩ else none := by
  intro before after
  have hopening : characters table (Layout.opening (target.layout p)) = before :=
    characters_opening target
  have htext : text.toList =
      before ++ ' ' :: ((Layout.assignmentMark op).toList ++ ' ' :: (after ++ [';'])) := by
    rw [toList_of_spellAll h, ← hopening]
    simp [Statement.layout, Lexeme.text, spell, after]
  have hstatement : Resolved table ((Statement.set target op value).layout p) :=
    fun path hpath => exists_find?_of_spellAll h hpath
  have hresolved : Resolved table (target.layout p) :=
    hstatement.of_append.of_append.of_append.of_sublist (sublist_wrappedIf _ _)
  refine ⟨htext, ?_⟩
  rw [htext, ← hopening, Expr.isAssignable, Layout.opening]
  cases hbrace : startWith "\x7b" (target.layout p) with
  | true =>
      exact read_append p op value (.parenthesized (target.nested_layout p))
  | false =>
      have hstart : MayStart true (target.layout p) := fun _ => hbrace
      cases hbare : target.isBareHead p.dialect with
      | true =>
          exact read_append p op value (reads_layout p target hbare hresolved hstart)
      | false =>
          exact read_eq_none (refuses_layout p target hbare hresolved hstart _)

/-- A member of an instantiation, which is in parentheses for the point after it. -/
theorem Statement.set_reads_back_member :
    let p : Place := ⟨.typeScript, 0, .root [], .root []⟩
    let target : Expr := .get (.instantiation (.global ⟨"f", rfl⟩) [.number]) (.string "x")
    let text := "(f<number>).x += 1;"
    spellAll ⟨[]⟩ ((Statement.set target (some .addition) (.number 1)).layout p) = .ok text ∧
      Assignment.read text.toList =
        some ⟨"(f<number>).x".toList, some .addition, "1".toList⟩ := by
  intro p target text
  have hpaths : paths ((Statement.set target (some .addition) (.number 1)).layout p) = [] := by
    decide +kernel +revert
  have hspelled : spellAll ⟨[]⟩
      ((Statement.set target (some .addition) (.number 1)).layout p) = .ok text := by
    rw [spellAll_eq_ok fun path hpath => absurd (hpaths ▸ hpath) List.not_mem_nil]
    decide +kernel +revert
  have hread := (Statement.set_reads_back _ _ _ _ _ _ hspelled).2
  refine ⟨hspelled, hread.trans ?_⟩
  decide +kernel +revert

/-- An assertion as the target has no parentheses, and with them it would be read. -/
theorem Statement.set_is_not_read :
    let p : Place := ⟨.typeScript, 0, .root [], .root []⟩
    let target : Expr := .assertion (.global ⟨"x", rfl⟩) .number
    spellAll ⟨[]⟩ ((Statement.set target none (.number 1)).layout p) =
        .ok "x as number = 1;" ∧
      target.operandStrength .typeScript < Strength.callMember ∧
      Assignment.read "x as number = 1;".toList = none ∧
      Assignment.read "(x as number) = 1;".toList =
        some ⟨"(x as number)".toList, none, "1".toList⟩ := by
  intro p target
  have hpaths : paths ((Statement.set target none (.number 1)).layout p) = [] := by
    decide +kernel +revert
  refine ⟨?_, by decide, by decide +kernel, by decide +kernel⟩
  rw [spellAll_eq_ok fun path hpath => absurd (hpaths ▸ hpath) List.not_mem_nil]
  decide +kernel +revert

end EcmaWriter
