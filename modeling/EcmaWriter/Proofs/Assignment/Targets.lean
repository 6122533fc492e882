import EcmaWriter.Proofs.Assignment.Reader
import EcmaWriter.Proofs.ObjectLiteral.Members

/-!
# EcmaWriter - What is read of targets

What an expression leaves to be read depends on what comes after it: a number takes a point that
follows for its own, and a type list at the end is not read before some tokens.  So a target is
read together with any text after it, and each form of node adds a head or a link to what is
read of its parts.

An expression that stands without parentheses before arguments is read as a target up to its
end, unless a type list stands directly after another one at its start.

Main results:

- Structure `Assignment.Heads`: what is read of lexemes and of any text after them.
- Definitions `Expr.endsInList`, `Expr.repeatsList`: where an expression shows type lists.
- Theorem `Assignment.reads_layout`: what is read of an expression.
-/

namespace EcmaWriter

open Lexeme Script
open ObjectLiteral (isSpace trim)

namespace Expr

/-- Whether a number or an instantiation is written for an expression. No point may follow it
directly. -/
def refusesPoint (dialect : Dialect) (e : Expr) : Bool :=
  match e.written dialect with
  | .number _ | .instantiation _ _ => true
  | _ => false

/-- Whether an instantiation is written for an expression. -/
def isInstantiation (dialect : Dialect) (e : Expr) : Bool :=
  match e.written dialect with
  | .instantiation _ _ => true
  | _ => false

/-- Whether an expression stands without parentheses before arguments. -/
def isBareHead (dialect : Dialect) (e : Expr) : Bool :=
  Strength.callMember ≤ e.operandStrength dialect

/-- Whether what is written of an expression ends with a type list. -/
def endsInList (dialect : Dialect) : Expr → Bool
  | .assertion e _ =>
    match dialect with
    | .typeScript => false
    | .javaScript => e.endsInList dialect
  | .instantiation e arguments =>
    match dialect with
    | .typeScript => !arguments.isEmpty || e.isBareHead dialect && e.endsInList dialect
    | .javaScript => e.endsInList dialect
  | _ => false

/-- Whether a type list stands directly after another one in what an expression starts with. -/
def repeatsList (dialect : Dialect) : Expr → Bool
  | .get base _ =>
    base.isBareHead dialect && !base.isInstantiation dialect && base.repeatsList dialect
  | .call callee _ => callee.isBareHead dialect && callee.repeatsList dialect
  | .new callee _ =>
    callee.isBareHead dialect && !callee.hasCallInChain dialect && callee.repeatsList dialect
  | .assertion e _ =>
    match dialect with
    | .typeScript => false
    | .javaScript => e.repeatsList dialect
  | .instantiation e arguments =>
    match dialect with
    | .typeScript =>
      e.isBareHead dialect &&
        (e.repeatsList dialect || e.endsInList dialect && !arguments.isEmpty)
    | .javaScript => e.repeatsList dialect
  | _ => false

end Expr

namespace Assignment

/-! ## Texts that start with a target -/

/-- Whether lexemes are read as a target whatever comes after them, which may have a link of the
same chain at its start. It may be a point only if lexemes are `pointed`. Nothing is read of lexemes
that are `broken`, nor of those that are `listed`, which end with a type list, before a token that
is refused there. -/
structure Heads (table : ImportTable) (isFirst : Bool) (ls : List Lexeme)
    (pointed broken listed : Bool) : Prop where
  readTarget_eq : ∀ {rest : List Char}, rest.head?.any isWordPart = false →
    (pointed = false → rest.head? ≠ some '.') →
    readTarget isFirst (characters table ls ++ rest) =
      if broken || listed && refusesList rest then none else readChain rest

namespace Heads

variable {table : ImportTable} {isFirst pointed broken listed : Bool} {ls ms : List Lexeme}

/-- Lexemes before which a point may stand need not have one. -/
theorem weaken {weaker : Bool} (h : Heads table isFirst ls pointed broken listed)
    (hle : weaker ≤ pointed) : Heads table isFirst ls weaker broken listed := by
  refine ⟨fun hrest hpoint => h.readTarget_eq hrest fun hpointed => hpoint ?_⟩
  rw [hpointed] at hle
  exact Bool.eq_false_of_le_false hle

/-! ### Operands -/

/-- Lexemes that are one operand are read as a target. -/
theorem of_operand (h : ∀ {rest : List Char}, rest.head?.any isWordPart = false →
    (pointed = false → rest.head? ≠ some '.') →
    readOperand isFirst (characters table ls ++ rest) = some rest) :
    Heads table isFirst ls pointed false false := by
  refine ⟨fun hrest hpoint => ?_⟩
  rw [readTarget, h hrest hpoint]
  rfl

/-- A number is read, and takes a point only if it has one already. -/
theorem digits (value : Nat) (pointed : Bool) :
    Heads table isFirst [digits value pointed] pointed false false := by
  refine .of_operand fun {rest} hrest hpoint => readOperand_number (n := value) ?_
  have htext : characters table [Lexeme.digits value pointed] =
      Nat.toDigits 10 value ++ (if pointed then ['.'] else []) := by
    cases pointed <;> simp [Lexeme.text, spell]
  rw [htext, List.append_assoc]
  exact readNext_number value pointed hrest hpoint

/-- A literal is read to its closing quote. -/
theorem literal (value : String) : Heads table isFirst [literal value] true false false := by
  refine .of_operand fun {rest} _ _ => readOperand_string (w := readBack value) ?_
  rw [characters_singleton]
  exact readNext_literal value rest

/-- A word that is an operand is read, unless it is `new`. -/
theorem word (text : String) {l : Lexeme} (hl : l.text table = text)
    (hshape : hasIdentifierShape text.toList = true) (hnew : text ≠ "new")
    (h : isOperand text = true) : Heads table isFirst [l] true false false := by
  refine .of_operand fun {rest} hrest _ => ?_
  have hnext : readNext (text.toList ++ rest) = some (.word text, rest) := by
    rw [readNext_word hshape hrest, String.ofList_toList]
  rw [characters_singleton, hl, readOperand_word hnext, if_neg hnew, if_pos h]

/-- An identifier is read, as no keyword is one. -/
theorem name (n : Identifier) {l : Lexeme} (hl : l.text table = n.text) :
    Heads table isFirst [l] true false false := by
  have hreference : isReference n.text = true := Expr.isReference_of_isBareName n.isBare
  refine .word n.text hl n.isPropertyName ?_ ?_
  · intro hnew
    rw [hnew] at hreference
    exact absurd hreference (by decide)
  · rw [isOperand, hreference, Bool.true_or]

/-- A built-in name is read, with or without the global object before it. -/
theorem qualified (hidden : Bool) (n : Identifier) :
    Heads table isFirst [globalValue hidden n] true false false := by
  cases hidden with
  | false => exact .name n rfl
  | true =>
      refine ⟨fun {rest} hrest _ => ?_⟩
      have htext : characters table [globalValue true n] ++ rest =
          "globalThis".toList ++ '.' :: (n.text.toList ++ rest) := by
        simp [Lexeme.text, spell, Lexeme.qualified]
      have hnext : readNext ("globalThis".toList ++ '.' :: (n.text.toList ++ rest)) =
          some (.word "globalThis", '.' :: (n.text.toList ++ rest)) :=
        readNext_word (by decide) rfl
      rw [htext, readTarget, readOperand_word hnext, if_neg (by decide), if_pos (by decide)]
      exact readChain_dotted n.isPropertyName hrest

/-- Something in brackets. -/
theorem bracketed {opening closing : String} {c d : Char} (hopening : opening.toList = [c])
    (hclosing : closing.toList = [d]) (hmark : closingMark? isFirst opening = some d)
    (hnext : ∀ rest, readNext (c :: rest) = some (.punctuator opening, rest))
    (hpair : closing? c = some d) (h : Nested table ls) :
    Heads table isFirst (mark opening :: (ls ++ [mark closing])) true false false := by
  refine .of_operand fun {rest} _ _ => ?_
  have htext : characters table (mark opening :: (ls ++ [mark closing])) ++ rest =
      c :: (characters table ls ++ d :: rest) := by
    rw [characters_between hopening hclosing]
    simp
  rw [htext, readOperand_punctuator (hnext _), hmark]
  exact afterGroup_append hpair h rest

/-- Parentheses are read with anything nested in them. -/
theorem parenthesized (h : Nested table ls) :
    Heads table isFirst (parenthesized ls) true false false :=
  bracketed rfl rfl rfl (fun _ => rfl) rfl h

/-- Square brackets at the start are an array. -/
theorem squared (h : Nested table ls) :
    Heads table isFirst (mark "[" :: (ls ++ [mark "]"])) true false false :=
  bracketed rfl rfl rfl (fun _ => rfl) rfl h

/-- Curly brackets are an object, but not at the start of a statement. -/
theorem curly (h : Nested table ls) :
    Heads table false (mark "\x7b" :: (ls ++ [mark "\x7d"])) true false false :=
  bracketed rfl rfl rfl (fun _ => rfl) rfl h

/-- Parentheses, where there are any, hide what would break the text in them. -/
theorem wrappedIf {needed : Bool} (hnested : Nested table ls)
    (h : needed = false → Heads table isFirst ls pointed broken listed) :
    Heads table isFirst (Lexeme.wrappedIf needed ls) (needed || pointed) (!needed && broken)
      (!needed && listed) := by
  cases needed with
  | true => exact .parenthesized hnested
  | false => exact h rfl

/-- An operand after `new`, where a brace opens no block. -/
theorem afterNew (h : Heads table false ls pointed broken listed) :
    Heads table isFirst ([Lexeme.word "new", space] ++ ls) pointed broken listed := by
  refine ⟨fun {rest} hrest hpoint => ?_⟩
  have hnext : readNext ("new".toList ++ ' ' :: (characters table ls ++ rest)) =
      some (.word "new", ' ' :: (characters table ls ++ rest)) :=
    readNext_word (by decide) rfl
  have htext : characters table ([Lexeme.word "new", space] ++ ls) ++ rest =
      "new".toList ++ ' ' :: (characters table ls ++ rest) := by
    simp [Lexeme.text, spell]
  have hspace : readOperand false (' ' :: (characters table ls ++ rest)) =
      readOperand false (characters table ls ++ rest) := by
    rw [readOperand, readNext_space, ← readOperand]
  rw [htext, readTarget, readOperand_word hnext, if_pos rfl, hspace]
  exact h.readTarget_eq hrest hpoint

/-! ### Links -/

/-- What a target goes on with. Before a link that is `refused`, no type list is read. -/
theorem append (refused : Bool) {c : Char} {cs : List Char}
    (h : Heads table isFirst ls pointed broken listed) (htext : characters table ms = c :: cs)
    (hword : isWordPart c = false) (hpoint : pointed = false → c ≠ '.')
    (hrefused : listed = true → ∀ rest, refusesList (c :: (cs ++ rest)) = refused)
    (hchain : ∀ {rest : List Char}, rest.head?.any isWordPart = false →
      readChain (c :: (cs ++ rest)) = readChain rest) :
    Heads table isFirst (ls ++ ms) true (broken || listed && refused) false := by
  refine ⟨fun {rest} hrest _ => ?_⟩
  have hnext : (c :: (cs ++ rest)).head?.any isWordPart = false := hword
  have hlisted : (listed && refusesList (c :: (cs ++ rest))) = (listed && refused) := by
    cases listed with
    | false => rfl
    | true => rw [hrefused rfl]
  rw [characters_append, List.append_assoc, htext, List.cons_append, h.readTarget_eq hnext,
    hlisted, hchain hrest, Bool.false_and, Bool.or_false]
  exact fun hpointed heq => hpoint hpointed (Option.some.inj heq)

/-- Arguments go on with the chain. -/
theorem call (h : Heads table isFirst ls pointed broken listed) (hms : Nested table ms) :
    Heads table isFirst (ls ++ Lexeme.parenthesized ms) true broken false := by
  have htext : characters table (Lexeme.parenthesized ms) = '(' :: (characters table ms ++ [')']) :=
    characters_between rfl rfl ms
  have hcall := h.append false htext (by decide) (fun _ => by decide)
    (fun _ _ => rfl) fun {rest} _ => by
      rw [List.append_assoc]
      exact readChain_parenthesized hms rest
  rwa [Bool.and_false, Bool.or_false] at hcall

/-- So do arguments after a space. -/
theorem spacedCall (h : Heads table isFirst ls pointed broken listed) (hms : Nested table ms) :
    Heads table isFirst (ls ++ space :: Lexeme.parenthesized ms) true broken false := by
  have htext : characters table (space :: Lexeme.parenthesized ms) =
      ' ' :: '(' :: (characters table ms ++ [')']) := by
    simp [Lexeme.parenthesized, Lexeme.text, spell]
  have hcall := h.append false htext (by decide) (fun _ => by decide)
    (fun _ _ => rfl) fun {rest} _ => by
      rw [List.cons_append, List.append_assoc]
      exact readChain_spaced hms rest
  rwa [Bool.and_false, Bool.or_false] at hcall

/-- A key in square brackets goes on with the chain, unless a type list is before it. -/
theorem index (h : Heads table isFirst ls pointed broken false) (hms : Nested table ms) :
    Heads table isFirst (ls ++ mark "[" :: (ms ++ [mark "]"])) true broken false := by
  have htext : characters table (mark "[" :: (ms ++ [mark "]"])) =
      '[' :: (characters table ms ++ [']']) := characters_between rfl rfl ms
  have hindex := h.append false htext (by decide) (fun _ => by decide) nofun
    fun {rest} _ => by
      rw [List.append_assoc]
      exact readChain_squared hms rest
  rwa [Bool.and_false, Bool.or_false] at hindex

/-- A name after a point goes on with the chain, unless a type list is before it. -/
theorem dotted (h : Heads table isFirst ls true broken false) {key : String}
    (hkey : isPropertyName key = true) :
    Heads table isFirst (ls ++ [mark ".", Lexeme.word key]) true broken false := by
  have htext : characters table [mark ".", Lexeme.word key] = '.' :: key.toList := by
    simp [Lexeme.text, spell]
  have hdotted := h.append false htext (by decide) nofun nofun
    fun {rest} hrest => readChain_dotted hkey hrest
  rwa [Bool.and_false, Bool.or_false] at hdotted

/-- The access to a member goes on with the chain, by a point or in square brackets. -/
theorem memberAccess (h : Heads table isFirst ls true broken false) (key : String) :
    Heads table isFirst (ls ++ Layout.memberAccess key) true broken false := by
  rw [Layout.memberAccess]
  split
  · exact h.dotted ‹_›
  · exact h.index (.cons rfl .nil)

/-- A type list goes on with the chain, and breaks it after another one. -/
theorem angled (h : Heads table isFirst ls pointed broken listed) {pieces : List (List Lexeme)}
    (hne : pieces ≠ []) (hpieces : ∀ ls ∈ pieces, Fluent (characters table ls)) :
    Heads table isFirst (ls ++ Lexeme.angled pieces) true (broken || listed) true := by
  refine ⟨fun {rest} hrest _ => ?_⟩
  have hhead : ∀ (p : Char → Bool), (characters table (Lexeme.angled pieces) ++ rest).head?.any p =
      p '<' := by
    intro p
    rw [characters_angled hne]
    rfl
  rw [characters_append, List.append_assoc, h.readTarget_eq (hhead _),
    refusesList_angled hne hpieces, readChain_angled hne hpieces, Bool.and_true, Bool.true_and]
  · cases broken || listed <;> simp
  · intro _ heq
    have hpoint := hhead (· == '.')
    rw [heq] at hpoint
    exact absurd hpoint (by decide)

end Heads

end Assignment

/-! ## Expressions -/

namespace Expr

variable {dialect : Dialect} {e : Expr}

/-- A head is bare if it binds as strongly as a call. -/
theorem isBareHead_eq (dialect : Dialect) (e : Expr) : e.isBareHead dialect =
    !decide (e.operandStrength dialect < Strength.callMember) := by
  rw [← decide_not]
  exact decide_eq_decide.mpr Nat.not_lt.symm

/-! ### Expressions that are written as the same node -/

/-- Whether a head is bare only depends on what is written of it. -/
theorem isBareHead_congr {inner : Expr} (h : e.written dialect = inner.written dialect) :
    e.isBareHead dialect = inner.isBareHead dialect := by
  rw [isBareHead, isBareHead, operandStrength, operandStrength, h]

/-- Whether a point may follow only depends on what is written. -/
theorem refusesPoint_congr {inner : Expr} (h : e.written dialect = inner.written dialect) :
    e.refusesPoint dialect = inner.refusesPoint dialect := by
  rw [refusesPoint, refusesPoint, h]

/-- So does the layout. -/
theorem layout_congr {p : Place} {inner : Expr}
    (h : e.written p.dialect = inner.written p.dialect) : e.layout p = inner.layout p := by
  rw [← e.layout_written, h, inner.layout_written]

/-! ### Ends of expressions -/

/-- A number that stands bare has no sign. -/
theorem nonneg_of_isBareHead {value : Int32} (hwritten : e.written dialect = .number value)
    (h : e.isBareHead dialect = true) : 0 ≤ value := by
  have hstrength : Strength.callMember ≤
      if value < 0 then Strength.unary else Strength.primary := by
    have hbare := of_decide_eq_true h
    rwa [operandStrength, hwritten] at hbare
  by_cases hsign : value < 0
  · rw [if_pos hsign] at hstrength
    exact absurd hstrength (by decide)
  · exact Int32.not_lt.mp hsign

/-- Only an instantiation ends with a type list. -/
theorem endsInList_eq_false (h : e.isInstantiation dialect = false) :
    e.endsInList dialect = false := by
  fun_induction Expr.endsInList dialect e with
  | case1 => rfl
  | case2 e _ hjs ih =>
      subst hjs
      exact ih h
  | case3 e _ hts =>
      subst hts
      exact Bool.noConfusion h
  | case4 e _ hjs ih =>
      subst hjs
      exact ih h
  | case5 => rfl

/-- A number has no type lists. -/
theorem repeatsList_eq_false {value : Int32} (h : e.written dialect = .number value) :
    e.repeatsList dialect = false := by
  fun_induction Expr.repeatsList dialect e with
  | case1 => exact Expr.noConfusion h
  | case2 => exact Expr.noConfusion h
  | case3 => exact Expr.noConfusion h
  | case4 => rfl
  | case5 e _ hjs ih =>
      subst hjs
      exact ih h
  | case6 e _ hts =>
      subst hts
      exact Expr.noConfusion h
  | case7 e _ hjs ih =>
      subst hjs
      exact ih h
  | case8 => rfl

/-! ### Without types -/

/-- No type list is written without types. -/
theorem endsInList_javaScript (e : Expr) : e.endsInList .javaScript = false := by
  fun_induction Expr.endsInList .javaScript e with
  | case1 | case3 => contradiction
  | case2 _ _ _ ih | case4 _ _ _ ih => exact ih
  | case5 => rfl

/-- So none stands after another one. -/
theorem repeatsList_javaScript (e : Expr) : e.repeatsList .javaScript = false := by
  fun_induction Expr.repeatsList .javaScript e with
  | case1 _ _ ih | case2 _ _ ih | case3 _ _ ih => simp [ih]
  | case4 | case6 => contradiction
  | case5 _ _ _ ih | case7 _ _ _ ih => exact ih
  | case8 => rfl

end Expr

/-- Lexemes that start with a text do so whatever comes after them. -/
theorem Lexeme.startWith_append {text : String} {ls : List Lexeme} (h : startWith text ls = true)
    (ms : List Lexeme) : startWith text (ls ++ ms) = true := by
  cases ls with
  | nil => exact absurd h (by simp [startWith])
  | cons l ls => exact h

namespace Assignment

variable {table : ImportTable} {p : Place} {isFirst : Bool}

/-- Whether lexemes do not start with a brace where that would open a block. -/
def MayStart (isFirst : Bool) (ls : List Lexeme) : Prop :=
  isFirst = true → startWith "\x7b" ls = false

/-- The start of a text is the start of its first part. -/
theorem MayStart.of_append {ls ms : List Lexeme} (h : MayStart isFirst (ls ++ ms)) :
    MayStart isFirst ls := by
  intro hfirst
  rw [Bool.eq_false_iff]
  intro hls
  exact Bool.false_ne_true ((h hfirst).symm.trans (startWith_append hls ms))

/-- Whether the namespaces that lexemes need are there. -/
def Resolved (table : ImportTable) (ls : List Lexeme) : Prop :=
  ∀ path ∈ paths ls, ∃ n, table.find? path = some n

/-- Fewer lexemes need no more namespaces. -/
theorem Resolved.of_sublist {ls ms : List Lexeme} (h : Resolved table ms) (hsub : ls.Sublist ms) :
    Resolved table ls :=
  fun path hpath => h path (paths_subset_of_sublist hsub hpath)

/-- The first part of a text needs no more namespaces than the text. -/
theorem Resolved.of_append {ls ms : List Lexeme} (h : Resolved table (ls ++ ms)) :
    Resolved table ls :=
  h.of_sublist (List.sublist_append_left ls ms)

/-- Parentheses add lexemes and take none away. -/
theorem sublist_wrappedIf (needed : Bool) (ls : List Lexeme) :
    ls.Sublist (Lexeme.wrappedIf needed ls) := by
  cases needed with
  | false => exact .refl ls
  | true => exact (List.sublist_append_left ls _).cons _

/-- Whether a target is read from what is written of an expression that stands without
parentheses before arguments. -/
def Reads (table : ImportTable) (p : Place) (e : Expr) : Prop :=
  e.isBareHead p.dialect = true → Resolved table (e.layout p) →
    ∀ {isFirst}, MayStart isFirst (e.layout p) →
      Heads table isFirst (e.layout p) (!e.refusesPoint p.dialect) (e.repeatsList p.dialect)
        (e.endsInList p.dialect)

namespace Reads

variable {e : Expr} (h : Reads table p e)
include h

/-- A head that may be put in parentheses. -/
theorem wrappedIf {needed : Bool} (hbare : needed = false → e.isBareHead p.dialect = true)
    (hresolved : Resolved table (Lexeme.wrappedIf needed (e.layout p)))
    (hstart : MayStart isFirst (Lexeme.wrappedIf needed (e.layout p))) :
    Heads table isFirst (Lexeme.wrappedIf needed (e.layout p))
      (needed || !e.refusesPoint p.dialect) (!needed && e.repeatsList p.dialect)
      (!needed && e.endsInList p.dialect) := by
  refine .wrappedIf (e.nested_layout p) fun hneeded => ?_
  subst hneeded
  exact h (hbare rfl) hresolved hstart

/-- An operand of a chain is read if the expression is, with the parentheses that it has. -/
theorem operand (hresolved : Resolved table (Layout.operand p .callMember e (e.layout p)))
    (hstart : MayStart isFirst (Layout.operand p .callMember e (e.layout p))) :
    Heads table isFirst (Layout.operand p .callMember e (e.layout p))
      (!e.isBareHead p.dialect || !e.refusesPoint p.dialect)
      (e.isBareHead p.dialect && e.repeatsList p.dialect)
      (e.isBareHead p.dialect && e.endsInList p.dialect) := by
  rw [e.isBareHead_eq, Bool.not_not]
  refine h.wrappedIf (fun hneeded => ?_) hresolved hstart
  rw [e.isBareHead_eq, hneeded]
  rfl

/-- The base of a member access that is no instantiation. -/
theorem plainBase (hplain : e.isInstantiation p.dialect = false)
    (hresolved : Resolved table (Layout.operand p .callMember e (e.layout p)))
    (hstart : MayStart isFirst (Layout.operand p .callMember e (e.layout p))) :
    Heads table isFirst (Layout.operand p .callMember e (e.layout p))
      (!e.isBareHead p.dialect || !e.refusesPoint p.dialect)
      (e.isBareHead p.dialect && !e.isInstantiation p.dialect && e.repeatsList p.dialect)
      false := by
  have hoperand := h.operand hresolved hstart
  rw [e.endsInList_eq_false hplain, Bool.and_false] at hoperand
  rwa [hplain, Bool.not_false, Bool.and_true]

/-- The base of a member access has no type list at its end. -/
theorem memberBase (dotted : Bool)
    (hresolved : Resolved table (Layout.memberBase p e dotted (e.layout p)))
    (hstart : MayStart isFirst (Layout.memberBase p e dotted (e.layout p))) :
    Heads table isFirst (Layout.memberBase p e dotted (e.layout p)) dotted
      (e.isBareHead p.dialect && !e.isInstantiation p.dialect && e.repeatsList p.dialect)
      false := by
  unfold Layout.memberBase at hresolved hstart ⊢
  cases hwritten : e.written p.dialect with
  | number value =>
      have hplain : e.isInstantiation p.dialect = false := by
        rw [Expr.isInstantiation, hwritten]
      simp only [hwritten] at hresolved hstart ⊢
      split
      -- a number with a point of its own takes no other one
      · rw [Expr.repeatsList_eq_false hwritten, Bool.and_false]
        exact (Heads.digits _ true).weaken (Bool.le_true dotted)
      · rename_i hsign
        simp only [hsign, if_false, Bool.false_eq_true] at hresolved hstart
        refine (h.plainBase hplain hresolved hstart).weaken ?_
        cases hbare : e.isBareHead p.dialect with
        | false => exact Bool.le_true dotted
        | true =>
            -- a bare number has no sign, so it would have got a point before a name
            have hpositive := Expr.nonneg_of_isBareHead hwritten hbare
            have hdotted : dotted = false := by
              simpa [hpositive] using hsign
            rw [hdotted]
            exact Bool.false_le _
  | instantiation _ _ =>
      have hinstantiation : e.isInstantiation p.dialect = true := by
        rw [Expr.isInstantiation, hwritten]
      rw [hinstantiation, Bool.not_true, Bool.and_false, Bool.false_and]
      exact (Heads.parenthesized (e.nested_layout p)).weaken (Bool.le_true dotted)
  | _ =>
      have hplain : e.isInstantiation p.dialect = false := by
        rw [Expr.isInstantiation, hwritten]
      have hpoint : e.refusesPoint p.dialect = false := by rw [Expr.refusesPoint, hwritten]
      simp only [hwritten] at hresolved hstart ⊢
      have hbase := h.plainBase hplain hresolved hstart
      rw [hpoint, Bool.not_false, Bool.or_true] at hbase
      exact hbase.weaken (Bool.le_true dotted)

end Reads

/-- Weaker expressions are in parentheses. -/
theorem Reads.of_weak {e : Expr} (h : ¬Strength.callMember ≤ e.operandStrength p.dialect) :
    Reads table p e :=
  fun hbare => absurd (of_decide_eq_true hbare) h

/-- Where an expression is written as another one, it is read as that. -/
theorem Reads.of_written {e inner : Expr} (h : Reads table p inner)
    (hwritten : e.written p.dialect = inner.written p.dialect)
    (hrepeats : e.repeatsList p.dialect = inner.repeatsList p.dialect)
    (hends : e.endsInList p.dialect = inner.endsInList p.dialect) : Reads table p e := by
  rw [Reads, Expr.isBareHead_congr hwritten, Expr.refusesPoint_congr hwritten,
    Expr.layout_congr hwritten, hrepeats, hends]
  exact h

/-- What is read of an expression is a target if it stands without parentheses before arguments. -/
theorem reads_layout (p : Place) : (e : Expr) → Reads table p e
  | .number value => fun hbare _ _ _ => by
      have hpositive : 0 ≤ value := Expr.nonneg_of_isBareHead rfl hbare
      have hlayout : (Expr.number value).layout p = [.digits value.toInt.toNat false] :=
        if_neg (Int32.not_lt.mpr hpositive)
      rw [hlayout]
      exact .digits _ false
  | .string value => fun _ _ _ _ => .literal value
  | .boolean true => fun _ _ _ _ => .word "true" rfl (by decide) (by decide) (by decide)
  | .boolean false => fun _ _ _ _ => .word "false" rfl (by decide) (by decide) (by decide)
  | .null => fun _ _ _ _ => .word "null" rfl (by decide) (by decide) (by decide)
  | .undefined => fun _ _ _ _ => .word "undefined" rfl (by decide) (by decide) (by decide)
  | .unary _ _ => .of_weak (by decide : ¬Strength.callMember ≤ Strength.unary)
  | .binary op _ _ => by
      have hweak : ¬Strength.callMember ≤ op.strength := by cases op <;> decide
      exact .of_weak hweak
  | .conditional _ _ _ => .of_weak (by decide : ¬Strength.callMember ≤ Strength.conditional)
  | .lambda _ _ _ _ _ => .of_weak (by decide : ¬Strength.callMember ≤ Strength.lambdaOperand)
  | .array items => fun _ _ _ _ => .squared (Nested.listed (ArrayItem.allNested_layouts p items))
  | .object members => fun _ _ isFirst hstart => by
      have hseparator : Nested table [mark ",", space] := .of_isPlain (by decide)
      obtain ⟨inside, hinside, heq⟩ := Layout.exists_braced_eq hseparator
        (Member.allNested_layouts p members)
      rw [Expr.layout, heq] at hstart ⊢
      -- as the first thing of a statement its brace would open a block
      cases isFirst with
      | true => exact absurd (hstart rfl) (by simp [startWith])
      | false => exact .curly hinside
  | .reference n => fun _ _ _ _ => .name n rfl
  | .global n => fun _ _ _ _ => .qualified _ n
  | .imported path key => fun _ hresolved _ _ => by
      obtain ⟨n, hn⟩ := hresolved path List.mem_cons_self
      have hhead : (importOf path).text table = n.text := by
        rw [text_importOf, hn]
        rfl
      exact (Heads.name n hhead).memberAccess key
  | .get base property => fun _ hresolved _ hstart => by
      have ih := reads_layout p base
      cases hname : Layout.dottedName? property with
      | some key =>
          have hlayout : (Expr.get base property).layout p =
              Layout.memberBase p base true (base.layout p) ++ [mark ".", word key] := by
            rw [Expr.layout, Layout.get, hname]
          rw [hlayout] at hresolved hstart ⊢
          exact (ih.memberBase true hresolved.of_append hstart.of_append).dotted
            (Expr.eq_of_dottedName? hname).2
      | none =>
          have hlayout : (Expr.get base property).layout p =
              Layout.memberBase p base false (base.layout p) ++
                mark "[" :: (property.layout p ++ [mark "]"]) := by
            simp [Expr.layout, Layout.get, hname]
          rw [hlayout] at hresolved hstart ⊢
          exact (ih.memberBase false hresolved.of_append hstart.of_append).index
            (property.nested_layout p)
  | .call callee arguments => fun _ hresolved _ hstart =>
      ((reads_layout p callee).operand hresolved.of_append hstart.of_append).call
        (Nested.listed (Expr.allNested_layouts p arguments))
  | .new callee arguments => fun _ hresolved _ _ => by
      have hcallee : Resolved table (Layout.constructor p callee (callee.layout p)) :=
        hresolved.of_append.of_sublist (List.sublist_append_right _ _)
      -- after `new` the callee does not start the statement
      have hstart : MayStart false (Layout.constructor p callee (callee.layout p)) :=
        fun hfirst => absurd hfirst Bool.false_ne_true
      have hbare : (!(decide (callee.operandStrength p.dialect < .callMember) ||
          callee.hasCallInChain p.dialect)) =
            (callee.isBareHead p.dialect && !callee.hasCallInChain p.dialect) := by
        rw [callee.isBareHead_eq, Bool.not_or]
      have hconstructor := (reads_layout p callee).wrappedIf (fun hneeded => by
        rw [callee.isBareHead_eq, (Bool.or_eq_false_iff.mp hneeded).1]
        rfl) hcallee hstart
      rw [hbare] at hconstructor
      exact hconstructor.afterNew.call (Nested.listed (Expr.allNested_layouts p arguments))
  | .assertion e type => by
      cases hdialect : p.dialect with
      | typeScript =>
          refine .of_weak ?_
          rw [hdialect]
          exact (by decide : ¬Strength.callMember ≤ Strength.assertion)
      | javaScript =>
          refine (reads_layout p e).of_written ?_ ?_ ?_ <;> rw [hdialect] <;> rfl
  | .instantiation e arguments => by
      cases hdialect : p.dialect with
      | javaScript =>
          refine (reads_layout p e).of_written ?_ ?_ ?_ <;> rw [hdialect] <;> rfl
      | typeScript =>
          intro _ hresolved _ hstart
          have htypes : p.hasTypes = true := decide_eq_true hdialect
          rw [Expr.layout, if_pos htypes, Layout.applied] at hresolved hstart ⊢
          have hoperand := (reads_layout p e).operand hresolved.of_append hstart.of_append
          have hpoint : (!(Expr.instantiation e arguments).refusesPoint p.dialect) = false := by
            rw [hdialect]
            rfl
          have hrepeats : (Expr.instantiation e arguments).repeatsList p.dialect =
              (e.isBareHead p.dialect && (e.repeatsList p.dialect ||
                e.endsInList p.dialect && !arguments.isEmpty)) := by
            rw [hdialect]
            rfl
          have hends : (Expr.instantiation e arguments).endsInList p.dialect =
              (!arguments.isEmpty || e.isBareHead p.dialect && e.endsInList p.dialect) := by
            rw [hdialect]
            rfl
          rw [hpoint, hrepeats, hends]
          -- without arguments no list is written, and one that ends the head may still go on
          cases arguments with
          | nil =>
              rw [TypeExpr.layouts, Lexeme.angled, List.isEmpty_nil, if_pos rfl, List.append_nil]
              simpa using hoperand.weaken (Bool.false_le _)
          | cons argument arguments =>
              have hne : TypeExpr.layouts p (argument :: arguments) ≠ [] := List.cons_ne_nil _ _
              have hangled := hoperand.angled hne (TypeExpr.fluent_layouts p _)
              rw [← Bool.and_or_distrib_left] at hangled
              simpa using hangled.weaken (Bool.false_le _)

end Assignment

end EcmaWriter
