import EcmaWriter.Proofs.Identifier.Legality
import EcmaWriter.Proofs.Nesting.Layout
import EcmaWriter.Proofs.ObjectLiteral.Reader

/-!
# EcmaWriter - Nodes have no commas of their own

The commas of an expression are in its brackets, its strings and its type lists.  So a reader
that looks for the commas between members goes over the expression as a whole.  What is in
brackets and strings is passed over whatever it is.  What is left is gone over node by node,
and a type is gone over also where type lists are about to open, as the first of the type
arguments after a less-than sign is.

Main results:

- Theorem `TypeExpr.fluent_layout`: a type is gone over wherever it stands.
- Theorem `Expr.undivided_layout`: an expression is gone over as a whole.
-/

namespace EcmaWriter

/-! ## Lexemes -/

namespace Lexeme

variable {table : ImportTable}

/-- The characters of one lexeme are those of its text. -/
theorem characters_singleton (l : Lexeme) : characters table [l] = (l.text table).toList :=
  List.append_nil _

/-- The characters between two marks of one character each. -/
theorem characters_between {opening closing : String} {c d : Char} (hopening : opening.toList = [c])
    (hclosing : closing.toList = [d]) (ls : List Lexeme) :
    characters table (mark opening :: (ls ++ [mark closing])) =
      c :: (characters table ls ++ [d]) := by
  simp [text, spell, hopening, hclosing]

end Lexeme

open Lexeme

section Forms

variable {table : ImportTable} {ls ms : List Lexeme} {pieces : List (List Lexeme)}

/-! ### Names and literals -/

/-- No character of a name separates members or opens anything. -/
theorem isQuiet_of_isIdentifierPart {c : Char} (h : isIdentifierPart c = true) :
    isQuiet c = true := by
  have hnone : separators.any isIdentifierPart = false := by decide
  rw [isQuiet, isInert_of_isIdentifierPart h, Bool.true_and, isOrdinary, Bool.not_eq_true',
    ← Bool.not_eq_true, List.contains_iff_mem]
  intro hmem
  exact absurd h (List.any_eq_false.mp hnone c hmem)

/-- A property name that can stand bare is quiet all along. -/
theorem all_isQuiet_of_isPropertyName {text : String} (h : isPropertyName text = true) :
    text.toList.all isQuiet = true := by
  rw [isPropertyName] at h
  cases hcs : text.toList with
  | nil => rfl
  | cons c cs =>
      rw [hcs, hasIdentifierShape, Bool.and_eq_true] at h
      have hstart := (Identifier.isIdentifierPart_of_isIdentifierStart h.1).1
      rw [List.all_cons, isQuiet_of_isIdentifierPart hstart, Bool.true_and, List.all_eq_true]
      intro d hd
      exact isQuiet_of_isIdentifierPart (List.all_eq_true.mp h.2 d hd)

/-- A property name is gone over wherever it stands. -/
theorem Fluent.propertyName {text : String} (h : isPropertyName text = true) :
    Fluent text.toList := by
  refine .of_isQuiet ?_ (all_isQuiet_of_isPropertyName h)
  intro hempty
  rw [isPropertyName, hempty] at h
  exact absurd h Bool.false_ne_true

/-- Every identifier has the shape of a property name. -/
theorem Fluent.identifier (n : Identifier) : Fluent n.text.toList :=
  .propertyName n.isPropertyName

/-- A word with the shape of a name is gone over wherever it stands. -/
theorem Fluent.word {text : String} (h : isPropertyName text = true) :
    Fluent (characters table [Lexeme.word text]) := by
  rw [characters_singleton]
  exact .propertyName h

/-- A name among the lexemes is gone over wherever it stands. -/
theorem Fluent.name (n : Identifier) : Fluent (characters table [Layout.name n]) :=
  .word n.isPropertyName

/-- A literal keeps its commas between its quotes. -/
theorem Fluent.literal (value : String) : Fluent (characters table [literal value]) := by
  rw [characters_singleton]
  exact .stringLiteral value

/-- A lexeme before a space. -/
theorem Steady.spacedAfter {l : Lexeme} (h : Steady (l.text table).toList) :
    Steady (characters table [l, space]) := by
  have hspace : space.text table = " " := rfl
  rw [characters_cons, characters_singleton, hspace]
  exact h.append steady_space

/-- A lexeme between two spaces. -/
theorem Steady.spaced {l : Lexeme} (h : Steady (l.text table).toList) :
    Steady (characters table [space, l, space]) := by
  have hspace : space.text table = " " := rfl
  rw [characters_cons, hspace]
  exact steady_space.append h.spacedAfter

/-- A point before a name. -/
theorem Fluent.dotted {text : String} (h : isPropertyName text = true) :
    Fluent (characters table [mark ".", Lexeme.word text]) := by
  have hdot : Fluent ['.'] := .of_isQuiet (by decide) (by decide)
  have htext : characters table [mark ".", Lexeme.word text] = ['.'] ++ text.toList := by
    simp [Lexeme.text, spell]
  rw [htext]
  exact hdot.append (Fluent.propertyName h).steady

/-- A built-in name is gone over, also after the global object. -/
theorem Fluent.qualified (hidden : Bool) (n : Identifier) :
    Fluent (Lexeme.qualified hidden n).toList := by
  cases hidden with
  | false => exact .identifier n
  | true =>
      have hglobal : Fluent "globalThis.".toList := .of_isQuiet (by decide) (by decide)
      have htext : (Lexeme.qualified true n).toList = "globalThis.".toList ++ n.text.toList := by
        simp [Lexeme.qualified]
      rw [htext]
      exact hglobal.append (Fluent.identifier n).steady

/-- Digits are gone over, also with the point that keeps a number from the point of a member. -/
theorem Fluent.digits (value : Nat) (pointed : Bool) :
    Fluent ((Lexeme.digits value pointed).text table).toList := by
  have hquiet : (toString value).toList.all isQuiet = true := by
    rw [Nat.toString_eq_repr, Nat.toList_repr, List.all_eq_true]
    intro c hc
    have hdigit : c.isDigit = true := Nat.isDigit_of_mem_toDigits (by decide) (by decide) hc
    exact isQuiet_of_isIdentifierPart (Identifier.isIdentifierPart_of_isDigit hdigit)
  have hne : (toString value).toList ≠ [] := by
    rw [Nat.toString_eq_repr, Nat.toList_repr]
    exact Nat.toDigits_ne_nil
  have hdigits : Fluent (toString value).toList := .of_isQuiet hne hquiet
  cases pointed with
  | false => exact hdigits
  | true =>
      have hpoint : Fluent ['.'] := .of_isQuiet (by decide) (by decide)
      have htext : ((Lexeme.digits value true).text table).toList =
          (toString value).toList ++ ['.'] := by
        simp [Lexeme.text, spell]
      rw [htext]
      exact hdigits.append hpoint.steady

/-! ### Brackets -/

/-- What is in parentheses is passed over whatever it is. -/
theorem Fluent.parenthesized (h : Nested table ls) :
    Fluent (characters table (Lexeme.parenthesized ls)) := by
  have htext : characters table (Lexeme.parenthesized ls) = '(' :: (characters table ls ++ [')']) :=
    characters_between rfl rfl ls
  rw [htext]
  exact .bracketed rfl h

/-- What is in square brackets is passed over as well. -/
theorem Fluent.squared (h : Nested table ls) :
    Fluent (characters table (mark "[" :: (ls ++ [mark "]"]))) := by
  rw [characters_between rfl rfl]
  exact .bracketed rfl h

/-- What is in curly brackets is passed over as well. -/
theorem Fluent.curly (h : Nested table ls) :
    Fluent (characters table (mark "\x7b" :: (ls ++ [mark "\x7d"]))) := by
  rw [characters_between rfl rfl]
  exact .bracketed rfl h

/-- A text that may be in parentheses has to be nested for them and gone over without them. -/
theorem Fluent.wrappedIf (needed : Bool) (hnested : Nested table ls)
    (h : Fluent (characters table ls)) :
    Fluent (characters table (Lexeme.wrappedIf needed ls)) := by
  cases needed with
  | false => exact h
  | true => exact .parenthesized hnested

/-- Parentheses hide the commas of a text that may be in them. -/
theorem Undivided.wrappedIf (needed : Bool) (hnested : Nested table ls)
    (h : Undivided (characters table ls)) :
    Undivided (characters table (Lexeme.wrappedIf needed ls)) := by
  cases needed with
  | false => exact h
  | true => exact (Fluent.parenthesized hnested).undivided

/-- The arrow of a function is not the end of a type list. -/
theorem steady_arrow : Steady (characters table [space, mark "=>", space]) := by
  have hmark : Steady "=>".toList := fun _ => rfl
  exact .spaced hmark

/-! ### Lists -/

/-- Pieces that are gone over, with separators that leave the reader where it is. The list of
pieces starts where type lists may be about to open, so the first piece opens them. -/
theorem run_separated {separator : List Lexeme} {lists : Nat}
    (hseparator : (Cursor.outside 0 lists).run (characters table separator) =
      some (Cursor.outside 0 lists))
    (hne : pieces ≠ []) (h : ∀ ls ∈ pieces, Fluent (characters table ls)) {pending inner : Nat}
    (hlists : inner + pending = lists) :
    (Cursor.outside pending inner).run (characters table (Lexeme.separated separator pieces)) =
      some (Cursor.outside 0 lists) := by
  induction pieces generalizing pending inner with
  | nil => exact absurd rfl hne
  | cons ls pieces ih =>
      rw [List.forall_mem_cons] at h
      have hls := h.1 pending inner
      rw [hlists] at hls
      cases pieces with
      | nil => exact hls
      | cons ms pieces =>
          rw [Lexeme.separated, characters_append, characters_append, List.append_assoc,
            Cursor.run_append_of_eq hls, Cursor.run_append_of_eq hseparator]
          · exact ih (List.cons_ne_nil ms pieces) h.2 rfl
          · exact List.cons_ne_nil ms pieces

/-- Fluent pieces with steady separators are fluent if there is a piece. -/
theorem Fluent.separated {separator : List Lexeme}
    (hseparator : Steady (characters table separator)) (hne : pieces ≠ [])
    (h : ∀ ls ∈ pieces, Fluent (characters table ls)) :
    Fluent (characters table (Lexeme.separated separator pieces)) :=
  fun _ _ => run_separated (hseparator _) hne h rfl

/-- A type list that is not empty. Its commas are inside of it. -/
theorem Fluent.angled (hne : pieces ≠ []) (h : ∀ ls ∈ pieces, Fluent (characters table ls)) :
    Fluent (characters table (Lexeme.angled pieces)) := by
  intro pending lists
  have htext : characters table (Lexeme.angled pieces) =
      '<' :: (characters table (Lexeme.listed pieces) ++ ['>']) := by
    have hempty : pieces.isEmpty = false := List.isEmpty_eq_false_iff.mpr hne
    rw [Lexeme.angled, hempty]
    exact characters_between rfl rfl (Lexeme.listed pieces)
  have hopen : (Cursor.outside pending lists).advance '<' =
      some (Cursor.outside (pending + 1) lists) := rfl
  have hcomma : (Cursor.outside 0 (lists + pending + 1)).run
      (characters table [mark ",", space]) = some (Cursor.outside 0 (lists + pending + 1)) := by
    simpa [Lexeme.text, spell] using Cursor.run_comma (lists + pending)
  have hclose : (Cursor.outside 0 (lists + pending + 1)).run ['>'] =
      some (Cursor.outside 0 (lists + pending)) := rfl
  have hinside := run_separated hcomma hne h (Nat.add_assoc lists pending 1).symm
  rw [htext, Cursor.run_cons, hopen, Option.bind_some, Lexeme.listed,
    Cursor.run_append_of_eq hinside, hclose]

/-- A type list may also be empty, and then nothing is written. -/
theorem Steady.angled (h : ∀ ls ∈ pieces, Fluent (characters table ls)) :
    Steady (characters table (Lexeme.angled pieces)) := by
  by_cases hne : pieces = []
  · subst hne
    exact .nil
  · exact (Fluent.angled hne h).steady

/-! ### Forms of the layout -/

/-- Members in curly brackets are gone over wherever they stand. -/
theorem Fluent.braced {separator : List Lexeme} (hseparator : Nested table separator)
    (h : AllNested table pieces) : Fluent (characters table (Layout.braced separator pieces)) := by
  obtain ⟨inside, hinside, heq⟩ := Layout.exists_braced_eq hseparator h
  rw [heq]
  exact .curly hinside

/-- Lines in curly brackets are gone over wherever they stand. -/
theorem Fluent.lines (p : Place) (h : AllNested table pieces) :
    Fluent (characters table (Layout.lines p pieces)) := by
  obtain ⟨inside, hinside, heq⟩ := Layout.exists_lines_eq p h
  rw [heq]
  exact .curly hinside

/-- A block is gone over wherever it stands. -/
theorem Fluent.block (p : Place) (h : AllNested table pieces) :
    Fluent (characters table (Layout.block p pieces)) := by
  refine .lines p ?_
  intro ls hls
  rcases List.mem_map.mp hls with ⟨ms, hms, rfl⟩
  exact .cons rfl (h ms hms)

/-- Members of an object type on lines of their own are gone over as one. -/
theorem Fluent.memberLines (p : Place) (members : List MemberType) (h : AllNested table pieces) :
    Fluent (characters table (Layout.memberLines p members pieces)) := by
  refine .lines p ?_
  intro ls hls
  rcases List.mem_map.mp hls with ⟨⟨m, ms⟩, hzip, rfl⟩
  exact ((Layout.nested_memberHead p m.document).append (h ms (List.of_mem_zip hzip).2)).append
    (.of_isPlain (by decide))

/-- A number is gone over, with its sign or without. -/
theorem Fluent.number (value : Int32) : Fluent (characters table (Layout.number value)) := by
  have hminus : Fluent ['-'] := .of_isQuiet (by decide) (by decide)
  rw [Layout.number]
  split
  · have htext : characters table [mark "-", Lexeme.digits value.toInt.natAbs false] =
        ['-'] ++ ((Lexeme.digits value.toInt.natAbs false).text table).toList := by
      simp [Lexeme.text, spell]
    rw [htext]
    exact hminus.append (Fluent.digits _ false).steady
  · rw [characters_singleton]
    exact .digits _ false

/-- The access to a member is gone over, by a point or in square brackets. -/
theorem Fluent.memberAccess (key : String) :
    Fluent (characters table (Layout.memberAccess key)) := by
  rw [Layout.memberAccess]
  split
  · exact .dotted ‹_›
  · exact .squared (.cons rfl .nil)

/-- No operator before its operand is a comma. -/
theorem Undivided.unary (p : Place) (op : UnaryOperator) (e : Expr) (hnested : Nested table ls)
    (h : Undivided (characters table ls)) :
    Undivided (characters table (Layout.unary p op e ls)) := by
  have hop : Undivided (characters table (Layout.unaryOperator op)) := by
    cases op <;> simp [Layout.unaryOperator, Lexeme.text, spell] <;> exact rfl
  rw [Layout.unary, characters_append]
  exact hop.append (h.wrappedIf _ hnested)

/-- No operator between operands is a comma, and a less-than sign before a space opens no list. -/
theorem Undivided.binary (p : Place) (op : BinaryOperator) (left right : Expr)
    (hnested : Nested table ls) (h : Undivided (characters table ls)) (hnested' : Nested table ms)
    (h' : Undivided (characters table ms)) :
    Undivided (characters table (Layout.binary p op left right ls ms)) := by
  have hop : Undivided (characters table [space, mark op.mark, space]) := by
    simp only [characters_cons, Lexeme.text, spell]
    cases op <;> exact rfl
  rw [Layout.binary, characters_append, characters_append]
  exact ((h.wrappedIf _ hnested).append hop).append (h'.wrappedIf _ hnested')

/-- The left side of a member access has no commas of its own, in each of its forms. -/
theorem Undivided.memberBase (p : Place) (base : Expr) (dotted : Bool) (hnested : Nested table ls)
    (h : Undivided (characters table ls)) :
    Undivided (characters table (Layout.memberBase p base dotted ls)) := by
  rw [Layout.memberBase]
  split
  · split
    · rw [characters_singleton]
      exact (Fluent.digits _ true).undivided
    · exact h.wrappedIf _ hnested
  · exact (Fluent.parenthesized hnested).undivided
  · exact h.wrappedIf _ hnested

/-- A member access has no commas: its property is a name or in square brackets. -/
theorem Undivided.get (p : Place) (base property : Expr) (hnested : Nested table ls)
    (h : Undivided (characters table ls)) (hproperty : Nested table ms) :
    Undivided (characters table (Layout.get p base property ls ms)) := by
  rw [Layout.get]
  split
  · rename_i key hkey
    have hname : isPropertyName key = true := by
      cases property <;> simp [Layout.dottedName?] at hkey
      exact hkey.2 ▸ hkey.1
    rw [characters_append]
    exact (Undivided.memberBase p base true hnested h).append (Fluent.dotted hname).undivided
  · rw [List.append_assoc, characters_append]
    exact (Undivided.memberBase p base false hnested h).append (Fluent.squared hproperty).undivided

/-- Text that is only written with types stays steady. -/
theorem Steady.typed (p : Place) (h : Steady (characters table ls)) :
    Steady (characters table (Layout.typed p ls)) := by
  rw [Layout.typed]
  split
  · exact h
  · exact .nil

/-- A type after its colon is steady. -/
theorem Steady.annotated (p : Place) {type : Option (List Lexeme)}
    (h : ∀ ls ∈ type, Fluent (characters table ls)) :
    Steady (characters table (Layout.annotation p type)) := by
  cases type with
  | none => exact .nil
  | some ls =>
      have hmark : Steady ":".toList := fun _ => rfl
      have hcolon : Steady (characters table [mark ":", space]) := .spacedAfter hmark
      have hls : Steady (characters table ([mark ":", space] ++ ls)) := by
        rw [characters_append]
        exact hcolon.append (h ls rfl).steady
      exact .typed p hls

/-- A type parameter is gone over also at the start of a list, as the first one is. -/
theorem Fluent.typeParameter (n : Identifier) (h : Fluent (characters table ls)) :
    Fluent (characters table (Layout.typeParameter n ls)) := by
  have hword : Fluent "extends".toList := .propertyName (by decide)
  have hextends : Steady (characters table [space, Lexeme.word "extends", space]) :=
    .spaced hword.steady
  have htext : characters table (Layout.typeParameter n ls) =
      n.text.toList ++
        (characters table [space, Lexeme.word "extends", space] ++ characters table ls) := by
    simp [Layout.typeParameter, Layout.name, Lexeme.text, spell]
  rw [htext]
  exact (Fluent.identifier n).append (hextends.append h.steady)

/-- A function has its commas in its type list and in its parentheses. -/
theorem Undivided.function (p : Place) (isAsync : Bool)
    {typeParameters parameters : List (List Lexeme)} {returnType : Option (List Lexeme)}
    (htypes : ∀ ls ∈ typeParameters, Fluent (characters table ls))
    (hparameters : AllNested table parameters)
    (hreturn : ∀ ls ∈ returnType, Fluent (characters table ls))
    (hbody : Undivided (characters table ls)) :
    Undivided (characters table
      (Layout.function p isAsync typeParameters parameters returnType ls)) := by
  have hasync : Undivided (characters table (if isAsync then [word "async", space] else [])) := by
    cases isAsync <;> simp [Lexeme.text, spell] <;> exact rfl
  have harrow : Steady (characters table [space, mark "=>", space]) := steady_arrow
  have hlist := Fluent.parenthesized (Nested.listed hparameters)
  simp only [Layout.function, characters_append]
  have htypeList := Steady.typed p (.angled htypes)
  exact ((((hasync.append htypeList.undivided).append hlist.undivided).append
    (Steady.annotated p hreturn).undivided).append harrow.undivided).append hbody

/-- A type with its arguments is gone over: the commas are inside of the type list. -/
theorem Fluent.applied (h : Fluent (characters table ls))
    (h' : ∀ ls ∈ pieces, Fluent (characters table ls)) :
    Fluent (characters table (Layout.applied ls pieces)) := by
  rw [Layout.applied, characters_append]
  exact h.append (.angled h')

/-- A type of a union or an intersection is gone over, wrapped or not. -/
theorem Fluent.constituent (inIntersection : Bool) (t : TypeExpr) (hnested : Nested table ls)
    (h : Fluent (characters table ls)) :
    Fluent (characters table (Layout.constituent inIntersection t ls)) := by
  unfold Layout.constituent
  split
  · exact .parenthesized hnested
  · exact h.wrappedIf _ hnested
  · exact h

/-- A function type starts with a type list or with a parenthesis. -/
theorem Fluent.functionType {parameters : List (List Lexeme)}
    (htypes : ∀ ls ∈ pieces, Fluent (characters table ls))
    (hparameters : AllNested table parameters) (h : Fluent (characters table ls)) :
    Fluent (characters table (Lexeme.angled pieces ++
      Lexeme.parenthesized (Lexeme.listed parameters) ++ [space, mark "=>", space] ++ ls)) := by
  have hlist := Fluent.parenthesized (Nested.listed hparameters)
  have hhead : Fluent (characters table (Lexeme.angled pieces) ++
      characters table (Lexeme.parenthesized (Lexeme.listed parameters))) := by
    by_cases hne : pieces = []
    · subst hne
      exact hlist
    · exact (Fluent.angled hne htypes).append hlist.steady
  simp only [characters_append]
  exact (hhead.append steady_arrow).append h.steady

/-- The namespace of a module before what is taken of it. -/
theorem Fluent.importOf (path : String) {cs : List Char} (h : Fluent cs) :
    Fluent (((Lexeme.importOf path).text table).toList ++ cs) := by
  rw [text_importOf]
  cases table.find? path with
  | none => exact h
  | some n => exact (Fluent.identifier n).append h.steady

/-- The names of a path are gone over, with the name at its end. -/
theorem Fluent.segments (path : List Identifier) (n : Identifier) :
    Fluent (characters table (Layout.segments path ++ [Layout.name n])) := by
  induction path with
  | nil => exact .name n
  | cons q path ih =>
      have hpoint : Steady ['.'] := fun _ => rfl
      have htext : characters table (Layout.segments (q :: path) ++ [Layout.name n]) =
          q.text.toList ++ (['.'] ++
            characters table (Layout.segments path ++ [Layout.name n])) := by
        simp [Layout.segments, Layout.name, Lexeme.text, spell]
      rw [htext]
      exact (Fluent.identifier q).append (hpoint.append ih.steady)

end Forms

/-! ## Nodes -/

section Nodes

variable {table : ImportTable}

mutual

/-- A type is gone over wherever it stands. -/
theorem TypeExpr.fluent_layout (p : Place) :
    (t : TypeExpr) → Fluent (characters table (t.layout p))
  | .number | .string | .boolean | .undefined | .null | .never | .void | .unknown =>
      .word (by decide)
  | .uniqueSymbol => by
      have hunique : Fluent "unique".toList := .propertyName (by decide)
      have hsymbol : Fluent "symbol".toList := .propertyName (by decide)
      have htext : characters table (TypeExpr.uniqueSymbol.layout p) =
          "unique".toList ++ ([' '] ++ "symbol".toList) := by
        simp [TypeExpr.layout, Lexeme.text, spell]
      rw [htext]
      exact hunique.append (steady_space.append hsymbol.steady)
  | .object members => by
      rw [TypeExpr.layout]
      split
      · exact .braced (.of_isPlain (by decide)) (MemberType.allNested_layouts p members)
      · exact .memberLines p members (MemberType.allNested_layouts p.deeper members)
  | .function typeParameters parameters result =>
      .functionType (TypeParameter.fluent_layouts _ typeParameters)
        (Layout.allNested_functionTypeParameters (TypeExpr.allNested_layouts _ parameters))
        (result.fluent_layout _)
  | .union types => by
      have hmark : Steady "|".toList := fun _ => rfl
      rw [TypeExpr.layout]
      split
      · exact .word (by decide)
      · rename_i hne
        refine .separated (.spaced hmark) ?_ (TypeExpr.fluent_constituents p types)
        cases types with
        | nil => exact absurd rfl hne
        | cons t ts => exact List.cons_ne_nil _ _
  | .intersection left right => by
      have hmark : Steady "&".toList := fun _ => rfl
      have hand : Steady (characters table [space, mark "&", space]) := .spaced hmark
      rw [TypeExpr.layout, characters_append, characters_append]
      exact ((Fluent.constituent true left (left.nested_layout p) (left.fluent_layout p)).append
        hand).append
          (Fluent.constituent true right (right.nested_layout p) (right.fluent_layout p)).steady
  | .imported path n arguments =>
      .applied (.importOf path (.dotted n.isPropertyName)) (TypeExpr.fluent_layouts p arguments)
  | .inFile n arguments => .applied (.name n) (TypeExpr.fluent_layouts p arguments)
  | .global n arguments => by
      refine .applied ?_ (TypeExpr.fluent_layouts p arguments)
      rw [characters_singleton]
      exact .qualified _ n
  | .namespaced path n arguments =>
      .applied (.segments path n) (TypeExpr.fluent_layouts p arguments)
  | .stringLiteral value => .literal value

/-- A type that may be left out is gone over if it is there. -/
theorem TypeExpr.fluent_optionLayout (p : Place) :
    (t : Option TypeExpr) → ∀ ls ∈ TypeExpr.optionLayout p t, Fluent (characters table ls)
  | none => fun _ h => nomatch h
  | some t => fun _ h => Option.some.inj h ▸ t.fluent_layout p

/-- Each of some types is gone over. -/
theorem TypeExpr.fluent_layouts (p : Place) :
    (ts : List TypeExpr) → ∀ ls ∈ TypeExpr.layouts p ts, Fluent (characters table ls)
  | [] => List.forall_mem_nil _
  | t :: ts => List.forall_mem_cons.mpr ⟨t.fluent_layout p, TypeExpr.fluent_layouts p ts⟩

/-- Each type of a union is gone over, wrapped or not. -/
theorem TypeExpr.fluent_constituents (p : Place) :
    (ts : List TypeExpr) → ∀ ls ∈ TypeExpr.constituents p ts, Fluent (characters table ls)
  | [] => List.forall_mem_nil _
  | t :: ts =>
      List.forall_mem_cons.mpr
        ⟨.constituent false t (t.nested_layout p) (t.fluent_layout p),
          TypeExpr.fluent_constituents p ts⟩

/-- Each type parameter is gone over, with its constraint. -/
theorem TypeParameter.fluent_layouts (p : Place) :
    (parameters : List TypeParameter) →
      ∀ ls ∈ TypeParameter.layouts p parameters, Fluent (characters table ls)
  | [] => List.forall_mem_nil _
  | ⟨n, constraint⟩ :: parameters => by
      have hconstraint := TypeExpr.fluent_optionLayout p constraint
      refine List.forall_mem_cons.mpr
        ⟨.typeParameter n ?_, TypeParameter.fluent_layouts p parameters⟩
      cases htext : TypeExpr.optionLayout p constraint with
      | none => exact .word (by decide)
      | some text => exact hconstraint text htext

end

mutual

/-- An expression is gone over as a whole. -/
theorem Expr.undivided_layout (p : Place) : (e : Expr) → Undivided (characters table (e.layout p))
  | .number value => (Fluent.number value).undivided
  | .string value => (Fluent.literal value).undivided
  | .boolean value => by
      cases value <;> exact (Fluent.word (by decide)).undivided
  | .null | .undefined => (Fluent.word (by decide)).undivided
  | .unary op e => .unary p op e (e.nested_layout p) (e.undivided_layout p)
  | .binary op left right =>
      .binary p op left right (left.nested_layout p) (left.undivided_layout p)
        (right.nested_layout p) (right.undivided_layout p)
  | .conditional condition thenExpr elseExpr => by
      have hquestion : Steady "?".toList := fun _ => rfl
      have hcolon : Steady ":".toList := fun _ => rfl
      have hthen : Steady (characters table [space, mark "?", space]) := .spaced hquestion
      have helse : Steady (characters table [space, mark ":", space]) := .spaced hcolon
      have hcondition := (condition.undivided_layout p).wrappedIf
        (condition.operandStrength p.dialect < .conditional + 1) (condition.nested_layout p)
      simp only [Expr.layout, Layout.operand, characters_append]
      exact (((hcondition.append hthen.undivided).append
        ((thenExpr.undivided_layout p).wrappedIf _ (thenExpr.nested_layout p))).append
          helse.undivided).append
            ((elseExpr.undivided_layout p).wrappedIf _ (elseExpr.nested_layout p))
  | .array items => (Fluent.squared (Nested.listed (ArrayItem.allNested_layouts p items))).undivided
  | .object members =>
      (Fluent.braced (.of_isPlain (by decide)) (Member.allNested_layouts p members)).undivided
  | .lambda isAsync typeParameters parameters returnType body =>
      .function p isAsync (TypeParameter.fluent_layouts _ typeParameters)
        (Parameter.allNested_layouts _ parameters) (TypeExpr.fluent_optionLayout _ returnType)
        (Statement.undivided_functionBody _ body)
  | .reference n => (Fluent.name n).undivided
  | .global n => by
      rw [Expr.layout, characters_singleton]
      exact (Fluent.qualified _ n).undivided
  | .imported path key => (Fluent.importOf path (.memberAccess key)).undivided
  | .get base property =>
      .get p base property (base.nested_layout p) (base.undivided_layout p)
        (property.nested_layout p)
  | .call callee arguments => by
      rw [Expr.layout, characters_append]
      exact ((callee.undivided_layout p).wrappedIf _ (callee.nested_layout p)).append
        (Fluent.parenthesized (Nested.listed (Expr.allNested_layouts p arguments))).undivided
  | .new callee arguments => by
      have hword : Fluent "new".toList := .propertyName (by decide)
      have hnew : Steady (characters table [word "new", space]) := .spacedAfter hword.steady
      rw [Expr.layout, characters_append, characters_append]
      exact (hnew.undivided.append
        ((callee.undivided_layout p).wrappedIf _ (callee.nested_layout p))).append
          (Fluent.parenthesized (Nested.listed (Expr.allNested_layouts p arguments))).undivided
  | .assertion e type => by
      have hword : Fluent "as".toList := .propertyName (by decide)
      have has : Steady (characters table [space, word "as", space]) := .spaced hword.steady
      have he := e.undivided_layout p
      rw [Expr.layout]
      split
      · rw [characters_append, characters_append]
        exact ((he.wrappedIf _ (e.nested_layout p)).append has.undivided).append
          (type.fluent_layout p).undivided
      · exact he
  | .instantiation e arguments => by
      have he := e.undivided_layout p
      rw [Expr.layout]
      split
      · rw [Layout.applied, characters_append]
        exact (he.wrappedIf _ (e.nested_layout p)).append
          (Steady.angled (TypeExpr.fluent_layouts p arguments)).undivided
      · exact he

/-- The body of a function is a block or an expression without commas. -/
theorem Statement.undivided_functionBody (p : Place) :
    (body : List Statement) → Undivided (characters table (Statement.functionBody p body))
  | [] => (Fluent.block p allNested_nil).undivided
  | s :: ss => by
      have hblock : Undivided (characters table
          (Layout.block p (Statement.layouts (p.enterBlock [] (s :: ss)) (s :: ss)))) :=
        (Fluent.block p (Statement.allNested_layouts _ (s :: ss))).undivided
      cases s with
      | returnValue e =>
          cases ss with
          | nil => exact (e.undivided_layout p).wrappedIf _ (e.nested_layout p)
          | cons s ss => exact hblock
      | _ => exact hblock

end

end Nodes

end EcmaWriter
