import EcmaWriter.Layout.Module
import EcmaWriter.Proofs.Lexeme.Spelling
import EcmaWriter.Proofs.Nesting.Reader

/-!
# EcmaWriter - Layouts are nested

The text of a list of lexemes is self-contained if all its brackets are put around lists
of which this holds.  All other lexemes are self-contained by themselves: words and marks
have no brackets, quotes or slashes in them, and literals and documents keep what they
hold to themselves.  Only the marks of the operators with a slash need the space after
them.

Every form of the layout puts nested lists together, and so whatever is laid out is nested,
in both dialects and with any import namespaces.

Main results:

- Definition `Lexeme.Nested`: lists of lexemes with self-contained text.
- Theorems `Expr.nested_layout`, `TypeExpr.nested_layout`, `Statement.nested_layout`:
  nodes are nested.
- Theorem `Definition.nested_layout?`: definitions are nested.
-/

namespace EcmaWriter

/-! ## Lexemes -/

namespace Lexeme

/-- Whether a lexeme is self-contained by itself. Comments depend on their body. -/
def isPlain : Lexeme → Bool
  | word text => text.toList.all isInert
  | mark text => text.toList.all isInert
  | comment _ => false
  | _ => true

/-- A path that the table does not have leaves no text. -/
theorem text_importOf (table : ImportTable) (path : String) :
    (importOf path).text table = ((table.find? path).map Identifier.text).getD "" := by
  simp only [text, spell]
  cases table.find? path <;> rfl

/-- A built-in name has no brackets, quotes or slashes, also after the global object. -/
theorem selfContained_qualified (hidden : Bool) (n : Identifier) :
    SelfContained (qualified hidden n).toList := by
  refine .of_isInert ?_
  cases hidden with
  | false => exact n.all_isInert
  | true =>
      have htext : (qualified true n).toList = "globalThis.".toList ++ n.text.toList := by
        simp [qualified]
      rw [htext, List.all_append, n.all_isInert]
      decide

/-- The text of a plain lexeme is self-contained, whatever it holds. -/
theorem selfContained_text {l : Lexeme} (h : l.isPlain = true) (table : ImportTable) :
    SelfContained (l.text table).toList := by
  cases l with
  | word text => exact .of_isInert h
  | mark text => exact .of_isInert h
  | digits value pointed =>
      have hdigits : (toString value).toList.all isInert = true := by
        rw [Nat.toString_eq_repr, Nat.toList_repr]
        exact all_isInert_toDigits value
      refine .of_isInert ?_
      cases pointed with
      | false => exact hdigits
      | true =>
          have htext : ((digits value true).text table).toList =
              (toString value).toList ++ ['.'] := by
            simp [text, spell]
          rw [htext, List.all_append, hdigits]
          decide
  | literal value => exact selfContained_stringLiteral value
  | space =>
      have hinert : " ".toList.all isInert = true := by decide
      exact .of_isInert hinert
  | newline =>
      have hinert : "\n".toList.all isInert = true := by decide
      exact .of_isInert hinert
  | indent level => exact selfContained_indentation level
  | comment body => exact absurd h Bool.false_ne_true
  | document level text => exact selfContained_documentBlock level text
  | importOf path =>
      rw [text_importOf]
      cases table.find? path with
      | none => exact .nil
      | some n => exact .of_isInert n.all_isInert
  | globalValue hidden n => exact selfContained_qualified hidden n
  | globalType hidden n => exact selfContained_qualified hidden n

/-- The text of a list of lexemes is self-contained. -/
def Nested (table : ImportTable) (ls : List Lexeme) : Prop :=
  SelfContained (ls.flatMap fun l => (l.text table).toList)

/-- Each of some pieces is nested. -/
def AllNested (table : ImportTable) (pieces : List (List Lexeme)) : Prop :=
  ∀ ls ∈ pieces, Nested table ls

variable {table : ImportTable} {ls ms : List Lexeme} {pieces : List (List Lexeme)}

namespace Nested

/-- Nothing is nested. -/
@[simp] theorem nil : Nested table [] :=
  SelfContained.nil

/-- Nested lists one after the other are nested. -/
theorem append (h : Nested table ls) (h' : Nested table ms) : Nested table (ls ++ ms) := by
  rw [Nested, List.flatMap_append]
  exact SelfContained.append h h'

/-- A plain lexeme does not disturb what comes after it. -/
theorem cons {l : Lexeme} (hl : l.isPlain = true) (h : Nested table ls) :
    Nested table (l :: ls) :=
  SelfContained.append (selfContained_text hl table) h

/-- Plain lexemes are nested in any order. -/
theorem of_isPlain (h : ls.all isPlain = true) : Nested table ls := by
  induction ls with
  | nil => exact nil
  | cons l ls ih =>
      rw [List.all_cons, Bool.and_eq_true] at h
      exact cons h.1 (ih h.2)

/-- A nested list between two marks that are a pair of brackets. -/
theorem between {opening closing : String} {c d : Char} (hopening : opening.toList = [c])
    (hclosing : closing.toList = [d]) (hpair : closing? c = some d) (h : Nested table ls) :
    Nested table (mark opening :: (ls ++ [mark closing])) := by
  have htext : (mark opening :: (ls ++ [mark closing])).flatMap
      (fun l => (l.text table).toList) =
        c :: (ls.flatMap (fun l => (l.text table).toList) ++ [d]) := by
    simp [text, spell, hopening, hclosing]
  rw [Nested, htext]
  exact SelfContained.bracketed hpair h

/-- Parentheses are a pair of brackets. -/
theorem parenthesized (h : Nested table ls) : Nested table (Lexeme.parenthesized ls) :=
  h.between rfl rfl rfl

/-- Square brackets are a pair. -/
theorem squared (h : Nested table ls) : Nested table (mark "[" :: (ls ++ [mark "]"])) :=
  h.between rfl rfl rfl

/-- Curly brackets are a pair. -/
theorem curly (h : Nested table ls) : Nested table (mark "\x7b" :: (ls ++ [mark "\x7d"])) :=
  h.between rfl rfl rfl

/-- Parentheses that may be left out keep a list nested. -/
theorem wrappedIf (needed : Bool) (h : Nested table ls) :
    Nested table (Lexeme.wrappedIf needed ls) := by
  cases needed with
  | false => exact h
  | true => exact h.parenthesized

/-- Nested pieces one after the other are nested. -/
theorem flatten (h : AllNested table pieces) : Nested table pieces.flatten := by
  induction pieces with
  | nil => exact nil
  | cons ls pieces ih =>
      rw [AllNested, List.forall_mem_cons] at h
      exact append h.1 (ih h.2)

/-- Nested pieces with something nested between them are nested. -/
theorem separated {separator : List Lexeme} (hseparator : Nested table separator)
    (h : AllNested table pieces) : Nested table (Lexeme.separated separator pieces) := by
  induction pieces with
  | nil => exact nil
  | cons ls pieces ih =>
      rw [AllNested, List.forall_mem_cons] at h
      cases pieces with
      | nil => exact h.1
      | cons ms pieces => exact (h.1.append hseparator).append (ih h.2)

/-- Nested pieces with commas between them are nested. -/
theorem listed (h : AllNested table pieces) : Nested table (Lexeme.listed pieces) :=
  separated (of_isPlain (by decide)) h

/-- A list in angle brackets is nested if its pieces are: these brackets are plain marks. -/
theorem angled (h : AllNested table pieces) : Nested table (Lexeme.angled pieces) := by
  rw [Lexeme.angled]
  split
  · exact nil
  · exact (cons (by decide) (listed h)).append (of_isPlain (by decide))

end Nested

@[simp] theorem allNested_nil : AllNested table [] :=
  List.forall_mem_nil _

@[simp] theorem allNested_cons :
    AllNested table (ls :: pieces) ↔ Nested table ls ∧ AllNested table pieces :=
  List.forall_mem_cons

end Lexeme

open Lexeme

/-! ## Forms of the layout -/

namespace Layout

variable {table : ImportTable} {ls ms : List Lexeme} {pieces : List (List Lexeme)}

/-- A name is plain. -/
@[simp] theorem isPlain_name (n : Identifier) : (name n).isPlain = true :=
  n.all_isInert

/-- The key of a property is plain: it is a name or a literal. -/
theorem isPlain_propertyKey (key : String) : (propertyKey key).isPlain = true := by
  rw [propertyKey]
  split
  · exact all_isInert_of_isPropertyName ‹_›
  · rfl

/-- A word without brackets, quotes and slashes is nested. -/
theorem nested_word {text : String} (h : text.toList.all isInert = true) :
    Nested table [word text] :=
  .cons h .nil

/-- A number is nested, with its sign or without. -/
theorem nested_number (value : Int32) : Nested table (number value) := by
  rw [number]
  split
  · exact .cons (by decide) (.cons rfl .nil)
  · exact .cons rfl .nil

/-- The access to a member is nested, by a point or in square brackets. -/
theorem nested_memberAccess (key : String) : Nested table (memberAccess key) := by
  rw [memberAccess]
  split
  · exact .cons (by decide) (.cons (all_isInert_of_isPropertyName ‹_›) .nil)
  · have hkey : Nested table [literal key] := .cons rfl .nil
    exact hkey.squared

/-- No operator before its operand has a slash. -/
theorem nested_unaryOperator (op : UnaryOperator) : Nested table (unaryOperator op) := by
  cases op <;> exact .of_isPlain (by decide)

/-- A mark is nested if its text is, together with the spaces around it. -/
theorem nested_spaced {text : String} (h : SelfContained (' ' :: (text.toList ++ [' ']))) :
    Nested table [space, mark text, space] := by
  have htext : [space, mark text, space].flatMap (fun l => (l.text table).toList) =
      ' ' :: (text.toList ++ [' ']) := by
    simp [Lexeme.text, spell]
  rw [Nested, htext]
  exact h

/-- The space after it keeps a slash from opening a comment. -/
theorem nested_binaryMark (op : BinaryOperator) :
    Nested table [space, mark op.mark, space] := by
  refine nested_spaced fun awaited => ?_
  cases op <;> rfl

/-- The assignment that divides has the same space after its slash. -/
theorem nested_assignmentMark (op : Option AssignmentOperator) :
    Nested table [space, mark (assignmentMark op), space] := by
  refine nested_spaced fun awaited => ?_
  rcases op with _ | op
  · rfl
  · cases op <;> rfl

/-- An operation with one operand is nested if the operand is. -/
theorem nested_unary (p : Place) (op : UnaryOperator) (e : Expr) (h : Nested table ls) :
    Nested table (unary p op e ls) :=
  (nested_unaryOperator op).append (h.wrappedIf _)

/-- An operation with two operands is nested if these are. -/
theorem nested_binary (p : Place) (op : BinaryOperator) (left right : Expr)
    (h : Nested table ls) (h' : Nested table ms) :
    Nested table (binary p op left right ls ms) :=
  ((h.wrappedIf _).append (nested_binaryMark op)).append (h'.wrappedIf _)

/-- The left side of a member access stays nested, wrapped or not. -/
theorem nested_memberBase (p : Place) (base : Expr) (dotted : Bool) (h : Nested table ls) :
    Nested table (memberBase p base dotted ls) := by
  rw [memberBase]
  split
  · split
    · exact .cons rfl .nil
    · exact h.wrappedIf _
  · exact h.parenthesized
  · exact h.wrappedIf _

/-- A member access is nested if both of its sides are; a key after a point is a name. -/
theorem nested_get (p : Place) (base property : Expr) (h : Nested table ls)
    (h' : Nested table ms) : Nested table (get p base property ls ms) := by
  rw [get]
  split
  · rename_i key hkey
    have hname : isPropertyName key = true := by
      cases property <;> simp [dottedName?] at hkey
      exact hkey.2 ▸ hkey.1
    exact (nested_memberBase p base true h).append
      (.cons (by decide) (.cons (all_isInert_of_isPropertyName hname) .nil))
  · rw [List.append_assoc]
    exact (nested_memberBase p base false h).append h'.squared

/-- A member of an object is nested in each of its forms. -/
theorem nested_keyValue (key value : Expr) (h : Nested table ls) (h' : Nested table ms) :
    Nested table (keyValue key value ls ms) := by
  have hkeyed : ∀ text, Nested table (propertyKey text :: [mark ":", space] ++ ms) := fun text =>
    .cons (isPlain_propertyKey text) (.cons (by decide) (.cons rfl h'))
  unfold keyValue
  split
  · rename_i text n
    split
    · rename_i hbare
      rw [Bool.and_eq_true, isBareName, Bool.and_eq_true] at hbare
      exact .cons (all_isInert_of_isPropertyName hbare.1.1) .nil
    · exact hkeyed text
  · exact hkeyed _
  · have hafter : Nested table ([mark ":", space] ++ ms) := .cons (by decide) (.cons rfl h')
    simpa using h.squared.append hafter

/-- Members in braces are what stands in them, in braces. -/
theorem exists_braced_eq {separator : List Lexeme} (hseparator : Nested table separator)
    (h : AllNested table pieces) : ∃ inside, Nested table inside ∧
      braced separator pieces = mark "\x7b" :: (inside ++ [mark "\x7d"]) := by
  rw [braced]
  split
  · exact ⟨[], .nil, rfl⟩
  · have hinside : Nested table ([space] ++ separated separator pieces ++ [space]) :=
      Nested.append (.cons rfl (.separated hseparator h)) (.cons rfl .nil)
    exact ⟨_, hinside, by simp⟩

/-- Members between curly brackets are nested if each of them is. -/
theorem nested_braced {separator : List Lexeme} (hseparator : Nested table separator)
    (h : AllNested table pieces) : Nested table (braced separator pieces) := by
  obtain ⟨inside, hinside, heq⟩ := exists_braced_eq hseparator h
  exact heq ▸ hinside.curly

/-- Text that is only written with types stays nested. -/
theorem nested_typed (p : Place) (h : Nested table ls) : Nested table (typed p ls) := by
  rw [typed]
  split
  · exact h
  · exact .nil

/-- A type after its colon is nested if the type is. -/
theorem nested_annotated (p : Place) {type : Option (List Lexeme)}
    (h : AllNested table type.toList) : Nested table (Layout.annotation p type) := by
  cases type with
  | none => exact .nil
  | some text =>
      have htext : Nested table text := h text (by simp)
      exact nested_typed p (.cons (by decide) (.cons rfl htext))

/-- A type parameter is nested if its constraint is. -/
theorem nested_typeParameter (n : Identifier) (h : Nested table ls) :
    Nested table (typeParameter n ls) :=
  .cons (isPlain_name n) (.append (.of_isPlain (by decide)) h)

/-- A function is nested if its parameters, its result and its body are. -/
theorem nested_function (p : Place) (isAsync : Bool)
    {typeParameters parameters : List (List Lexeme)}
    {returnType : Option (List Lexeme)} (htypes : AllNested table typeParameters)
    (hparameters : AllNested table parameters) (hreturn : AllNested table returnType.toList)
    (hbody : Nested table ls) :
    Nested table (function p isAsync typeParameters parameters returnType ls) := by
  have hasync : Nested table (if isAsync then [word "async", space] else []) := by
    cases isAsync
    · exact .nil
    · exact .of_isPlain (by decide)
  have harrow : Nested table [space, mark "=>", space] := .of_isPlain (by decide)
  exact ((((hasync.append (nested_typed p (.angled htypes))).append
    (Nested.listed hparameters).parenthesized).append (nested_annotated p hreturn)).append
      harrow).append hbody

/-- Lines in braces are what stands in them, in braces. -/
theorem exists_lines_eq (p : Place) (h : AllNested table pieces) : ∃ inside,
    Nested table inside ∧ lines p pieces = mark "\x7b" :: (inside ++ [mark "\x7d"]) := by
  rw [lines]
  split
  · exact ⟨[], .nil, rfl⟩
  · have hlines : Nested table (pieces.flatMap (· ++ [newline])) := by
      rw [List.flatMap_def]
      refine .flatten ?_
      intro ls hls
      rcases List.mem_map.mp hls with ⟨ms, hms, rfl⟩
      exact (h ms hms).append (.cons rfl .nil)
    have hinside : Nested table
        ([newline] ++ pieces.flatMap (· ++ [newline]) ++ [indent p.level]) :=
      Nested.append (.cons rfl hlines) (.cons rfl .nil)
    exact ⟨_, hinside, by simp⟩

/-- Lines between curly brackets are nested if each of them is. -/
theorem nested_lines (p : Place) (h : AllNested table pieces) : Nested table (lines p pieces) := by
  obtain ⟨inside, hinside, heq⟩ := exists_lines_eq p h
  exact heq ▸ hinside.curly

/-- A block is nested if each of its statements is. -/
theorem nested_block (p : Place) (h : AllNested table pieces) : Nested table (block p pieces) := by
  refine nested_lines p ?_
  intro ls hls
  rcases List.mem_map.mp hls with ⟨ms, hms, rfl⟩
  exact .cons rfl (h ms hms)

/-- A binding is nested if its type and its value are. -/
theorem nested_binding (p : Place) {keyword : String} (n : Identifier)
    {type : Option (List Lexeme)} (hkeyword : (word keyword).isPlain = true)
    (htype : AllNested table type.toList) (h : Nested table ls) :
    Nested table (binding p keyword n type ls) := by
  have hhead : Nested table [word keyword, space, name n] :=
    .cons hkeyword (.cons rfl (.cons (isPlain_name n) .nil))
  have hequals : Nested table [space, mark "=", space] := .of_isPlain (by decide)
  exact (((hhead.append (nested_annotated p htype)).append hequals).append h).append
    (.of_isPlain (by decide))

/-- A keyword before a nested expression, with the semicolon, is nested. -/
theorem nested_keyworded {keyword : String} (hkeyword : (word keyword).isPlain = true)
    (h : Nested table ls) : Nested table (keyworded keyword ls) :=
  Nested.append (.cons hkeyword (.cons rfl h)) (.of_isPlain (by decide))

/-- A keyword with a nested head in parentheses is nested. -/
theorem nested_headed {keyword : String} (hkeyword : (word keyword).isPlain = true)
    (h : Nested table ls) : Nested table (headed keyword ls) :=
  Nested.append (.cons hkeyword (.cons rfl h.parenthesized)) (.cons rfl .nil)

/-- The branch that may be left out is nested if its block is. -/
theorem nested_elsePart (body : List Statement) (h : Nested table ls) :
    Nested table (elsePart body ls) := by
  rw [elsePart]
  split
  · exact .nil
  · exact Nested.append (.of_isPlain (by decide)) h

/-- The head of a counting loop is nested if its bound is. -/
theorem nested_countHead (counter : Identifier) (h : Nested table ls) :
    Nested table (countHead counter ls) := by
  refine Nested.append (Nested.append (.of_isPlain ?_) h) (.of_isPlain ?_)
  · simp only [List.all_cons, isPlain_name]
    decide
  · simp only [List.all_cons, isPlain_name]
    decide

/-- A case is nested if its block is: its label is a literal. -/
theorem nested_switchCase (p : Place) (label : String) (h : Nested table ls) :
    Nested table (switchCase p label ls) :=
  Nested.append (.cons rfl (.cons (by decide) (.cons rfl (.cons rfl (.of_isPlain (by decide)))))) h

/-- A type with its arguments is nested if these are. -/
theorem nested_applied (h : Nested table ls) (h' : AllNested table pieces) :
    Nested table (applied ls pieces) :=
  h.append (.angled h')

/-- A type of a union or an intersection stays nested, wrapped or not. -/
theorem nested_constituent (inIntersection : Bool) (t : TypeExpr) (h : Nested table ls) :
    Nested table (constituent inIntersection t ls) := by
  unfold constituent
  split
  · exact h.parenthesized
  · exact h.wrappedIf _
  · exact h

/-- A member of an object type is nested if its key and its type are. -/
theorem nested_memberType (required readonly : Bool) (h : Nested table ls)
    (h' : Nested table ms) : Nested table (memberType ls required readonly ms) := by
  have hreadonly : Nested table (if readonly then [word "readonly", space] else []) := by
    cases readonly
    · exact .nil
    · exact .of_isPlain (by decide)
  have hoptional : Nested table (if required then [] else [mark "?"]) := by
    cases required
    · exact .of_isPlain (by decide)
    · exact .nil
  exact (((hreadonly.append h).append hoptional).append (.of_isPlain (by decide))).append h'

/-- What stands before a member is nested: its document and the indentation. -/
theorem nested_memberHead (p : Place) (document : String) :
    Nested table (memberHead p document) := by
  rw [memberHead]
  split
  · exact .cons rfl .nil
  · exact .cons rfl (.cons rfl .nil)

/-- Members of an object type on lines of their own are nested. -/
theorem nested_memberLines (p : Place) (members : List MemberType)
    (h : AllNested table pieces) : Nested table (memberLines p members pieces) := by
  refine nested_lines p ?_
  intro ls hls
  rcases List.mem_map.mp hls with ⟨⟨m, ms⟩, hzip, rfl⟩
  exact ((nested_memberHead p m.document).append (h ms (List.of_mem_zip hzip).2)).append
    (.of_isPlain (by decide))

/-- The made up name before each parameter of a function type is plain. -/
theorem allNested_functionTypeParameters (h : AllNested table pieces) :
    AllNested table (functionTypeParameters pieces) := by
  intro ls hls
  rcases List.mem_map.mp hls with ⟨⟨⟨n, _⟩, ms⟩, hzip, rfl⟩
  exact .cons (isPlain_name n) (.append (.of_isPlain (by decide)) (h ms (List.of_mem_zip hzip).2))

/-- The names of a path are nested, each with its point. -/
theorem nested_segments (path : List Identifier) : Nested table (segments path) := by
  rw [segments, List.flatMap_def]
  refine .flatten ?_
  intro ls hls
  rcases List.mem_map.mp hls with ⟨n, -, rfl⟩
  exact .cons (isPlain_name n) (.of_isPlain (by decide))

end Layout

/-! ## Nodes -/

section Nodes

open Layout

variable {table : ImportTable}

mutual

/-- An expression is nested. -/
theorem Expr.nested_layout (p : Place) : (e : Expr) → Nested table (e.layout p)
  | .number value => nested_number value
  | .string _ => .cons rfl .nil
  | .boolean value => by cases value <;> exact nested_word (by decide)
  | .null => nested_word (by decide)
  | .undefined => nested_word (by decide)
  | .unary op e => nested_unary p op e (e.nested_layout p)
  | .binary op left right =>
      nested_binary p op left right (left.nested_layout p) (right.nested_layout p)
  | .conditional condition thenExpr elseExpr => by
      have hquestion : Nested table [space, mark "?", space] := .of_isPlain (by decide)
      have hcolon : Nested table [space, mark ":", space] := .of_isPlain (by decide)
      exact (((((condition.nested_layout p).wrappedIf _).append hquestion).append
        ((thenExpr.nested_layout p).wrappedIf _)).append hcolon).append
          ((elseExpr.nested_layout p).wrappedIf _)
  | .array items => (Nested.listed (ArrayItem.allNested_layouts p items)).squared
  | .object members =>
      nested_braced (.of_isPlain (by decide)) (Member.allNested_layouts p members)
  | .lambda isAsync typeParameters parameters returnType body =>
      nested_function p isAsync (TypeParameter.allNested_layouts _ typeParameters)
        (Parameter.allNested_layouts _ parameters) (TypeExpr.allNested_optionLayout _ returnType)
        (Statement.nested_functionBody _ body)
  | .reference n => .cons (isPlain_name n) .nil
  | .global _ => .cons rfl .nil
  | .imported _ key => .cons rfl (nested_memberAccess key)
  | .get base property =>
      nested_get p base property (base.nested_layout p) (property.nested_layout p)
  | .call callee arguments =>
      ((callee.nested_layout p).wrappedIf _).append
        (Nested.listed (Expr.allNested_layouts p arguments)).parenthesized
  | .new callee arguments => by
      have hnew : Nested table [word "new", space] := .of_isPlain (by decide)
      exact (hnew.append ((callee.nested_layout p).wrappedIf _)).append
        (Nested.listed (Expr.allNested_layouts p arguments)).parenthesized
  | .assertion e type => by
      have he := e.nested_layout p
      have has : Nested table [space, word "as", space] := .of_isPlain (by decide)
      rw [Expr.layout]
      split
      · exact ((he.wrappedIf _).append has).append (type.nested_layout p)
      · exact he
  | .instantiation e arguments => by
      have he := e.nested_layout p
      rw [Expr.layout]
      split
      · exact nested_applied (he.wrappedIf _) (TypeExpr.allNested_layouts p arguments)
      · exact he

/-- Each of some expressions is nested. -/
theorem Expr.allNested_layouts (p : Place) :
    (es : List Expr) → AllNested table (Expr.layouts p es)
  | [] => allNested_nil
  | e :: es => allNested_cons.mpr ⟨e.nested_layout p, Expr.allNested_layouts p es⟩

/-- Each item of an array is nested, with the dots of a spread or without. -/
theorem ArrayItem.allNested_layouts (p : Place) :
    (items : List ArrayItem) → AllNested table (ArrayItem.layouts p items)
  | [] => allNested_nil
  | ⟨e, spread⟩ :: items => by
      have he := e.nested_layout p
      refine allNested_cons.mpr ⟨?_, ArrayItem.allNested_layouts p items⟩
      cases spread with
      | false => exact he
      | true => exact .cons (by decide) he

/-- Each member of an object is nested. -/
theorem Member.allNested_layouts (p : Place) :
    (members : List Member) → AllNested table (Member.layouts p members)
  | [] => allNested_nil
  | .spread e :: members =>
      allNested_cons.mpr
        ⟨.cons (by decide) (e.nested_layout p), Member.allNested_layouts p members⟩
  | .keyValue key value :: members =>
      allNested_cons.mpr
        ⟨nested_keyValue key value (key.nested_layout p) (value.nested_layout p),
          Member.allNested_layouts p members⟩

/-- Each parameter is nested, with its type. -/
theorem Parameter.allNested_layouts (p : Place) :
    (parameters : List Parameter) → AllNested table (Parameter.layouts p parameters)
  | [] => allNested_nil
  | ⟨n, type⟩ :: parameters =>
      allNested_cons.mpr
        ⟨.cons (isPlain_name n) (nested_annotated p (TypeExpr.allNested_optionLayout p type)),
          Parameter.allNested_layouts p parameters⟩

/-- Each type parameter is nested, with its constraint. -/
theorem TypeParameter.allNested_layouts (p : Place) :
    (parameters : List TypeParameter) → AllNested table (TypeParameter.layouts p parameters)
  | [] => allNested_nil
  | ⟨n, constraint⟩ :: parameters => by
      have hconstraint := TypeExpr.allNested_optionLayout p constraint
      refine allNested_cons.mpr
        ⟨nested_typeParameter n ?_, TypeParameter.allNested_layouts p parameters⟩
      cases htext : TypeExpr.optionLayout p constraint with
      | none => exact .of_isPlain (by decide)
      | some text =>
          rw [htext] at hconstraint
          exact hconstraint text (by simp)

/-- The body of a function is nested, as a block and as an expression. -/
theorem Statement.nested_functionBody (p : Place) :
    (body : List Statement) → Nested table (Statement.functionBody p body)
  | [] => nested_block p allNested_nil
  | s :: ss => by
      have hs := s.nested_layout (p.enterBlock [] (s :: ss))
      have hss := Statement.allNested_layouts (p.enterBlock [] (s :: ss)) ss
      have hblock := nested_block p (allNested_cons.mpr ⟨hs, hss⟩)
      cases s with
      | returnValue e =>
          cases ss with
          | nil => exact (e.nested_layout p).wrappedIf _
          | cons s ss => exact hblock
      | _ => exact hblock

/-- A statement is nested. -/
theorem Statement.nested_layout (p : Place) : (s : Statement) → Nested table (s.layout p)
  | .evaluate e => ((e.nested_layout p).wrappedIf _).append (.of_isPlain (by decide))
  | .set target op value =>
      ((((target.nested_layout p).wrappedIf _).append (nested_assignmentMark op)).append
        (value.nested_layout p)).append (.of_isPlain (by decide))
  | .ifElse condition thenBody elseBody =>
      ((nested_headed (by decide) (condition.nested_layout p)).append
        (nested_block p (Statement.allNested_layouts _ thenBody))).append
          (nested_elsePart elseBody (nested_block p (Statement.allNested_layouts _ elseBody)))
  | .throwError e => nested_keyworded (by decide) (e.nested_layout p)
  | .returnValue e => nested_keyworded (by decide) (e.nested_layout p)
  | .returnVoid => .cons (by decide) (.cons (by decide) .nil)
  | .continueLoop => .cons (by decide) (.cons (by decide) .nil)
  | .breakLoop => .cons (by decide) (.cons (by decide) .nil)
  | .binding isConst n type value =>
      nested_binding p n (by cases isConst <;> decide) (TypeExpr.allNested_optionLayout p type)
        (value.nested_layout p)
  | .function isAsync n typeParameters parameters returnType body =>
      nested_binding p n (by decide) allNested_nil
        (nested_function p isAsync (TypeParameter.allNested_layouts _ typeParameters)
          (Parameter.allNested_layouts _ parameters)
          (allNested_cons.mpr ⟨returnType.nested_layout _, allNested_nil⟩)
          (Statement.nested_functionBody _ body))
  | .forCount counter bound body =>
      (nested_headed (by decide)
        (nested_countHead counter ((bound.nested_layout _).wrappedIf _))).append
          (nested_block p (Statement.allNested_layouts _ body))
  | .forOf element iterable body => by
      have hhead : Nested table
          [word "const", space, name element, space, word "of", space] :=
        .cons (by decide) (.cons rfl (.cons (isPlain_name element) (.of_isPlain (by decide))))
      exact (nested_headed (by decide) (hhead.append (iterable.nested_layout p))).append
        (nested_block p (Statement.allNested_layouts _ body))
  | .whileTrue body =>
      (nested_headed (by decide) (.of_isPlain (by decide))).append
        (nested_block p (Statement.allNested_layouts _ body))
  | .switch subject cases =>
      (nested_headed (by decide) (subject.nested_layout p)).append
        (nested_lines p (SwitchCase.allNested_layouts p cases))
  | .tryCatch body parameter handler => by
      have htry : Nested table [word "try", space] := .of_isPlain (by decide)
      have hcatch : Nested table (headed "catch" [name parameter]) :=
        nested_headed (by decide) (.cons (isPlain_name parameter) .nil)
      exact (((htry.append (nested_block p (Statement.allNested_layouts _ body))).append
        (.of_isPlain (by decide))).append hcatch).append
          (nested_block p (Statement.allNested_layouts _ handler))

/-- Each statement of a body is nested. -/
theorem Statement.allNested_layouts (p : Place) :
    (ss : List Statement) → AllNested table (Statement.layouts p ss)
  | [] => allNested_nil
  | s :: ss => allNested_cons.mpr ⟨s.nested_layout p, Statement.allNested_layouts p ss⟩

/-- Each case of a `switch` is nested. -/
theorem SwitchCase.allNested_layouts (p : Place) :
    (cases : List SwitchCase) → AllNested table (SwitchCase.layouts p cases)
  | [] => allNested_nil
  | ⟨label, body⟩ :: cases =>
      allNested_cons.mpr
        ⟨nested_switchCase p label (nested_block p.deeper (Statement.allNested_layouts _ body)),
          SwitchCase.allNested_layouts p cases⟩

/-- A type is nested. -/
theorem TypeExpr.nested_layout (p : Place) : (t : TypeExpr) → Nested table (t.layout p)
  | .number | .string | .boolean | .undefined | .null | .never | .void | .unknown =>
      nested_word (by decide)
  | .uniqueSymbol => .cons (by decide) (.cons rfl (nested_word (by decide)))
  | .object members => by
      rw [TypeExpr.layout]
      split
      · exact nested_braced (.of_isPlain (by decide)) (MemberType.allNested_layouts p members)
      · exact nested_memberLines p members (MemberType.allNested_layouts p.deeper members)
  | .function typeParameters parameters result => by
      have harrow : Nested table [space, mark "=>", space] := .of_isPlain (by decide)
      have hparameters := allNested_functionTypeParameters
        (TypeExpr.allNested_layouts (p.bindTypes typeParameters) parameters)
      exact (((Nested.angled (TypeParameter.allNested_layouts _ typeParameters)).append
        (Nested.listed hparameters).parenthesized).append harrow).append (result.nested_layout _)
  | .union types => by
      rw [TypeExpr.layout]
      split
      · exact .of_isPlain (by decide)
      · exact .separated (.of_isPlain (by decide)) (TypeExpr.allNested_constituents p types)
  | .intersection left right =>
      ((nested_constituent true left (left.nested_layout p)).append
        (.of_isPlain (by decide))).append (nested_constituent true right (right.nested_layout p))
  | .imported _ n arguments =>
      nested_applied (.cons rfl (.cons (by decide) (.cons (isPlain_name n) .nil)))
        (TypeExpr.allNested_layouts p arguments)
  | .inFile n arguments =>
      nested_applied (.cons (isPlain_name n) .nil) (TypeExpr.allNested_layouts p arguments)
  | .global _ arguments =>
      nested_applied (.cons rfl .nil) (TypeExpr.allNested_layouts p arguments)
  | .namespaced path n arguments =>
      nested_applied ((nested_segments path).append (.cons (isPlain_name n) .nil))
        (TypeExpr.allNested_layouts p arguments)
  | .stringLiteral _ => .cons rfl .nil

/-- A type that may be left out is nested if it is there. -/
theorem TypeExpr.allNested_optionLayout (p : Place) :
    (t : Option TypeExpr) → AllNested table (TypeExpr.optionLayout p t).toList
  | none => allNested_nil
  | some t => allNested_cons.mpr ⟨t.nested_layout p, allNested_nil⟩

/-- Each of some types is nested. -/
theorem TypeExpr.allNested_layouts (p : Place) :
    (ts : List TypeExpr) → AllNested table (TypeExpr.layouts p ts)
  | [] => allNested_nil
  | t :: ts => allNested_cons.mpr ⟨t.nested_layout p, TypeExpr.allNested_layouts p ts⟩

/-- Each type of a union is nested, wrapped or not. -/
theorem TypeExpr.allNested_constituents (p : Place) :
    (ts : List TypeExpr) → AllNested table (TypeExpr.constituents p ts)
  | [] => allNested_nil
  | t :: ts =>
      allNested_cons.mpr
        ⟨nested_constituent false t (t.nested_layout p), TypeExpr.allNested_constituents p ts⟩

/-- Each member of an object type is nested. -/
theorem MemberType.allNested_layouts (p : Place) :
    (members : List MemberType) → AllNested table (MemberType.layouts p members)
  | [] => allNested_nil
  | ⟨key, required, readonly, type, _⟩ :: members =>
      allNested_cons.mpr
        ⟨nested_memberType required readonly (key.nested_layout p) (type.nested_layout p),
          MemberType.allNested_layouts p members⟩

/-- A key is nested, as text and as an expression in square brackets. -/
theorem PropertyName.nested_layout (p : Place) :
    (key : PropertyName) → Nested table (key.layout p)
  | .string key => .cons (isPlain_propertyKey key) .nil
  | .computed e => (e.nested_layout p).squared

end

end Nodes

/-! ## Definitions and files -/

section Definitions

open Layout

variable {table : ImportTable}

/-- A document keeps what it holds to itself, and an empty one is not written. -/
theorem Layout.nested_documentOf (text : String) : Nested table (documentOf text) := by
  rw [documentOf]
  split
  · exact .nil
  · exact .cons rfl .nil

/-- The word before an exported definition is plain. -/
theorem Layout.nested_exportMark (exported : Bool) : Nested table (exportMark exported) := by
  cases exported
  · exact .nil
  · exact .of_isPlain (by decide)

/-- The definition of a type is nested. -/
theorem TypeAlias.nested_layout (p : Place) (a : TypeAlias) : Nested table (a.layout p) := by
  have hhead : Nested table [word "type", space, Layout.name a.name] :=
    .cons (by decide) (.cons rfl (.cons (isPlain_name a.name) .nil))
  have hequals : Nested table [space, mark "=", space] := .of_isPlain (by decide)
  have hsemicolon : Nested table [mark ";"] := .of_isPlain (by decide)
  have hparameters : Nested table
      (angled (TypeParameter.layouts (p.bindTypes a.typeParameters) a.typeParameters)) :=
    .angled (TypeParameter.allNested_layouts _ _)
  exact ((((((nested_documentOf a.document).append (nested_exportMark a.exported)).append
    hhead).append hparameters).append hequals).append (a.type.nested_layout _)).append
      hsemicolon

/-- The definition of a function is nested. -/
theorem FunctionDefinition.nested_layout (p : Place) (f : FunctionDefinition) :
    Nested table (f.layout p) :=
  ((nested_documentOf f.fullDocument).append (nested_exportMark f.exported)).append
    (nested_binding p f.name (by decide) allNested_nil
      (nested_function p f.isAsync (TypeParameter.allNested_layouts _ f.typeParameters)
        (Parameter.allNested_layouts _ (f.parameters.map DocumentedParameter.toParameter))
        (allNested_cons.mpr ⟨f.returnType.nested_layout _, allNested_nil⟩)
        (Statement.nested_functionBody _ f.body)))

/-- The definition of a variable is nested. -/
theorem VariableDefinition.nested_layout (p : Place) (b : VariableDefinition) :
    Nested table (b.layout p) :=
  ((nested_documentOf b.document).append (nested_exportMark b.exported)).append
    (nested_binding p b.name (by decide) (TypeExpr.allNested_optionLayout p b.type)
      (b.value.nested_layout p))

/-- Whatever a definition leaves in a file is nested. -/
theorem Definition.nested_layout? (p : Place) {d : Definition} {ls : List Lexeme}
    (h : d.layout? p = some ls) : Nested table ls := by
  cases d with
  | typeAlias a =>
      rw [Definition.layout?] at h
      split at h
      · exact Option.some.inj h ▸ a.nested_layout p
      · exact absurd h (Option.some_ne_none ls).symm
  | function f => exact Option.some.inj h ▸ f.nested_layout p
  | binding b => exact Option.some.inj h ▸ b.nested_layout p

end Definitions

end EcmaWriter
