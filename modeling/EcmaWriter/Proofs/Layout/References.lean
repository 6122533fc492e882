import EcmaWriter.Layout.Module
import EcmaWriter.Proofs.Layout.Basic
import EcmaWriter.Proofs.Lexeme.Spelling

/-!
# EcmaWriter - References in layouts

Three kinds of lexemes refer to something that is not in the lexeme: the import namespace
of a module, and a built-in value or type, which is written after the names around it.  No
form of the layout adds such lexemes or loses any: it has those of the parts that it is
given, in their order.

Main results:

- Definition `Lexeme.references`: the lexemes in a list that refer to something.
- Theorems `Layout.references_get`, `Layout.references_function` and so on: the references
  of a form are those of its parts.
-/

namespace EcmaWriter

namespace Lexeme

/-- A lexeme that refers to a module or to a built-in name. -/
def reference? : Lexeme → Option Lexeme
  | importOf path => some (importOf path)
  | globalValue hidden n => some (globalValue hidden n)
  | globalType hidden n => some (globalType hidden n)
  | _ => none

/-- The lexemes that refer to something, in the order in which they stand. -/
def references (ls : List Lexeme) : List Lexeme :=
  ls.filterMap reference?

/-- The paths that lexemes look up are those of their references. -/
theorem paths_eq (ls : List Lexeme) : paths ls = (references ls).filterMap path? := by
  rw [paths, references, List.filterMap_filterMap]
  congr 1
  funext l
  cases l <;> rfl

/-- The namespace of a module refers to the module. -/
@[simp] theorem reference?_importOf (path : String) :
    (importOf path).reference? = some (importOf path) := rfl

@[simp] theorem reference?_word (text : String) : (word text).reference? = none := rfl

@[simp] theorem reference?_digits (value : Nat) (pointed : Bool) :
    (digits value pointed).reference? = none := rfl

@[simp] theorem reference?_literal (value : String) : (literal value).reference? = none := rfl

@[simp] theorem reference?_mark (text : String) : (mark text).reference? = none := rfl

@[simp] theorem reference?_space : space.reference? = none := rfl

@[simp] theorem reference?_newline : newline.reference? = none := rfl

@[simp] theorem reference?_indent (level : Nat) : (indent level).reference? = none := rfl

@[simp] theorem reference?_comment (body : String) : (comment body).reference? = none := rfl

@[simp] theorem reference?_document (level : Nat) (text : String) :
    (document level text).reference? = none := rfl

/-- A built-in value refers to itself, hidden or not. -/
@[simp] theorem reference?_globalValue (hidden : Bool) (n : Identifier) :
    (globalValue hidden n).reference? = some (globalValue hidden n) := rfl

/-- A built-in type refers to itself, hidden or not. -/
@[simp] theorem reference?_globalType (hidden : Bool) (n : Identifier) :
    (globalType hidden n).reference? = some (globalType hidden n) := rfl

@[simp] theorem references_nil : references [] = [] := rfl

/-- References of two texts follow each other as the texts do. -/
@[simp] theorem references_append (ls ms : List Lexeme) :
    references (ls ++ ms) = references ls ++ references ms :=
  List.filterMap_append

/-- The first lexeme comes first, if it refers to something. -/
@[simp] theorem references_cons (l : Lexeme) (ls : List Lexeme) :
    references (l :: ls) = l.reference?.toList ++ references ls := by
  rw [references, List.filterMap_cons]
  cases l.reference? <;> rfl

/-- References of a text put together piece by piece. -/
@[simp] theorem references_flatMap {α : Type} (f : α → List Lexeme) (l : List α) :
    references (l.flatMap f) = l.flatMap fun a => references (f a) := by
  rw [references, List.filterMap_flatMap]
  rfl

/-- Parentheses refer to nothing. -/
@[simp] theorem references_parenthesized (ls : List Lexeme) :
    references (parenthesized ls) = references ls := by
  simp [parenthesized]

/-- Nor do parentheses that may be left out. -/
@[simp] theorem references_wrappedIf (needed : Bool) (ls : List Lexeme) :
    references (wrappedIf needed ls) = references ls := by
  cases needed <;> simp [wrappedIf]

/-- A separator that refers to nothing leaves the references of the pieces. -/
theorem references_separated {separator : List Lexeme} (h : references separator = [])
    (pieces : List (List Lexeme)) :
    references (separated separator pieces) = pieces.flatMap references := by
  induction pieces with
  | nil => rfl
  | cons ls pieces ih =>
      cases pieces with
      | nil => simp [separated]
      | cons ms pieces =>
          have hstep : separated separator (ls :: ms :: pieces) =
              ls ++ separator ++ separated separator (ms :: pieces) := rfl
          rw [hstep, references_append, references_append, h, ih, List.append_nil]
          rfl

/-- The references of a list with commas are those of its pieces. -/
@[simp] theorem references_listed (pieces : List (List Lexeme)) :
    references (listed pieces) = pieces.flatMap references :=
  references_separated rfl pieces

/-- The references of a list in angle brackets are those of its pieces. -/
@[simp] theorem references_angled (pieces : List (List Lexeme)) :
    references (angled pieces) = pieces.flatMap references := by
  cases pieces <;> simp [angled]

end Lexeme

open Lexeme (references)

/-! ## Forms of the layout -/

namespace Layout

variable (p : Place)

/-- A number has no references, with its sign or without. -/
@[simp] theorem references_number (value : Int32) : references (number value) = [] := by
  rw [number]
  split <;> simp

/-- The access to a member of a known name refers to nothing. -/
@[simp] theorem references_memberAccess (key : String) : references (memberAccess key) = [] := by
  rw [memberAccess]
  split <;> simp

/-- An operator refers to nothing, also one that is a word. -/
@[simp] theorem references_unaryOperator (op : UnaryOperator) :
    references (unaryOperator op) = [] := by
  cases op <;> simp [unaryOperator]

/-- An operand has the references of its text, wrapped or not. -/
@[simp] theorem references_operand (least : Strength) (e : Expr) (text : List Lexeme) :
    references (operand p least e text) = references text :=
  Lexeme.references_wrappedIf _ _

/-- The references of an operation are those of its operand. -/
@[simp] theorem references_unary (op : UnaryOperator) (e : Expr) (text : List Lexeme) :
    references (unary p op e text) = references text := by
  simp [unary]

/-- The references of an operation are those of the left and then of the right operand. -/
@[simp] theorem references_binary (op : BinaryOperator) (left right : Expr)
    (leftText rightText : List Lexeme) :
    references (binary p op left right leftText rightText) =
      references leftText ++ references rightText := by
  simp [binary]

/-- A number refers to nothing, so nothing is lost when it is written differently. -/
@[simp] theorem references_memberBase (base : Expr) (dotted : Bool) :
    references (memberBase p base dotted (base.layout p)) = references (base.layout p) := by
  rw [memberBase]
  split
  · rename_i value hvalue
    have hlayout := Expr.layout_written p base
    rw [hvalue, Expr.layout] at hlayout
    rw [← hlayout]
    split <;> simp
  · simp
  · simp

/-- A key that becomes a name after a dot had no references to lose. -/
@[simp] theorem references_get (base property : Expr) :
    references (get p base property (base.layout p) (property.layout p)) =
      references (base.layout p) ++ references (property.layout p) := by
  rw [get]
  split
  · rename_i key hkey
    cases property <;> simp [dottedName?] at hkey
    simp [Expr.layout]
  · simp

/-- What comes after `new` keeps its references. -/
@[simp] theorem references_constructor (callee : Expr) (text : List Lexeme) :
    references (constructor p callee text) = references text :=
  Lexeme.references_wrappedIf _ _

/-- The key of a property refers to nothing, quoted or bare. -/
@[simp] theorem reference?_propertyKey (key : String) : (propertyKey key).reference? = none := by
  rw [propertyKey]
  split <;> rfl

/-- The short form of a member leaves the key out, which had no references. -/
@[simp] theorem references_keyValue (key value : Expr) :
    references (keyValue key value (key.layout p) (value.layout p)) =
      references (key.layout p) ++ references (value.layout p) := by
  unfold keyValue
  split
  · split <;> simp [Expr.layout, name]
  · simp [Expr.layout]
  · simp

/-- The references of members in braces are those of the members. -/
@[simp] theorem references_braced {separator : List Lexeme} (h : references separator = [])
    (members : List (List Lexeme)) :
    references (braced separator members) = members.flatMap references := by
  rw [braced]
  split
  · simp_all
  · simp [Lexeme.references_separated h]

/-- The references of lines are those of the texts on them. -/
@[simp] theorem references_lines (texts : List (List Lexeme)) :
    references (lines p texts) = texts.flatMap references := by
  rw [lines]
  split
  · simp_all
  · simp

/-- The references of a block are those of its statements. -/
@[simp] theorem references_block (statements : List (List Lexeme)) :
    references (block p statements) = statements.flatMap references := by
  rw [block, references_lines, List.flatMap_map]
  simp

/-- Text that is left out without types has its references where types are written. -/
@[simp] theorem references_typed (text : List Lexeme) :
    references (typed p text) = if p.hasTypes then references text else [] := by
  rw [typed]
  split <;> rfl

/-- The references of a type after a colon, if the place writes it. -/
@[simp] theorem references_annotation (type : Option (List Lexeme)) :
    references (Layout.annotation p type) =
      if p.hasTypes then type.toList.flatMap references else [] := by
  cases type <;> simp [Layout.annotation]

/-- References of a function, from the type parameters to the body. -/
@[simp] theorem references_function (isAsync : Bool)
    (typeParameters parameters : List (List Lexeme)) (returnType : Option (List Lexeme))
    (body : List Lexeme) :
    references (function p isAsync typeParameters parameters returnType body) =
      (if p.hasTypes then typeParameters.flatMap references else [])
        ++ parameters.flatMap references
        ++ (if p.hasTypes then returnType.toList.flatMap references else [])
        ++ references body := by
  cases isAsync <;> simp [function]

/-- A body that is one expression has its references. -/
@[simp] theorem references_conciseBody (e : Expr) (text : List Lexeme) :
    references (conciseBody p e text) = references text :=
  Lexeme.references_wrappedIf _ _

/-- Parentheses around the start of a statement refer to nothing. -/
@[simp] theorem references_opening (text : List Lexeme) :
    references (opening text) = references text :=
  Lexeme.references_wrappedIf _ _

/-- References of a binding: those of the type, if written, and of the value. -/
@[simp] theorem references_binding (keyword : String) (n : Identifier) (type : Option (List Lexeme))
    (value : List Lexeme) :
    references (binding p keyword n type value) =
      (if p.hasTypes then type.toList.flatMap references else []) ++ references value := by
  simp [binding, name]

/-- A keyword before an expression refers to nothing. -/
@[simp] theorem references_keyworded (keyword : String) (text : List Lexeme) :
    references (keyworded keyword text) = references text := by
  simp [keyworded]

/-- A keyword with a head in parentheses has the references of the head. -/
@[simp] theorem references_headed (keyword : String) (head : List Lexeme) :
    references (headed keyword head) = references head := by
  simp [headed]

/-- The head of a counting loop has the references of its bound. -/
@[simp] theorem references_countHead (counter : Identifier) (bound : List Lexeme) :
    references (countHead counter bound) = references bound := by
  simp [countHead, name]

/-- References of a type with arguments: the head, then the arguments. -/
@[simp] theorem references_applied (head : List Lexeme) (arguments : List (List Lexeme)) :
    references (applied head arguments) = references head ++ arguments.flatMap references := by
  simp [applied]

/-- A type of a union or an intersection keeps its references. -/
@[simp] theorem references_constituent (inIntersection : Bool) (t : TypeExpr) (text : List Lexeme) :
    references (constituent inIntersection t text) = references text := by
  unfold constituent
  split <;> simp

/-- The names after an import namespace refer to nothing by themselves. -/
@[simp] theorem references_segments (path : List Identifier) : references (segments path) = [] := by
  simp [segments, name]

/-- Pieces that are written beside something else are all there. -/
theorem flatMap_references_zip {α : Type} {l : List α} {pieces : List (List Lexeme)}
    (h : pieces.length ≤ l.length) :
    ((l.zip pieces).flatMap fun x => references x.2) = pieces.flatMap references := by
  rw [← List.flatMap_map, List.map_snd_zip h]

/-- The made up names of a function type refer to nothing. -/
theorem references_functionTypeParameters (types : List (List Lexeme)) :
    (functionTypeParameters types).flatMap references = types.flatMap references := by
  rw [functionTypeParameters, List.flatMap_map]
  refine Eq.trans ?_ (flatMap_references_zip (l := Candidate.mintMany [] types.length .first) ?_)
  · simp [name]
  · simp

/-- The document of a definition refers to nothing. -/
@[simp] theorem references_documentOf (text : String) : references (documentOf text) = [] := by
  rw [documentOf]
  split <;> simp

/-- The word `export` refers to nothing. -/
@[simp] theorem references_exportMark (exported : Bool) :
    references (exportMark exported) = [] := by
  cases exported <;> simp [exportMark]

/-- What stands before a member of an object type refers to nothing. -/
@[simp] theorem references_memberHead (document : String) :
    references (memberHead p document) = [] := by
  rw [memberHead]
  split <;> simp

/-- The references of members on lines of their own are those of the members. -/
theorem references_memberLines {members : List MemberType} {texts : List (List Lexeme)}
    (h : texts.length ≤ members.length) :
    references (memberLines p members texts) = texts.flatMap references := by
  rw [memberLines, references_lines, List.flatMap_map]
  refine Eq.trans ?_ (flatMap_references_zip h)
  simp

end Layout

end EcmaWriter
