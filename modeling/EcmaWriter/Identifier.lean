/-!
# EcmaWriter - Identifiers

A name that may stand bare wherever a binding or a reference is written. Any
text can be turned into one: an illegal character becomes an underscore, and an
underscore is put before a leading digit and after a reserved word.

Main results:

- Theorem `Identifier.text_ofString`: a text that is a bare name already is kept.
- Theorem `Identifier.ofString_text`: turning an identifier's text into an
  identifier gives it back.
-/

namespace EcmaWriter

/-! ## Words -/

/-- Words that never name a binding: keywords, strict-mode words, literals,
bindings that cannot be replaced or would hide something the generated code
relies on, and the names of primitive types. -/
def reservedWords : List String :=
  ["await", "break", "case", "catch", "class", "const", "continue", "debugger",
    "default", "delete", "do", "else", "enum", "export", "extends", "finally", "for",
    "function", "if", "import", "in", "instanceof", "new", "return", "super", "switch",
    "this", "throw", "try", "typeof", "var", "void", "while", "with", "yield",
    "let", "static", "implements", "interface", "package", "private", "protected",
    "public",
    "true", "false", "null",
    "arguments", "eval", "undefined", "globalThis",
    "any", "bigint", "boolean", "never", "number", "object", "string", "symbol",
    "unknown"]

/-- Whether a text is one of the reserved words. -/
def isReservedWord (text : String) : Bool :=
  reservedWords.contains text

/-- Characters an identifier may start with: ASCII letters, `_` and `$`. -/
def isIdentifierStart (c : Char) : Bool :=
  c.isAlpha || c == '_' || c == '$'

/-- Characters an identifier may hold after its first: those it may start with
and the ASCII digits. -/
def isIdentifierPart (c : Char) : Bool :=
  c.isAlphanum || c == '_' || c == '$'

/-- Whether characters have the shape of an identifier, reserved or not. -/
def hasIdentifierShape : List Char → Bool
  | [] => false
  | c :: cs => isIdentifierStart c && cs.all isIdentifierPart

/-- Whether a text can follow a `.` or be an unquoted key. Reserved words can. -/
def isPropertyName (text : String) : Bool :=
  hasIdentifierShape text.toList

/-- Whether a text can be written as a binding or a reference as it is. -/
def isBareName (text : String) : Bool :=
  isPropertyName text && !isReservedWord text

/-! ## Identifiers -/

/-- A name that is legal as a bare binding. -/
structure Identifier where
  text : String
  isBare : isBareName text = true
deriving DecidableEq

namespace Identifier

/-- The characters of a name with every illegal one replaced, and an underscore
in front where the name would be empty or start with a digit. -/
def legalize (cs : List Char) : List Char :=
  match cs.map fun c => if isIdentifierPart c then c else '_' with
  | [] => ['_']
  | c :: rest => if c.isDigit then '_' :: c :: rest else c :: rest

private theorem isIdentifierPart_replace (c : Char) :
    isIdentifierPart (if isIdentifierPart c then c else '_') = true := by
  split
  · assumption
  · decide

private theorem all_replace (cs : List Char) :
    (cs.map fun c => if isIdentifierPart c then c else '_').all isIdentifierPart = true := by
  rw [List.all_eq_true]
  intro c hc
  rw [List.mem_map] at hc
  obtain ⟨d, _, rfl⟩ := hc
  exact isIdentifierPart_replace d

private theorem start_of_part {c : Char} (hp : isIdentifierPart c = true)
    (hd : c.isDigit = false) : isIdentifierStart c = true := by
  simp only [isIdentifierPart, Char.isAlphanum, hd, Bool.or_false] at hp
  exact hp

/-- Legalized characters have the shape of an identifier. -/
theorem hasIdentifierShape_legalize (cs : List Char) :
    hasIdentifierShape (legalize cs) = true := by
  have hall := all_replace cs
  unfold legalize
  split
  · decide
  · next c rest heq =>
    rw [heq, List.all_cons, Bool.and_eq_true] at hall
    split
    · simp only [hasIdentifierShape, List.all_cons, hall.1, hall.2, Bool.and_self,
        Bool.and_true]
      decide
    · next hd =>
      simp only [hasIdentifierShape, hall.2, Bool.and_true]
      exact start_of_part hall.1 (by simpa using hd)

private theorem hasIdentifierShape_append {cs : List Char}
    (h : hasIdentifierShape cs = true) : hasIdentifierShape (cs ++ ['_']) = true := by
  cases cs with
  | nil => exact absurd h (by decide)
  | cons c cs =>
    simp only [hasIdentifierShape, Bool.and_eq_true] at h
    simp only [List.cons_append, hasIdentifierShape, List.all_append, h.1, h.2, Bool.true_and]
    decide

/-- No reserved word ends in an underscore. -/
theorem isReservedWord_append_underscore (cs : List Char) :
    isReservedWord (String.ofList (cs ++ ['_'])) = false := by
  have hlast : ∀ w ∈ reservedWords, w.toList.getLast? ≠ some '_' := by decide
  rw [isReservedWord, Bool.eq_false_iff]
  intro h
  have hmem : String.ofList (cs ++ ['_']) ∈ reservedWords := by simpa using h
  exact hlast _ hmem (by simp)

private theorem isBareName_ofList (cs : List Char) :
    isBareName (String.ofList cs) =
      (hasIdentifierShape cs && !isReservedWord (String.ofList cs)) := by
  rw [isBareName, isPropertyName, String.toList_ofList]

/-- Make an identifier of any text. -/
def ofString (raw : String) : Identifier :=
  if h : isBareName raw = true then ⟨raw, h⟩
  else
    let name := legalize raw.toList
    if hr : isReservedWord (String.ofList name) = true then
      ⟨String.ofList (name ++ ['_']), by
        rw [isBareName_ofList, isReservedWord_append_underscore,
          hasIdentifierShape_append (hasIdentifierShape_legalize raw.toList)]
        rfl⟩
    else
      ⟨String.ofList name, by
        rw [isBareName_ofList, hasIdentifierShape_legalize, Bool.eq_false_iff.mpr hr]
        rfl⟩

/-- A text that is a bare name already is kept as it is. -/
theorem text_ofString {raw : String} (h : isBareName raw = true) :
    (ofString raw).text = raw := by
  simp [ofString, h]

/-- Making an identifier of an identifier's text changes nothing. -/
@[simp] theorem ofString_text (name : Identifier) : ofString name.text = name := by
  obtain ⟨text, h⟩ := name
  simp [ofString, h]

/-- The text of an identifier has the shape of a property name. -/
theorem isPropertyName (name : Identifier) : EcmaWriter.isPropertyName name.text = true :=
  (Bool.and_eq_true_iff.mp name.isBare).1

end Identifier

end EcmaWriter
