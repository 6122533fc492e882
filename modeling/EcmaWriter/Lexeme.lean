import EcmaWriter.ImportTable
import EcmaWriter.Text.Comment
import EcmaWriter.Text.StringLiteral

/-!
# EcmaWriter - Lexemes

What is written is a list of lexemes: words, marks, literals, comments and the
white space between them. A lexeme that refers to an export of another module
holds the module's path; the namespace is filled in when the lexemes are spelled.

Main definitions:

- `Lexeme`: pieces of source text.
- `Lexeme.spell`: the text of a lexeme.
- `spellAll`: the text of a list of lexemes.
-/

namespace EcmaWriter

/-- A piece of source text. -/
inductive Lexeme
  /-- A keyword, a name or an unquoted property. -/
  | word (text : String)
  /-- The digits of a number, with a point after them where another point follows. -/
  | digits (value : Nat) (pointed : Bool)
  /-- A string literal. -/
  | literal (value : String)
  /-- Punctuation or an operator. -/
  | mark (text : String)
  | space
  | newline
  | indent (level : Nat)
  /-- A block comment with its body. -/
  | comment (body : String)
  /-- A document, as a comment of its own lines. -/
  | document (level : Nat) (text : String)
  /-- The import namespace of a module. -/
  | importOf (path : String)
  /-- A built-in value, qualified where a name of the module hides it. -/
  | globalValue (hidden : Bool) (name : Identifier)
  /-- A built-in type, qualified where a name of the module hides it. -/
  | globalType (hidden : Bool) (name : Identifier)
deriving DecidableEq

namespace Lexeme

/-- A built-in name, qualified if it is hidden. -/
def qualified (hidden : Bool) (name : Identifier) : String :=
  if hidden then "globalThis." ++ name.text else name.text

/-- The text of a lexeme. A path without a namespace is a fault. -/
def spell (table : ImportTable) : Lexeme → Except Fault String
  | word text => .ok text
  | digits value pointed => .ok (if pointed then toString value ++ "." else toString value)
  | literal value => .ok (stringLiteral value)
  | mark text => .ok text
  | space => .ok " "
  | newline => .ok "\n"
  | indent level => .ok (indentation level)
  | comment body => .ok ("/*" ++ body ++ "*/")
  | document level text => .ok (documentBlock (indentation level) text)
  | importOf path =>
    match table.find? path with
    | some n => .ok n.text
    | none => .error (.unknownModule path)
  | globalValue hidden name => .ok (qualified hidden name)
  | globalType hidden name => .ok (qualified hidden name)

/-- The path whose namespace a lexeme is. -/
def path? : Lexeme → Option String
  | importOf path => some path
  | _ => none

/-! ## Building lists of lexemes -/

/-- Put lexemes in parentheses. -/
def parenthesized (ls : List Lexeme) : List Lexeme :=
  mark "(" :: ls ++ [mark ")"]

/-- Put lexemes in parentheses if that is needed. -/
def wrappedIf (needed : Bool) (ls : List Lexeme) : List Lexeme :=
  if needed then parenthesized ls else ls

/-- Whether the first lexeme is a mark. -/
def startWith (text : String) (ls : List Lexeme) : Bool :=
  ls.head? = some (mark text)

/-- Put a separator between pieces. -/
def separated (separator : List Lexeme) : List (List Lexeme) → List Lexeme
  | [] => []
  | [ls] => ls
  | ls :: rest => ls ++ separator ++ separated separator rest

/-- Put a comma and a space between pieces. -/
def listed (pieces : List (List Lexeme)) : List Lexeme :=
  separated [mark ",", space] pieces

/-- A list in angle brackets, or nothing if it is empty. -/
def angled (pieces : List (List Lexeme)) : List Lexeme :=
  if pieces.isEmpty then [] else mark "<" :: listed pieces ++ [mark ">"]

end Lexeme

/-- The text of a list of lexemes. The first path without a namespace is the
fault. -/
def spellAll (table : ImportTable) (ls : List Lexeme) : Except Fault String := do
  return String.join (← ls.mapM (Lexeme.spell table))

end EcmaWriter
