import EcmaWriter.Text.Blank

/-!
# EcmaWriter - Comments

Documents and the credits of a generated file become block comments. Text that
would close its comment too early is broken up: every `*/` becomes `* /`.

Main definitions:

- `disarm`: the text with every `*/` broken up.
- `documentBlock`: a document as a `/** ... */` block, one line per line of the
  document.
- `bannerBody`: the credit line of a generated file.
-/

namespace EcmaWriter

/-- Put a space into every `*/`, from left to right. -/
def disarm : List Char → List Char
  | '*' :: '/' :: cs => '*' :: ' ' :: '/' :: disarm cs
  | c :: cs => c :: disarm cs
  | [] => []

/-- Two spaces for each level of nesting. -/
def indentation (level : Nat) : String :=
  String.ofList (List.replicate (2 * level) ' ')

/-- One line of a document block, after its indentation. -/
def documentLine (line : List Char) : String :=
  match trimEnd line with
  | [] => " *\n"
  | c :: cs => " * " ++ String.ofList (disarm (c :: cs)) ++ "\n"

/-- A document as a comment of its own lines. The document is trimmed first, each
line loses its trailing blanks, and a blank document leaves nothing. -/
def documentBlock (indent : String) (document : String) : String :=
  match trim document.toList with
  | [] => ""
  | c :: cs =>
    indent ++ "/**\n"
      ++ String.join ((lines (c :: cs)).map fun line => indent ++ documentLine line)
      ++ indent ++ " */\n"

/-- Whether a document has nothing but blank characters. -/
def isBlankDocument (document : String) : Bool :=
  document.toList.all isBlank

/-- What the credit comment says: the names or links of the tools that produced
the module, or the generator's own name. -/
def bannerBody (links : List String) : String :=
  let credit := match links with
    | [] => "gen-js"
    | _ => String.ofList (disarm (", ".intercalate links).toList)
  " generated by " ++ credit ++ ". Do not edit! "

end EcmaWriter
