import EcmaWriter.Layout.Node

/-!
# EcmaWriter - The layout of modules

A generated file has sections with an empty line between them: the banner, the
imports, each definition and the block of statements. Type aliases leave nothing
in JavaScript.

Main definitions:

- `Definition.layout?`: the lexemes of a definition.
- `Module.sections`: the sections of a file.
- `Module.layout`: the lexemes of a file.
-/

namespace EcmaWriter

open Lexeme

namespace Layout

/-- The banner: generated files are exempt from linting and credit their makers. -/
def banner (links : List String) : List Lexeme :=
  [comment " eslint-disable ", newline, comment (bannerBody links)]

/-- The import of one module. -/
def importLine (path : String) (n : Identifier) : List Lexeme :=
  [word "import", space, mark "*", space, word "as", space, name n, space, word "from", space,
    literal path, mark ";"]

/-- All imports, one on each line. -/
def imports (table : ImportTable) : List Lexeme :=
  separated [newline] (table.entries.map fun (path, n) => importLine path n)

/-- The document of a definition, if there is one. -/
def documentOf (text : String) : List Lexeme :=
  if isBlankDocument text then [] else [document 0 text]

/-- The export mark of a definition. -/
def exportMark (exported : Bool) : List Lexeme :=
  if exported then [word "export", space] else []

end Layout

/-- The document of one parameter, if it has one. -/
def DocumentedParameter.documentLine? (p : DocumentedParameter) : Option String :=
  match trim p.document.toList with
  | [] => none
  | c :: cs => some ("@param " ++ p.name.text ++ " " ++ String.ofList (c :: cs))

/-- The document of a function with those of its parameters after it. -/
def FunctionDefinition.fullDocument (f : FunctionDefinition) : String :=
  let own := match trim f.document.toList with
    | [] => []
    | c :: cs => [String.ofList (c :: cs)]
  "\n".intercalate (own ++ f.parameters.filterMap DocumentedParameter.documentLine?)

/-- The lexemes of a type alias. -/
def TypeAlias.layout (p : Place) (a : TypeAlias) : List Lexeme :=
  Layout.documentOf a.document ++ Layout.exportMark a.exported
    ++ [word "type", space, Layout.name a.name]
    ++ angled (TypeParameter.layouts (p.bindTypes a.typeParameters) a.typeParameters)
    ++ [space, mark "=", space]
    ++ a.type.layout (p.bindTypes a.typeParameters)
    ++ [mark ";"]

/-- The lexemes of a function definition. -/
def FunctionDefinition.layout (p : Place) (f : FunctionDefinition) : List Lexeme :=
  let parameters := f.parameters.map DocumentedParameter.toParameter
  let inner := p.bindFunction f.typeParameters parameters
  Layout.documentOf f.fullDocument ++ Layout.exportMark f.exported
    ++ Layout.binding p "const" f.name none
      (Layout.function p f.isAsync
        (TypeParameter.layouts inner f.typeParameters)
        (Parameter.layouts inner parameters)
        (some (f.returnType.layout inner))
        (Statement.functionBody inner f.body))

/-- The lexemes of a variable definition. -/
def VariableDefinition.layout (p : Place) (b : VariableDefinition) : List Lexeme :=
  Layout.documentOf b.document ++ Layout.exportMark b.exported
    ++ Layout.binding p "const" b.name (TypeExpr.optionLayout p b.type) (b.value.layout p)

/-- The lexemes of a definition, unless the dialect leaves it out. -/
def Definition.layout? (p : Place) : Definition → Option (List Lexeme)
  | .typeAlias a => if p.hasTypes then some (a.layout p) else none
  | .function f => some (f.layout p)
  | .binding b => some (b.layout p)

namespace Module

/-- Where the definitions of a module are written. -/
def place (m : Module) (dialect : Dialect) : Place where
  dialect := dialect
  level := 0
  values := m.scope
  types := .root m.typeNames

/-- The section of the imports, unless there are none. -/
def importSection (table : ImportTable) : List (List Lexeme) :=
  if table.entries.isEmpty then [] else [Layout.imports table]

/-- The section of the statements, unless there are none. -/
def statementSection (m : Module) (p : Place) : List (List Lexeme) :=
  if m.statements.isEmpty then []
  else
    [Layout.block p (Statement.layouts (p.enterBlock [] m.statements) m.statements)]

/-- The sections of a file in their order. -/
def sections (m : Module) (table : ImportTable) (dialect : Dialect) (links : List String) :
    List (List Lexeme) :=
  Layout.banner links :: importSection table
    ++ m.definitions.filterMap (Definition.layout? (m.place dialect))
    ++ m.statementSection (m.place dialect)

/-- The lexemes of a file. -/
def layout (m : Module) (table : ImportTable) (dialect : Dialect) (links : List String) :
    List Lexeme :=
  separated [newline, newline] (m.sections table dialect links) ++ [newline]

end Module

end EcmaWriter
