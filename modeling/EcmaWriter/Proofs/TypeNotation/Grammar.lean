import EcmaWriter.Proofs.Script.Grammar

/-!
# EcmaWriter - A grammar of TypeScript types

The reference against which written types are read: the trees that types stand for, and
the productions of the language for keywords, string literals, references with type
arguments, object types, arrays and indexed access, type operators, function types,
intersections and unions.  The grammar knows nothing of how types are written; its words
are listed here.

An intersection binds tighter than a union, a type operator tighter than both.  A function
type is a type, but no part of a union or an intersection unless it stands in parentheses,
so that its result goes as far to the right as it can.  A type after a bar alone is that
type.  The names of parameters mean nothing and are not kept.

Some words that may be names are modifiers where another word follows.  So `out` can be
the name of a type parameter, but not of one with a bound: in `<out extends T>` the name
would be `extends`, which is none.

Tuples, conditional, mapped, query and constructor types, methods and signatures of
objects, parameters that are optional or take the rest, and modifiers of type parameters
are left out.

Main definitions:

- `TypeNotation.Tree`: what types are read as.
- `TypeNotation.Derives`: the productions.
-/

namespace EcmaWriter

namespace TypeNotation

open Script (commaSeparated enclosed isReference)

/-- Types have the tokens of expressions. -/
abbrev Token := Script.Token

/-! ## Trees -/

/-- The operators before a type. -/
inductive Operator
  | keyOf
  | unique
  | readonly
deriving DecidableEq

mutual

/-- A type as it is read. -/
inductive Tree
  | keyword (name : String)
  | string (value : String)
  | reference (path : List String) (arguments : List Tree)
  | object (fields : List Field)
  | array (element : Tree)
  | indexed (base index : Tree)
  | operation (op : Operator) (operand : Tree)
  | function (binders : List Binder) (parameters : List Tree) (result : Tree)
  | union (members : List Tree)
  | intersection (members : List Tree)

/-- A member of an object type. -/
structure Field where
  name : String
  isReadonly : Bool
  isOptional : Bool
  type : Tree

/-- A type parameter, which may have a bound. -/
structure Binder where
  name : String
  bound : Option Tree

end

/-! ## Words -/

/-- Words that are types by themselves. -/
def keywordTypes : List String :=
  ["any", "bigint", "boolean", "false", "never", "null", "number", "object", "string", "symbol",
    "this", "true", "undefined", "unknown", "void"]

/-- Words that go on to a type after them and name no type. -/
def operatorWords : List String :=
  ["keyof", "unique", "readonly", "infer"]

/-- Whether a word can be the first of a reference to a type. -/
def isTypeName (name : String) : Bool :=
  isReference name && !keywordTypes.contains name && !operatorWords.contains name

/-- Words that change a declaration after them. Not all of them are reserved. -/
def modifierWords : List String :=
  ["abstract", "accessor", "async", "const", "declare", "default", "export", "in", "out",
    "override", "private", "protected", "public", "readonly", "static"]

/-- Whether a word is a modifier where another word follows. -/
def isModifier (name : String) : Bool :=
  modifierWords.contains name

/-- The word of an operator. -/
def Operator.word : Operator → String
  | keyOf => "keyof"
  | unique => "unique"
  | readonly => "readonly"

/-! ## Phrases -/

/-- The kinds of phrases, from tight to loose, and what stands between the braces of an
object type. -/
inductive Phrase
  | primary
  /-- A primary type with brackets after it. -/
  | suffixed
  /-- A type with operators before it. -/
  | prefixed
  | intersection
  | union
  | type
  | fields
deriving DecidableEq

/-- The kinds of phrases that a phrase may simply be. -/
def Phrase.alternatives : Phrase → List Phrase
  | primary => []
  | suffixed => [primary]
  | prefixed => [suffixed]
  | intersection => [prefixed]
  | union => [intersection]
  | type => [union]
  | fields => []

/-! ## Productions -/

/-- Tokens with the tree that they are read as. -/
structure Reading where
  tokens : List Token
  tree : Tree

/-- A list in angle brackets. There are no empty ones. -/
def angled (pieces : List (List Token)) : List Token :=
  if pieces.isEmpty then [] else enclosed "<" ">" (commaSeparated pieces)

/-- Names, each with a point before it. -/
def dotted (names : List String) : List Token :=
  names.flatMap fun name => [.punctuator ".", .word name]

/-- A member of an object type, with the reading of its type. A name may stand in quotes. -/
structure FieldReading extends Reading where
  name : String
  isQuoted : Bool
  isReadonly : Bool
  isOptional : Bool

namespace FieldReading

def written (f : FieldReading) : List Token :=
  (if f.isReadonly then [.word "readonly"] else [])
    ++ (if f.isQuoted then .string f.name else .word f.name)
      :: (if f.isOptional then [.punctuator "?"] else [])
    ++ .punctuator ":" :: f.tokens

def field (f : FieldReading) : Field :=
  ⟨f.name, f.isReadonly, f.isOptional, f.tree⟩

end FieldReading

/-- A type parameter, with the reading of its bound. -/
structure BinderReading where
  name : String
  bound : Option Reading

namespace BinderReading

def written (b : BinderReading) : List Token :=
  .word b.name ::
    match b.bound with
    | none => []
    | some r => .word "extends" :: r.tokens

def binder (b : BinderReading) : Binder :=
  ⟨b.name, b.bound.map Reading.tree⟩

/-- Whether the name is read as one. Before a bound a modifier is not. -/
def isNamed (b : BinderReading) : Bool :=
  isReference b.name && (b.bound.isNone || !isModifier b.name)

end BinderReading

/-- A parameter of a function type, with the reading of its type. -/
structure ParameterReading extends Reading where
  name : String

def ParameterReading.written (q : ParameterReading) : List Token :=
  .word q.name :: .punctuator ":" :: q.tokens

/-- The productions of the grammar. -/
inductive Derives : Phrase → List Token → Tree → Prop
  | unit {A B : Phrase} {ts : List Token} {t : Tree} (h : B ∈ A.alternatives)
      (d : Derives B ts t) : Derives A ts t
  | keyword {name : String} (h : name ∈ keywordTypes) :
    Derives .primary [.word name] (.keyword name)
  | string (value : String) : Derives .primary [.string value] (.string value)
  | reference {head : String} (rest : List String) (args : List Reading)
      (h : isTypeName head = true) (d : ∀ a ∈ args, Derives .type a.tokens a.tree) :
    Derives .primary (.word head :: (dotted rest ++ angled (args.map Reading.tokens)))
      (.reference (head :: rest) (args.map Reading.tree))
  | parenthesized {ts : List Token} {t : Tree} (d : Derives .type ts t) :
    Derives .primary (enclosed "(" ")" ts) t
  | object {ts : List Token} {t : Tree} (d : Derives .fields ts t) :
    Derives .primary (enclosed "\x7b" "\x7d" ts) t
  | noField : Derives .fields [] (.object [])
  | lastField (f : FieldReading) (d : Derives .type f.tokens f.tree) :
    Derives .fields f.written (.object [f.field])
  | moreFields {ts : List Token} {fields : List Field} (f : FieldReading) {symbol : String}
      (h : symbol = ";" ∨ symbol = ",") (d : Derives .type f.tokens f.tree)
      (ds : Derives .fields ts (.object fields)) :
    Derives .fields (f.written ++ .punctuator symbol :: ts) (.object (f.field :: fields))
  | array {ts : List Token} {t : Tree} (d : Derives .suffixed ts t) :
    Derives .suffixed (ts ++ enclosed "[" "]" []) (.array t)
  | indexed {ts us : List Token} {t u : Tree} (d : Derives .suffixed ts t)
      (du : Derives .type us u) : Derives .suffixed (ts ++ enclosed "[" "]" us) (.indexed t u)
  | operation {ts : List Token} {t : Tree} (op : Operator) (d : Derives .prefixed ts t) :
    Derives .prefixed (.word op.word :: ts) (.operation op t)
  | intersection {ts us : List Token} {t u : Tree} (d : Derives .intersection ts t)
      (du : Derives .prefixed us u) :
    Derives .intersection (ts ++ .punctuator "&" :: us) (.intersection [t, u])
  | union {ts us : List Token} {t u : Tree} (d : Derives .union ts t)
      (du : Derives .intersection us u) :
    Derives .union (ts ++ .punctuator "|" :: us) (.union [t, u])
  | leadingBar {ts : List Token} {t : Tree} (d : Derives .union ts t) :
    Derives .type (.punctuator "|" :: ts) t
  | function {ts : List Token} {t : Tree} (binders : List BinderReading)
      (parameters : List ParameterReading) (hb : ∀ b ∈ binders, b.isNamed = true)
      (hq : ∀ q ∈ parameters, isReference q.name = true)
      (db : ∀ b ∈ binders, ∀ r ∈ b.bound, Derives .type r.tokens r.tree)
      (dq : ∀ q ∈ parameters, Derives .type q.tokens q.tree) (d : Derives .type ts t) :
    Derives .type
      (angled (binders.map BinderReading.written)
        ++ enclosed "(" ")" (commaSeparated (parameters.map ParameterReading.written))
        ++ .punctuator "=>" :: ts)
      (.function (binders.map BinderReading.binder)
        (parameters.map fun q => q.tree) t)

end TypeNotation

end EcmaWriter
