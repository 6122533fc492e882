import EcmaWriter.Tree.Operator

/-!
# EcmaWriter - A grammar of JavaScript expressions

The reference against which written expressions are read: tokens, the trees that they
stand for, and the productions of the language for literals, operators, member access,
calls, `new` and arrow functions with an expression for a body.  The grammar knows
nothing of how text is written; its operators, levels and keywords are listed here.

Precedence is a chain of phrases, each of which may be a phrase of the next tighter
kind.  What is special is what the language makes special: a power has no unary
operator on its left, `??` stands beside no `&&` or `||`, the first argument list after
`new` belongs to it, and a brace after an arrow opens a block.

The language has `await` as an operator only inside functions that are asynchronous.  The
grammar has no parameter for this and takes `await` as an operator in every context.

Main definitions:

- `Token`, `Tree`: what is read and what it is read as.
- `Phrase.alternatives`, `BinaryOperator.production`: the levels of operators.
- `Derives`: the productions.
-/

namespace EcmaWriter

namespace Script

/-! ## Tokens and trees -/

/-- A token. Whatever has the shape of an identifier is a word. -/
inductive Token
  | number (value : Nat)
  | string (value : String)
  | word (text : String)
  | punctuator (text : String)
deriving DecidableEq

mutual

/-- An expression as it is read. There are no negative numbers. -/
inductive Tree
  | number (value : Nat)
  | string (value : String)
  | boolean (value : Bool)
  | null
  | undefined
  | reference (name : String)
  | unary (op : UnaryOperator) (operand : Tree)
  | binary (op : BinaryOperator) (left right : Tree)
  | conditional (condition thenTree elseTree : Tree)
  | array (items : List Item)
  | object (properties : List Property)
  | lambda (isAsync : Bool) (parameters : List String) (body : Tree)
  | get (base property : Tree)
  | call (callee : Tree) (arguments : List Tree)
  | new (callee : Tree) (arguments : List Tree)

/-- An item of an array. -/
structure Item where
  tree : Tree
  spread : Bool

/-- A member of an object. A name is a key as a string would be. -/
inductive Property
  | spread (tree : Tree)
  | keyValue (key value : Tree)

end

/-! ## Words and operators -/

/-- Words that are not references: reserved words, also those of strict mode, and
literals. -/
def keywords : List String :=
  ["await", "break", "case", "catch", "class", "const", "continue", "debugger", "default",
    "delete", "do", "else", "enum", "export", "extends", "false", "finally", "for",
    "function", "if", "implements", "import", "in", "instanceof", "interface", "let", "new",
    "null", "package", "private", "protected", "public", "return", "static", "super",
    "switch", "this", "throw", "true", "try", "typeof", "undefined", "var", "void", "while",
    "with", "yield"]

/-- Whether a word can be a reference or a parameter. -/
def isReference (name : String) : Bool :=
  !keywords.contains name

/-- The token of a unary operator. -/
def unaryToken : UnaryOperator → Token
  | .minus => .punctuator "-"
  | .bitwiseNot => .punctuator "~"
  | .logicalNot => .punctuator "!"
  | .typeOf => .word "typeof"
  | .await => .word "await"

/-! ## Phrases -/

/-- The kinds of phrases, from tight to loose. -/
inductive Phrase
  | primary
  | member
  | construction
  | call
  | leftHand
  | unary
  | power
  | product
  | sum
  | shift
  | comparison
  | equality
  | bitAnd
  | bitXor
  | bitOr
  | conjunction
  | disjunction
  | coalescence
  | coalesceHead
  | shortCircuit
  | conditional
  | assignment
deriving DecidableEq

/-- The kinds of phrases that a phrase may simply be. -/
def Phrase.alternatives : Phrase → List Phrase
  | primary => []
  | member => [primary]
  | construction => [member]
  | call => []
  | leftHand => [construction, call]
  | unary => [leftHand]
  | power => [unary]
  | product => [power]
  | sum => [product]
  | shift => [sum]
  | comparison => [shift]
  | equality => [comparison]
  | bitAnd => [equality]
  | bitXor => [bitAnd]
  | bitOr => [bitXor]
  | conjunction => [bitOr]
  | disjunction => [conjunction]
  | coalescence => []
  | coalesceHead => [coalescence, bitOr]
  | shortCircuit => [disjunction, coalescence]
  | conditional => [shortCircuit]
  | assignment => [conditional]

/-- The kinds of phrases that a phrase may be after at most some number of steps. -/
def Phrase.within : Nat → Phrase → List Phrase
  | 0, A => [A]
  | steps + 1, A => A :: A.alternatives.flatMap (within steps)

/-- Whether a phrase may be of a kind, directly or through others. -/
def Phrase.covers (A B : Phrase) : Bool :=
  (A.within 21).contains B

/-- The production of a binary operator. -/
structure Production where
  symbol : String
  left : Phrase
  right : Phrase
  whole : Phrase

/-- The productions of the binary operators. A power repeats on the right, all others
on the left. -/
def production : BinaryOperator → Production
  | .exponentiation => ⟨"**", .leftHand, .power, .power⟩
  | .multiplication => ⟨"*", .product, .power, .product⟩
  | .division => ⟨"/", .product, .power, .product⟩
  | .remainder => ⟨"%", .product, .power, .product⟩
  | .addition => ⟨"+", .sum, .product, .sum⟩
  | .subtraction => ⟨"-", .sum, .product, .sum⟩
  | .leftShift => ⟨"<<", .shift, .sum, .shift⟩
  | .signedRightShift => ⟨">>", .shift, .sum, .shift⟩
  | .unsignedRightShift => ⟨">>>", .shift, .sum, .shift⟩
  | .lessThan => ⟨"<", .comparison, .shift, .comparison⟩
  | .lessThanOrEqual => ⟨"<=", .comparison, .shift, .comparison⟩
  | .equal => ⟨"===", .equality, .comparison, .equality⟩
  | .notEqual => ⟨"!==", .equality, .comparison, .equality⟩
  | .bitwiseAnd => ⟨"&", .bitAnd, .equality, .bitAnd⟩
  | .bitwiseXor => ⟨"^", .bitXor, .bitAnd, .bitXor⟩
  | .bitwiseOr => ⟨"|", .bitOr, .bitXor, .bitOr⟩
  | .logicalAnd => ⟨"&&", .conjunction, .bitOr, .conjunction⟩
  | .logicalOr => ⟨"||", .disjunction, .conjunction, .disjunction⟩
  | .nullishCoalescing => ⟨"??", .coalesceHead, .bitOr, .coalescence⟩

/-! ## Productions -/

/-- Tokens with the tree that they are read as. -/
structure Reading where
  tokens : List Token
  tree : Tree

/-- Tokens with commas between them. -/
def commaSeparated : List (List Token) → List Token
  | [] => []
  | [ts] => ts
  | ts :: rest => ts ++ .punctuator "," :: commaSeparated rest

/-- Tokens in a pair of brackets. -/
def enclosed (opening closing : String) (ts : List Token) : List Token :=
  .punctuator opening :: ts ++ [.punctuator closing]

/-- Arguments in parentheses. -/
def arguments (args : List Reading) : List Token :=
  enclosed "(" ")" (commaSeparated (args.map Reading.tokens))

/-- An item of an array, with the reading of its expression. -/
structure ItemReading extends Reading where
  spread : Bool

namespace ItemReading

def written (i : ItemReading) : List Token :=
  (if i.spread then [.punctuator "..."] else []) ++ i.tokens

def item (i : ItemReading) : Item :=
  ⟨i.tree, i.spread⟩

end ItemReading

/-- The forms of members of an object, with the readings of their expressions. -/
inductive PropertyReading
  | spread (value : Reading)
  | named (name : String) (value : Reading)
  | quoted (key : String) (value : Reading)
  | computed (key value : Reading)
  | shorthand (name : String)

namespace PropertyReading

def written : PropertyReading → List Token
  | spread value => .punctuator "..." :: value.tokens
  | named name value => .word name :: .punctuator ":" :: value.tokens
  | quoted key value => .string key :: .punctuator ":" :: value.tokens
  | computed key value => enclosed "[" "]" key.tokens ++ .punctuator ":" :: value.tokens
  | shorthand name => [.word name]

def property : PropertyReading → Property
  | spread value => .spread value.tree
  | named name value => .keyValue (.string name) value.tree
  | quoted key value => .keyValue (.string key) value.tree
  | computed key value => .keyValue key.tree value.tree
  | shorthand name => .keyValue (.string name) (.reference name)

/-- The expressions in a member. -/
def readings : PropertyReading → List Reading
  | spread value => [value]
  | named _ value => [value]
  | quoted _ value => [value]
  | computed key value => [key, value]
  | shorthand _ => []

/-- Only a reference can be a member by itself. -/
def isLegal : PropertyReading → Bool
  | shorthand name => isReference name
  | _ => true

end PropertyReading

/-- The productions of the grammar. -/
inductive Derives : Phrase → List Token → Tree → Prop
  | unit {A B : Phrase} {ts : List Token} {t : Tree} (h : B ∈ A.alternatives)
      (d : Derives B ts t) : Derives A ts t
  | number (value : Nat) : Derives .primary [.number value] (.number value)
  | string (value : String) : Derives .primary [.string value] (.string value)
  | boolean (value : Bool) :
    Derives .primary [.word (if value then "true" else "false")] (.boolean value)
  | null : Derives .primary [.word "null"] .null
  | undefined : Derives .primary [.word "undefined"] .undefined
  | reference {name : String} (h : isReference name = true) :
    Derives .primary [.word name] (.reference name)
  | parenthesized {ts : List Token} {t : Tree} (d : Derives .assignment ts t) :
    Derives .primary (enclosed "(" ")" ts) t
  | array (items : List ItemReading)
      (d : ∀ i ∈ items, Derives .assignment i.tokens i.tree) :
    Derives .primary (enclosed "[" "]" (commaSeparated (items.map ItemReading.written)))
      (.array (items.map ItemReading.item))
  | object (properties : List PropertyReading) (h : ∀ p ∈ properties, p.isLegal = true)
      (d : ∀ p ∈ properties, ∀ r ∈ p.readings, Derives .assignment r.tokens r.tree) :
    Derives .primary
      (enclosed "\x7b" "\x7d" (commaSeparated (properties.map PropertyReading.written)))
      (.object (properties.map PropertyReading.property))
  | dot {A : Phrase} {ts : List Token} {t : Tree} (name : String) (h : A = .member ∨ A = .call)
      (d : Derives A ts t) :
    Derives A (ts ++ [.punctuator ".", .word name]) (.get t (.string name))
  | index {A : Phrase} {ts us : List Token} {t u : Tree} (h : A = .member ∨ A = .call)
      (d : Derives A ts t) (du : Derives .assignment us u) :
    Derives A (ts ++ enclosed "[" "]" us) (.get t u)
  | new {ts : List Token} {t : Tree} (args : List Reading) (d : Derives .member ts t)
      (da : ∀ a ∈ args, Derives .assignment a.tokens a.tree) :
    Derives .member (.word "new" :: ts ++ arguments args) (.new t (args.map Reading.tree))
  | newBare {ts : List Token} {t : Tree} (d : Derives .construction ts t) :
    Derives .construction (.word "new" :: ts) (.new t [])
  | call {A : Phrase} {ts : List Token} {t : Tree} (args : List Reading)
      (h : A = .member ∨ A = .call) (d : Derives A ts t)
      (da : ∀ a ∈ args, Derives .assignment a.tokens a.tree) :
    Derives .call (ts ++ arguments args) (.call t (args.map Reading.tree))
  | unary {ts : List Token} {t : Tree} (op : UnaryOperator) (d : Derives .unary ts t) :
    Derives .unary (unaryToken op :: ts) (.unary op t)
  | binary {ts us : List Token} {t u : Tree} (op : BinaryOperator)
      (d : Derives (production op).left ts t) (du : Derives (production op).right us u) :
    Derives (production op).whole (ts ++ .punctuator (production op).symbol :: us)
      (.binary op t u)
  | conditional {ts us vs : List Token} {t u v : Tree} (d : Derives .shortCircuit ts t)
      (du : Derives .assignment us u) (dv : Derives .assignment vs v) :
    Derives .conditional (ts ++ .punctuator "?" :: us ++ .punctuator ":" :: vs)
      (.conditional t u v)
  | arrow {ts : List Token} {t : Tree} (isAsync : Bool) (parameters : List String)
      (h : ∀ p ∈ parameters, isReference p = true) (d : Derives .assignment ts t)
      (hbrace : ts.head? ≠ some (.punctuator "\x7b")) :
    Derives .assignment
      ((if isAsync then [.word "async"] else [])
        ++ enclosed "(" ")" (commaSeparated (parameters.map fun p => [.word p]))
        ++ .punctuator "=>" :: ts)
      (.lambda isAsync parameters t)

/-- A phrase is any kind that it may be after some steps. -/
theorem Derives.within {A B : Phrase} {ts : List Token} {t : Tree} (steps : Nat)
    (h : B ∈ A.within steps) (d : Derives B ts t) : Derives A ts t := by
  induction steps generalizing A with
  | zero =>
      obtain rfl := List.mem_singleton.mp h
      exact d
  | succ steps ih =>
      rw [Phrase.within, List.mem_cons, List.mem_flatMap] at h
      rcases h with rfl | ⟨C, hC, hB⟩
      · exact d
      · exact .unit hC (ih hB)

theorem Derives.lift {A B : Phrase} {ts : List Token} {t : Tree} (h : A.covers B = true)
    (d : Derives B ts t) : Derives A ts t :=
  d.within 21 (List.contains_iff_mem.mp h)

end Script

end EcmaWriter
