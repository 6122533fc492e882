import EcmaWriter.Proofs.Script.Parser
import EcmaWriter.Proofs.TypeNotation.Grammar

/-!
# EcmaWriter - A parser of types

A parser by recursive descent for the tokens of types.  The token after an opening
parenthesis tells whether the parenthesis is around a type or around parameters.  The
parser accepts more than the grammar; what counts is that it is a function.

What follows a phrase decides where the parser stops, so every symbol that goes on with a
type has a rank.

Main definitions:

- `TypeNotation.Parser.type`: the parser.
- `TypeNotation.opensFunction`: how function types are told from others.
- `TypeNotation.rank`: what goes on with a phrase.
-/

namespace EcmaWriter

namespace TypeNotation

open Script (takeMark)

/-! ## Looking ahead -/

/-- Whether what stands after an opening parenthesis is the parameters of a function. -/
def opensParameters : List Token → Bool
  | .punctuator ")" :: _ => true
  | .word _ :: .punctuator ":" :: _ => true
  | _ => false

/-- Whether a function type starts with tokens. -/
def opensFunction : List Token → Bool
  | .punctuator "<" :: _ => true
  | .punctuator "(" :: rest => opensParameters rest
  | _ => false

/-- The operator with a word. -/
def operatorOf? : Token → Option Operator
  | .word "keyof" => some .keyOf
  | .word "unique" => some .unique
  | .word "readonly" => some .readonly
  | _ => none

/-- The names that stand after points, with what follows them. -/
def takeNames : List Token → List String × List Token
  | .punctuator "." :: .word name :: rest => (name :: (takeNames rest).1, (takeNames rest).2)
  | ts => ([], ts)

/-- The name of a member and whether it is for reading only. -/
def takeFieldName : List Token → Option ((Bool × String) × List Token)
  | .word "readonly" :: .word name :: rest => some ((true, name), rest)
  | .word "readonly" :: .string name :: rest => some ((true, name), rest)
  | .word name :: rest => some ((false, name), rest)
  | .string name :: rest => some ((false, name), rest)
  | _ => none

/-- The tokens after a mark between members. -/
def takeSeparator (ts : List Token) : Option (List Token) :=
  match takeMark ";" ts with
  | some rest => some rest
  | none => takeMark "," ts

theorem length_of_takeMark {symbol : String} {ts rest : List Token}
    (h : takeMark symbol ts = some rest) : rest.length < ts.length := by
  match ts with
  | [] => exact absurd h (by simp [takeMark])
  | .number _ :: _ => exact absurd h (by simp [takeMark])
  | .string _ :: _ => exact absurd h (by simp [takeMark])
  | .word _ :: _ => exact absurd h (by simp [takeMark])
  | .punctuator other :: ts =>
      rw [takeMark] at h
      split at h
      · obtain rfl := Option.some.inj h
        exact Nat.lt_succ_self _
      · contradiction

/-! ## The parser -/

/-- The lists of the grammar. -/
inductive ListKind
  | arguments
  | binders
  | parameters

/-- The symbol that closes a list. -/
def ListKind.closing : ListKind → String
  | arguments => ">"
  | binders => ">"
  | parameters => ")"

/-- What stands in a list: a type, a name or both. -/
structure Entry where
  name : String
  type : Option Tree

/-- An entry as a type parameter. -/
def Entry.binder (e : Entry) : Binder :=
  ⟨e.name, e.type⟩

namespace Parser

-- No phrase leaves more tokens than it was given.  The parser asks for this where it goes
-- on, so that it ends on all tokens.
mutual

/-- A type. -/
def type (ts : List Token) : Option (Tree × List Token) :=
  match _hbar : takeMark "|" ts with
  | some rest => union rest
  | none => if opensFunction ts then function ts else union ts
termination_by 20 * ts.length + 7
decreasing_by
  · have := length_of_takeMark _hbar
    omega
  · omega
  · omega

/-- Type parameters, parameters and the result. -/
def function (ts : List Token) : Option (Tree × List Token) := do
  let (binders, rest) ← binderList ts
  let rest ← takeMark "(" rest
  if rest.length < ts.length then do
    let (parameters, rest) ← parameterList rest
    let rest ← takeMark "=>" rest
    if rest.length < ts.length then do
      let (t, rest) ← type rest
      some (.function (binders.map Entry.binder) (parameters.filterMap Entry.type) t, rest)
    else none
  else none
termination_by 20 * ts.length + 1

/-- Type parameters, if there are any. -/
def binderList (ts : List Token) : Option (List Entry × List Token) :=
  match _hopening : takeMark "<" ts with
  | none => some ([], ts)
  | some rest => entries .binders rest
termination_by 20 * ts.length
decreasing_by
  have := length_of_takeMark _hopening
  omega

/-- Parameters up to the closing parenthesis. -/
def parameterList (ts : List Token) : Option (List Entry × List Token) :=
  match takeMark ")" ts with
  | some rest => some ([], rest)
  | none => entries .parameters ts
termination_by 20 * ts.length + 10

/-- Entries of a list up to its closing symbol, at least one. -/
def entries (kind : ListKind) (ts : List Token) : Option (List Entry × List Token) := do
  let (e, rest) ← entry kind ts
  match takeMark "," rest with
  | some rest =>
    if rest.length < ts.length then do
      let (list, rest) ← entries kind rest
      some (e :: list, rest)
    else none
  | none => do
    let rest ← takeMark kind.closing rest
    some ([e], rest)
termination_by 20 * ts.length + 9

/-- An entry of a list. -/
def entry (kind : ListKind) (ts : List Token) : Option (Entry × List Token) :=
  match kind, ts with
  | .arguments, ts => do
    let (t, rest) ← type ts
    some (⟨"", some t⟩, rest)
  | .binders, .word name :: .word "extends" :: rest => do
    let (t, rest) ← type rest
    some (⟨name, some t⟩, rest)
  | .binders, .word name :: rest => some (⟨name, none⟩, rest)
  | .parameters, .word name :: .punctuator ":" :: rest => do
    let (t, rest) ← type rest
    some (⟨name, some t⟩, rest)
  | _, _ => none
termination_by 20 * ts.length + 8

/-- Intersections with bars between them. -/
def union (ts : List Token) : Option (Tree × List Token) := do
  let (t, rest) ← intersection ts
  if rest.length ≤ ts.length then unionMore t rest else none
termination_by 20 * ts.length + 5

/-- Go on with the members of a union. -/
def unionMore (t : Tree) (ts : List Token) : Option (Tree × List Token) :=
  match _hbar : takeMark "|" ts with
  | none => some (t, ts)
  | some rest => do
    let (u, after) ← intersection rest
    if after.length ≤ rest.length then unionMore (.union [t, u]) after else none
termination_by 20 * ts.length
decreasing_by
  · have := length_of_takeMark _hbar
    omega
  · have := length_of_takeMark _hbar
    omega

/-- Types with ampersands between them. -/
def intersection (ts : List Token) : Option (Tree × List Token) := do
  let (t, rest) ← prefixed ts
  if rest.length ≤ ts.length then intersectionMore t rest else none
termination_by 20 * ts.length + 4

/-- Go on with the members of an intersection. -/
def intersectionMore (t : Tree) (ts : List Token) : Option (Tree × List Token) :=
  match _hmark : takeMark "&" ts with
  | none => some (t, ts)
  | some rest => do
    let (u, after) ← prefixed rest
    if after.length ≤ rest.length then intersectionMore (.intersection [t, u]) after else none
termination_by 20 * ts.length
decreasing_by
  · have := length_of_takeMark _hmark
    omega
  · have := length_of_takeMark _hmark
    omega

/-- Type operators and their operand. -/
def prefixed (ts : List Token) : Option (Tree × List Token) :=
  match ts with
  | [] => none
  | token :: rest =>
    match operatorOf? token with
    | none => suffixed (token :: rest)
    | some op => do
      let (t, rest) ← prefixed rest
      some (.operation op t, rest)
termination_by 20 * ts.length + 3

/-- A type and the brackets after it. -/
def suffixed (ts : List Token) : Option (Tree × List Token) := do
  let (t, rest) ← primary ts
  if rest.length ≤ ts.length then suffixes t rest else none
termination_by 20 * ts.length + 2

/-- Go on with brackets. -/
def suffixes (t : Tree) (ts : List Token) : Option (Tree × List Token) :=
  match ts with
  | .punctuator "[" :: .punctuator "]" :: rest => suffixes (.array t) rest
  | .punctuator "[" :: ts => do
    let (u, rest) ← type ts
    let rest ← takeMark "]" rest
    if rest.length ≤ ts.length then suffixes (.indexed t u) rest else none
  | ts => some (t, ts)
termination_by 20 * ts.length

/-- Words, literals and brackets. -/
def primary (ts : List Token) : Option (Tree × List Token) :=
  match ts with
  | .string value :: rest => some (.string value, rest)
  | .word name :: rest =>
    if name ∈ keywordTypes then some (.keyword name, rest)
    else
      match takeMark "<" (takeNames rest).2 with
      | none => some (.reference (name :: (takeNames rest).1) [], (takeNames rest).2)
      | some inner =>
        if inner.length ≤ rest.length then do
          let (list, after) ← entries .arguments inner
          some (.reference (name :: (takeNames rest).1) (list.filterMap Entry.type), after)
        else none
  | .punctuator "(" :: rest => do
    let (t, rest) ← type rest
    let rest ← takeMark ")" rest
    some (t, rest)
  | .punctuator "\x7b" :: rest => do
    let (list, rest) ← fields rest
    some (.object list, rest)
  | _ => none
termination_by 20 * ts.length + 1

/-- Members of an object type up to its brace. -/
def fields (ts : List Token) : Option (List Field × List Token) :=
  match takeMark "\x7d" ts with
  | some rest => some ([], rest)
  | none => do
    let (f, rest) ← field ts
    match takeSeparator rest with
    | some rest =>
      if rest.length < ts.length then do
        let (list, rest) ← fields rest
        some (f :: list, rest)
      else none
    | none => do
      let rest ← takeMark "\x7d" rest
      some ([f], rest)
termination_by 20 * ts.length + 1

/-- A member of an object type. -/
def field (ts : List Token) : Option (Field × List Token) := do
  let ((isReadonly, name), rest) ← takeFieldName ts
  let inner ← takeMark ":" ((takeMark "?" rest).getD rest)
  if inner.length < ts.length then do
    let (t, after) ← type inner
    some (⟨name, isReadonly, (takeMark "?" rest).isSome, t⟩, after)
  else none
termination_by 20 * ts.length

end

end Parser

end TypeNotation

end EcmaWriter
