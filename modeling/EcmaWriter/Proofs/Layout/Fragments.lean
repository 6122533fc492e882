import EcmaWriter.Proofs.Scoping.FunctionTypes

/-!
# EcmaWriter - Fragments of layouts

What is written of a node has fragments: lexemes of the node itself, and its parts.  For some
parts something else is written: a name after a point instead of the string that it is, or
nothing at all for an empty else.

The fragments keep which part stands where, also if two parts are written alike.  They are
given for every node beside its layout, which they are put together to.

Main results:

- Definitions `Fragment.texts`, `Fragment.writings`: what is written of fragments, and the parts
  among them.
- Theorems `Fragment.texts_separated`, `Fragment.texts_lines` and so on: lists of fragments are
  put together as lists of lexemes are.
- Definition `Writing.fragments`: the fragments of a node in their order.
-/

namespace EcmaWriter

open Lexeme (mark word space newline indent digits)

/-- A fragment of what is written of a node. -/
inductive Fragment
  /-- What the node writes by itself. -/
  | own (ls : List Lexeme)
  /-- A part as it is written. -/
  | part (w : Writing)
  /-- A part for which something else is written. -/
  | instead (w : Writing) (ls : List Lexeme)

namespace Fragment

/-- What is written of a fragment. -/
def lexemes : Fragment → List Lexeme
  | own ls => ls
  | part w => w.lexemes
  | instead _ ls => ls

/-- The part that a fragment is. -/
def writing? : Fragment → Option Writing
  | own _ => none
  | part w => some w
  | instead w _ => some w

/-- The part that is written of a fragment. -/
def part? : Fragment → Option Writing
  | part w => some w
  | _ => none

/-- What is written of fragments, one after the other. -/
def texts (fs : List Fragment) : List Lexeme :=
  fs.flatMap lexemes

/-- The parts among fragments. -/
def writings (fs : List Fragment) : List Writing :=
  fs.filterMap writing?

@[simp] theorem texts_nil : texts [] = [] := rfl

/-- Lexemes of the form stand for themselves. -/
@[simp] theorem texts_own (ls : List Lexeme) (fs : List Fragment) :
    texts (own ls :: fs) = ls ++ texts fs := rfl

/-- A part stands for what is written of it. -/
@[simp] theorem texts_part (w : Writing) (fs : List Fragment) :
    texts (part w :: fs) = w.lexemes ++ texts fs := rfl

/-- A part that is replaced stands for what is there instead. -/
@[simp] theorem texts_instead (w : Writing) (ls : List Lexeme) (fs : List Fragment) :
    texts (instead w ls :: fs) = ls ++ texts fs := rfl

@[simp] theorem texts_append (fs gs : List Fragment) : texts (fs ++ gs) = texts fs ++ texts gs :=
  List.flatMap_append

@[simp] theorem writings_nil : writings [] = [] := rfl

/-- Lexemes of the form are no part. -/
@[simp] theorem writings_own (ls : List Lexeme) (fs : List Fragment) :
    writings (own ls :: fs) = writings fs := rfl

/-- A part is among the parts. -/
@[simp] theorem writings_part (w : Writing) (fs : List Fragment) :
    writings (part w :: fs) = w :: writings fs := rfl

/-- A part that is replaced is still among the parts. -/
@[simp] theorem writings_instead (w : Writing) (ls : List Lexeme) (fs : List Fragment) :
    writings (instead w ls :: fs) = w :: writings fs := rfl

@[simp] theorem writings_append (fs gs : List Fragment) :
    writings (fs ++ gs) = writings fs ++ writings gs :=
  List.filterMap_append

/-- A part among fragments is there as it is, or something else is there for it. -/
theorem exists_split_or_instead {w : Writing} {fs : List Fragment}
    (h : w ∈ writings fs) :
    (∃ before after, fs = before ++ .part w :: after) ∨ ∃ ls, .instead w ls ∈ fs := by
  obtain ⟨f, hf, hw⟩ := List.mem_filterMap.mp h
  cases f with
  | own ls => exact nomatch hw
  | part v =>
      obtain rfl := Option.some.inj hw
      exact Or.inl (List.append_of_mem hf)
  | instead v ls =>
      obtain rfl := Option.some.inj hw
      exact Or.inr ⟨ls, hf⟩

/-! ## Lists of fragments -/

/-- Fragments in parentheses if that is needed. -/
def wrappedIf (needed : Bool) (fs : List Fragment) : List Fragment :=
  if needed then own [mark "("] :: fs ++ [own [mark ")"]] else fs

/-- Fragments with a separator between them. -/
def separated (separator : List Lexeme) : List (List Fragment) → List Fragment
  | [] => []
  | [fs] => fs
  | fs :: rest => fs ++ own separator :: separated separator rest

/-- Fragments with commas between them. -/
def listed (pieces : List (List Fragment)) : List Fragment :=
  separated [mark ",", space] pieces

/-- A list in parentheses. -/
def parenthesized (pieces : List (List Fragment)) : List Fragment :=
  own [mark "("] :: listed pieces ++ [own [mark ")"]]

/-- A list in angle brackets, or nothing if it is empty. -/
def angled (pieces : List (List Fragment)) : List Fragment :=
  if pieces.isEmpty then [] else own [mark "<"] :: listed pieces ++ [own [mark ">"]]

/-- The members of an object on one line. -/
def braced (separator : List Lexeme) (members : List (List Fragment)) : List Fragment :=
  if members.isEmpty then [own [mark "\x7b", mark "\x7d"]]
  else own [mark "\x7b", space] :: separated separator members ++ [own [space, mark "\x7d"]]

/-- Lines in braces. -/
def lines (p : Place) (pieces : List (List Fragment)) : List Fragment :=
  if pieces.isEmpty then [own [mark "\x7b", mark "\x7d"]]
  else own [mark "\x7b", newline] :: pieces.flatMap (· ++ [own [newline]])
    ++ [own [indent p.level, mark "\x7d"]]

/-- Text in parentheses that may be left out. -/
@[simp] theorem texts_wrappedIf (needed : Bool) (fs : List Fragment) :
    texts (wrappedIf needed fs) = Lexeme.wrappedIf needed (texts fs) := by
  cases needed <;> simp [wrappedIf, Lexeme.wrappedIf, Lexeme.parenthesized]

/-- Text of pieces with a separator. -/
@[simp] theorem texts_separated (separator : List Lexeme) (pieces : List (List Fragment)) :
    texts (separated separator pieces) = Lexeme.separated separator (pieces.map texts) := by
  induction pieces with
  | nil => rfl
  | cons fs pieces ih =>
      cases pieces with
      | nil => rfl
      | cons gs pieces =>
          rw [separated, texts_append, texts_own, ih, ← List.append_assoc]
          · rfl
          · exact List.cons_ne_nil _ _

/-- Text of pieces with commas. -/
@[simp] theorem texts_listed (pieces : List (List Fragment)) :
    texts (listed pieces) = Lexeme.listed (pieces.map texts) :=
  texts_separated _ pieces

/-- Text of a list in parentheses. -/
@[simp] theorem texts_parenthesized (pieces : List (List Fragment)) :
    texts (parenthesized pieces) =
      Lexeme.parenthesized (Lexeme.listed (pieces.map texts)) := by
  simp [parenthesized, Lexeme.parenthesized]

/-- Text of a list in angle brackets. -/
@[simp] theorem texts_angled (pieces : List (List Fragment)) :
    texts (angled pieces) = Lexeme.angled (pieces.map texts) := by
  cases pieces <;> simp [angled, Lexeme.angled]

/-- Text of members in curly brackets. -/
@[simp] theorem texts_braced (separator : List Lexeme) (members : List (List Fragment)) :
    texts (braced separator members) = Layout.braced separator (members.map texts) := by
  cases members <;> simp [braced, Layout.braced]

/-- Text of lines in curly brackets. -/
@[simp] theorem texts_lines (p : Place) (pieces : List (List Fragment)) :
    texts (lines p pieces) = Layout.lines p (pieces.map texts) := by
  have hlines : texts (pieces.flatMap (· ++ [own [newline]])) =
      (pieces.map texts).flatMap (· ++ [newline]) := by
    rw [texts, List.flatMap_assoc, List.flatMap_map]
    refine List.flatMap_congr fun fs _ => ?_
    exact texts_append fs [own [newline]]
  cases pieces with
  | nil => rfl
  | cons fs pieces =>
      rw [lines, Layout.lines, if_neg (by simp), if_neg (by simp), List.cons_append, texts_own,
        texts_append, hlines]
      simp

/-- Parentheses add no part. -/
@[simp] theorem writings_wrappedIf (needed : Bool) (fs : List Fragment) :
    writings (wrappedIf needed fs) = writings fs := by
  cases needed <;> simp [wrappedIf]

/-- A separator adds no part. -/
@[simp] theorem writings_separated (separator : List Lexeme) (pieces : List (List Fragment)) :
    writings (separated separator pieces) = pieces.flatMap writings := by
  induction pieces with
  | nil => rfl
  | cons fs pieces ih =>
      cases pieces with
      | nil => simp [separated]
      | cons gs pieces =>
          rw [separated, writings_append, writings_own, ih]
          · rfl
          · exact List.cons_ne_nil _ _

/-- Commas add no part. -/
@[simp] theorem writings_listed (pieces : List (List Fragment)) :
    writings (listed pieces) = pieces.flatMap writings :=
  writings_separated _ pieces

/-- The parts of a list in parentheses are those of its pieces. -/
@[simp] theorem writings_parenthesized (pieces : List (List Fragment)) :
    writings (parenthesized pieces) = pieces.flatMap writings := by
  simp [parenthesized]

/-- The parts of a list in angle brackets are those of its pieces. -/
@[simp] theorem writings_angled (pieces : List (List Fragment)) :
    writings (angled pieces) = pieces.flatMap writings := by
  cases pieces <;> simp [angled]

/-- The parts of members in curly brackets are those of the members. -/
@[simp] theorem writings_braced (separator : List Lexeme) (members : List (List Fragment)) :
    writings (braced separator members) = members.flatMap writings := by
  cases members <;> simp [braced]

/-- The parts of lines are those of the pieces on them. -/
@[simp] theorem writings_lines (p : Place) (pieces : List (List Fragment)) :
    writings (lines p pieces) = pieces.flatMap writings := by
  have hlines : writings (pieces.flatMap (· ++ [own [newline]])) = pieces.flatMap writings := by
    rw [writings, List.filterMap_flatMap]
    refine List.flatMap_congr fun fs _ => ?_
    rw [List.filterMap_append]
    exact List.append_nil _
  cases pieces with
  | nil => rfl
  | cons fs pieces =>
      rw [lines, if_neg (by simp), List.cons_append, writings_own, writings_append, hlines]
      simp

end Fragment

/-! ## Fragments of nodes -/

open Fragment
open Writing (ofExprs ofTypes annotations ofBody ofFunction)

section Forms

variable (p : Place) (inHead : Bool)

/-- An expression as a part. -/
def Fragment.ofExpr (e : Expr) : Fragment :=
  .part ⟨p, inHead, .expr e⟩

/-- A type as a part. -/
def Fragment.ofType (t : TypeExpr) : Fragment :=
  .part ⟨p, inHead, .type t⟩

/-- A block as a part. -/
def Fragment.ofBlock (bindings : List Identifier) (body : List Statement) : Fragment :=
  .part ⟨p, inHead, .block bindings body⟩

/-- Types as arguments. -/
def Fragment.arguments (ts : List TypeExpr) : List Fragment :=
  angled (ts.map fun t => [ofType p inHead t])

/-- A type after a colon, where types are written. -/
def Fragment.ascribed : Option TypeExpr → List Fragment
  | none => []
  | some t => if p.hasTypes then [own [mark ":", space], ofType p inHead t] else []

/-- A type parameter: its name, and the constraint after `extends`. -/
def TypeParameter.fragments (q : TypeParameter) : List Fragment :=
  [own [Layout.name q.name, space, word "extends", space],
    match q.constraint with
    | none => own [word "unknown"]
    | some t => ofType p inHead t]

/-- A parameter: its name, and its type if there is one. -/
def Parameter.fragments (q : Parameter) : List Fragment :=
  own [Layout.name q.name] :: Fragment.ascribed p inHead q.type

/-- The body of a function: a returned expression, in parentheses if it is weaker than a
lambda, or a block. -/
def Fragment.body : List Statement → List Fragment
  | [.returnValue e] => wrappedIf (e.strength p.dialect < .lambda) [ofExpr p inHead e]
  | body => [ofBlock p inHead [] body]

/-- A function at the place inside it. -/
def Fragment.function (isAsync : Bool) (typeParameters : List TypeParameter)
    (parameters : List Parameter) (result : Option TypeExpr) (body : List Statement) :
    List Fragment :=
  own (if isAsync then [word "async", space] else [])
    :: (if p.hasTypes then angled (typeParameters.map (TypeParameter.fragments p true)) else [])
    ++ parenthesized (parameters.map (Parameter.fragments p true))
    ++ Fragment.ascribed p true result
    ++ own [space, mark "=>", space] :: Fragment.body p inHead body

/-- The declaration of a name with its value. -/
def Fragment.binding (keyword : String) (n : Identifier) (type : Option TypeExpr)
    (value : List Fragment) : List Fragment :=
  own [word keyword, space, Layout.name n] :: Fragment.ascribed p inHead type
    ++ own [space, mark "=", space] :: value ++ [own [mark ";"]]

/-- A keyword with a head in parentheses. -/
def Fragment.headed (keyword : String) (head : List Fragment) : List Fragment :=
  own [word keyword, space, mark "("] :: head ++ [own [mark ")", space]]

end Forms

section Nodes

variable (p : Place) (inHead : Bool)

/-- An item of an array, with the dots of a spread before it. -/
def ArrayItem.fragments (item : ArrayItem) : List Fragment :=
  [own (if item.spread then [mark "..."] else []), ofExpr p inHead item.expr]

/-- A member of an object; in its short form the value is written as the key. -/
def Member.fragments : Member → List Fragment
  | .spread e => [own [mark "..."], ofExpr p inHead e]
  | .keyValue (.string text) (.reference n) =>
    if isBareName text && n.text = text then
      [.instead ⟨p, inHead, .expr (.string text)⟩ [word text],
        .instead ⟨p, inHead, .expr (.reference n)⟩ []]
    else
      [.instead ⟨p, inHead, .expr (.string text)⟩ [Layout.propertyKey text],
        own [mark ":", space], ofExpr p inHead (.reference n)]
  | .keyValue (.string text) value =>
    [.instead ⟨p, inHead, .expr (.string text)⟩ [Layout.propertyKey text],
      own [mark ":", space], ofExpr p inHead value]
  | .keyValue key value =>
    [own [mark "["], ofExpr p inHead key, own [mark "]", mark ":", space],
      ofExpr p inHead value]

/-- The base of a member access. -/
def Fragment.memberBase (base : Expr) (dotted : Bool) : List Fragment :=
  match base.written p.dialect with
  | .number value =>
    if 0 ≤ value && dotted then
      [.instead ⟨p, inHead, .expr base⟩ [digits value.toInt.toNat true]]
    else wrappedIf (base.operandStrength p.dialect < .callMember) [ofExpr p inHead base]
  | .instantiation _ _ => wrappedIf true [ofExpr p inHead base]
  | _ => wrappedIf (base.operandStrength p.dialect < .callMember) [ofExpr p inHead base]

/-- The fragments of an expression. -/
def Expr.fragments : Expr → List Fragment
  | .unary op e =>
    own (Layout.unaryOperator op)
      :: wrappedIf (e.operandStrength p.dialect < .unary ||
          (op = .minus && Lexeme.startWith "-" (e.layout p))) [ofExpr p inHead e]
  | .binary op left right =>
    wrappedIf (op.wraps p.dialect .left left) [ofExpr p inHead left]
      ++ own [space, mark op.mark, space]
      :: wrappedIf (op.wraps p.dialect .right right) [ofExpr p inHead right]
  | .conditional condition thenExpr elseExpr =>
    wrappedIf (condition.operandStrength p.dialect < .conditional + 1)
        [ofExpr p inHead condition]
      ++ own [space, mark "?", space]
      :: wrappedIf (thenExpr.operandStrength p.dialect < .conditional) [ofExpr p inHead thenExpr]
      ++ own [space, mark ":", space]
      :: wrappedIf (elseExpr.operandStrength p.dialect < .conditional) [ofExpr p inHead elseExpr]
  | .array items =>
    own [mark "["] :: listed (items.map (ArrayItem.fragments p inHead)) ++ [own [mark "]"]]
  | .object members => braced [mark ",", space] (members.map (Member.fragments p inHead))
  | .lambda isAsync typeParameters parameters returnType body =>
    Fragment.function (p.bindFunction typeParameters parameters) inHead isAsync typeParameters
      parameters returnType body
  | .get base property =>
    match Layout.dottedName? property with
    | some key =>
      Fragment.memberBase p inHead base true
        ++ [own [mark "."], .instead ⟨p, inHead, .expr property⟩ [word key]]
    | none =>
      Fragment.memberBase p inHead base false
        ++ [own [mark "["], ofExpr p inHead property, own [mark "]"]]
  | .call callee arguments =>
    wrappedIf (callee.operandStrength p.dialect < .callMember) [ofExpr p inHead callee]
      ++ parenthesized (arguments.map fun e => [ofExpr p inHead e])
  | .new callee arguments =>
    own [word "new", space]
      :: wrappedIf (callee.operandStrength p.dialect < .callMember ||
          callee.hasCallInChain p.dialect) [ofExpr p inHead callee]
      ++ parenthesized (arguments.map fun e => [ofExpr p inHead e])
  | .assertion e type =>
    if p.hasTypes then
      wrappedIf (e.operandStrength p.dialect < .unary) [ofExpr p inHead e]
        ++ [own [space, word "as", space], ofType p inHead type]
    else [ofExpr p inHead e]
  | .instantiation e arguments =>
    if p.hasTypes then
      wrappedIf (e.operandStrength p.dialect < .callMember) [ofExpr p inHead e]
        ++ Fragment.arguments p inHead arguments
    else [ofExpr p inHead e]
  | e => [own (e.layout p)]

/-- A key as text, or an expression in square brackets. -/
def PropertyName.fragments : PropertyName → List Fragment
  | .string key => [own [Layout.propertyKey key]]
  | .computed e => [own [mark "["], ofExpr p inHead e, own [mark "]"]]

/-- A member of an object type, from its flags to its type. -/
def MemberType.fragments (member : MemberType) : List Fragment :=
  own (if member.readonly then [word "readonly", space] else [])
    :: PropertyName.fragments p inHead member.name
    ++ [own (if member.required then [] else [mark "?"]), own [mark ":", space],
      ofType p inHead member.type]

/-- A member of a union or an intersection. -/
def Fragment.constituent (inIntersection : Bool) (t : TypeExpr) : List Fragment :=
  match t with
  | .function _ _ _ => wrappedIf true [ofType p inHead t]
  | .union types => wrappedIf (inIntersection && !types.isEmpty) [ofType p inHead t]
  | _ => [ofType p inHead t]

/-- The fragments of a type. -/
def TypeExpr.fragments : TypeExpr → List Fragment
  | .object members =>
    if Layout.onOneLine members then
      braced [mark ";", space] (members.map (MemberType.fragments p inHead))
    else
      Fragment.lines p (members.map fun m =>
        own (Layout.memberHead p m.document) :: MemberType.fragments p.deeper inHead m
          ++ [own [mark ";"]])
  | .function typeParameters parameters result =>
    let q := p.bindTypes typeParameters
    angled (typeParameters.map (TypeParameter.fragments q inHead))
      ++ parenthesized (List.zipWith
        (fun n t => [own [Layout.name n, mark ":", space], ofType q inHead t])
        (Layout.parameterNames parameters.length) parameters)
      ++ [own [space, mark "=>", space], ofType q inHead result]
  | .union types =>
    if types.isEmpty then [own [word "never"]]
    else separated [space, mark "|", space] (types.map (Fragment.constituent p inHead false))
  | .intersection left right =>
    Fragment.constituent p inHead true left
      ++ own [space, mark "&", space] :: Fragment.constituent p inHead true right
  | .imported path n arguments =>
    own [Lexeme.importOf path, mark ".", Layout.name n] :: Fragment.arguments p inHead arguments
  | .inFile n arguments => own [Layout.name n] :: Fragment.arguments p inHead arguments
  | .global n arguments =>
    own [Lexeme.globalType (p.types.contains n.text) n] :: Fragment.arguments p inHead arguments
  | .namespaced path n arguments =>
    own (Layout.segments path ++ [Layout.name n]) :: Fragment.arguments p inHead arguments
  | t => [own (t.layout p)]

/-- A case of a `switch`: its label and its block. -/
def SwitchCase.fragments (c : SwitchCase) : List Fragment :=
  [own [indent (p.level + 1), word "case", space, Lexeme.literal c.label, mark ":", space],
    ofBlock p.deeper inHead [] c.body]

/-- The fragments of a statement. -/
def Statement.fragments : Statement → List Fragment
  | .evaluate e =>
    wrappedIf (Lexeme.startWith "\x7b" (e.layout p)) [ofExpr p inHead e] ++ [own [mark ";"]]
  | .set target op value =>
    wrappedIf (Lexeme.startWith "\x7b" (target.layout p)) [ofExpr p inHead target]
      ++ [own [space, mark (Layout.assignmentMark op), space], ofExpr p inHead value,
        own [mark ";"]]
  | .ifElse condition thenBody elseBody =>
    Fragment.headed "if" [ofExpr p inHead condition]
      ++ ofBlock p inHead [] thenBody
      :: if elseBody.isEmpty then [.instead ⟨p, inHead, .block [] elseBody⟩ []]
        else [own [space, word "else", space], ofBlock p inHead [] elseBody]
  | .throwError e => [own [word "throw", space], ofExpr p inHead e, own [mark ";"]]
  | .returnValue e => [own [word "return", space], ofExpr p inHead e, own [mark ";"]]
  | .binding isConst n type value =>
    Fragment.binding p inHead (if isConst then "const" else "let") n type [ofExpr p inHead value]
  | .function isAsync n typeParameters parameters returnType body =>
    Fragment.binding p inHead "const" n none
      (Fragment.function (p.bindFunction typeParameters parameters) inHead isAsync typeParameters
        parameters (some returnType) body)
  | .forCount counter bound body =>
    Fragment.headed "for"
        (own [word "let", space, Layout.name counter, space, mark "=", space, digits 0 false,
            mark ";", space, Layout.name counter, space, mark "<", space]
          :: wrappedIf (bound.operandStrength p.dialect < BinaryOperator.lessThan.least .right)
            [ofExpr (p.bindValues [counter]) inHead bound]
          ++ [own [mark ";", space, Layout.name counter, space, mark "+=", space,
            digits 1 false]])
      ++ [ofBlock p inHead [counter] body]
  | .forOf element iterable body =>
    Fragment.headed "for"
        [own [word "const", space, Layout.name element, space, word "of", space],
          ofExpr p inHead iterable]
      ++ [ofBlock p inHead [element] body]
  | .whileTrue body =>
    Fragment.headed "while" [own [word "true"]] ++ [ofBlock p inHead [] body]
  | .switch subject cases =>
    Fragment.headed "switch" [ofExpr p inHead subject]
      ++ Fragment.lines p (cases.map (SwitchCase.fragments p inHead))
  | .tryCatch body parameter handler =>
    [own [word "try", space], ofBlock p inHead [] body, own [space]]
      ++ Fragment.headed "catch" [own [Layout.name parameter]]
      ++ [ofBlock p inHead [parameter] handler]
  | statement => [own (statement.layout p)]

/-- The fragments of a definition. -/
def Definition.fragments : Definition → List Fragment
  | .typeAlias a =>
    if p.hasTypes then
      own (Layout.documentOf a.document ++ Layout.exportMark a.exported
          ++ [word "type", space, Layout.name a.name])
        :: angled (a.typeParameters.map
          (TypeParameter.fragments (p.bindTypes a.typeParameters) inHead))
        ++ [own [space, mark "=", space], ofType (p.bindTypes a.typeParameters) inHead a.type,
          own [mark ";"]]
    else []
  | .function f =>
    let parameters := f.parameters.map DocumentedParameter.toParameter
    own (Layout.documentOf f.fullDocument ++ Layout.exportMark f.exported)
      :: Fragment.binding p inHead "const" f.name none
        (Fragment.function (p.bindFunction f.typeParameters parameters) inHead f.isAsync
          f.typeParameters parameters (some f.returnType) f.body)
  | .binding b =>
    own (Layout.documentOf b.document ++ Layout.exportMark b.exported)
      :: Fragment.binding p inHead "const" b.name b.type [ofExpr p inHead b.value]

end Nodes

/-- The fragments of a node. -/
def Writing.fragments : Writing → List Fragment
  | ⟨p, inHead, .definition d⟩ => d.fragments p inHead
  | ⟨p, inHead, .block bindings body⟩ =>
    Fragment.lines p (body.map fun statement =>
      [.own [indent (p.level + 1)],
        .part ⟨p.enterBlock bindings body, inHead, .statement statement⟩])
  | ⟨p, inHead, .statement statement⟩ => statement.fragments p inHead
  | ⟨p, inHead, .expr e⟩ => e.fragments p inHead
  | ⟨p, inHead, .type t⟩ => t.fragments p inHead

end EcmaWriter
