import EcmaWriter.Layout.Place
import EcmaWriter.Strength

/-!
# EcmaWriter - The layout of nodes

The lexemes of expressions, types and statements. Parts that need no recursion are
put together by functions of their own, from parts that are laid out already.

Main definitions:

- `Expr.layout`, `TypeExpr.layout`, `Statement.layout`: the lexemes of nodes.
- `Layout.block`, `Layout.function`: the two ways in which statements are held.
-/

namespace EcmaWriter

open Lexeme

namespace Layout

/-! ## Names and literals -/

/-- An identifier. -/
def name (n : Identifier) : Lexeme :=
  .word n.text

/-- A whole number. -/
def number (value : Int32) : List Lexeme :=
  if value < 0 then [mark "-", digits value.toInt.natAbs false]
  else [digits value.toInt.toNat false]

/-- A unary operator before its operand. -/
def unaryOperator : UnaryOperator → List Lexeme
  | .minus => [mark "-"]
  | .bitwiseNot => [mark "~"]
  | .logicalNot => [mark "!"]
  | .typeOf => [word "typeof", space]
  | .await => [word "await", space]

/-- A property name of an object, quoted unless it can stand bare. -/
def propertyKey (key : String) : Lexeme :=
  if isPropertyName key then .word key else .literal key

/-- Access to a member whose name is known. -/
def memberAccess (key : String) : List Lexeme :=
  if isPropertyName key then [mark ".", word key]
  else [mark "[", literal key, mark "]"]

/-! ## Expressions -/

/-- An operand, in parentheses if it is weaker than the least strength. -/
def operand (p : Place) (least : Strength) (e : Expr) (text : List Lexeme) : List Lexeme :=
  wrappedIf (e.operandStrength p.dialect < least) text

/-- A unary operation. Two minus signs in a row would be read as one operator. -/
def unary (p : Place) (op : UnaryOperator) (e : Expr) (text : List Lexeme) : List Lexeme :=
  unaryOperator op ++
    wrappedIf (e.operandStrength p.dialect < .unary || (op = .minus && startWith "-" text)) text

/-- A binary operation. -/
def binary (p : Place) (op : BinaryOperator) (left right : Expr)
    (leftText rightText : List Lexeme) : List Lexeme :=
  wrappedIf (op.wraps p.dialect .left left) leftText
    ++ [space, mark op.mark, space]
    ++ wrappedIf (op.wraps p.dialect .right right) rightText

/-- The base of a member access. A number before a point needs a point of its own,
and nothing can follow an instantiation directly. -/
def memberBase (p : Place) (base : Expr) (dotted : Bool) (text : List Lexeme) : List Lexeme :=
  match base.written p.dialect with
  | .number value =>
    if 0 ≤ value && dotted then [digits value.toInt.toNat true]
    else operand p .callMember base text
  | .instantiation _ _ => parenthesized text
  | _ => operand p .callMember base text

/-- The name of a member that is written after a point. -/
def dottedName? : Expr → Option String
  | .string key => if isPropertyName key then some key else none
  | _ => none

/-- A member access. -/
def get (p : Place) (base property : Expr) (baseText propertyText : List Lexeme) :
    List Lexeme :=
  match dottedName? property with
  | some key => memberBase p base true baseText ++ [mark ".", word key]
  | none => memberBase p base false baseText ++ mark "[" :: propertyText ++ [mark "]"]

/-- The callee of `new`. -/
def constructor (p : Place) (callee : Expr) (text : List Lexeme) : List Lexeme :=
  wrappedIf (callee.operandStrength p.dialect < .callMember || callee.hasCallInChain p.dialect)
    text

/-- A member of an object literal. A variable under its own name is written once. -/
def keyValue (key value : Expr) (keyText valueText : List Lexeme) : List Lexeme :=
  match key, value with
  | .string text, .reference n =>
    if isBareName text && n.text = text then [word text]
    else propertyKey text :: [mark ":", space] ++ valueText
  | .string text, _ => propertyKey text :: [mark ":", space] ++ valueText
  | _, _ => mark "[" :: keyText ++ [mark "]", mark ":", space] ++ valueText

/-- The members of an object literal or of an object type on one line. -/
def braced (separator : List Lexeme) (members : List (List Lexeme)) : List Lexeme :=
  if members.isEmpty then [mark "\x7b", mark "\x7d"]
  else [mark "\x7b", space] ++ separated separator members ++ [space, mark "\x7d"]

/-! ## Functions and blocks -/

/-- What is written only where types are written. -/
def typed (p : Place) (text : List Lexeme) : List Lexeme :=
  if p.hasTypes then text else []

/-- A type after a colon. -/
def annotation (p : Place) : Option (List Lexeme) → List Lexeme
  | none => []
  | some text => typed p (mark ":" :: space :: text)

/-- A type parameter with its constraint. -/
def typeParameter (n : Identifier) (constraint : List Lexeme) : List Lexeme :=
  [name n, space, word "extends", space] ++ constraint

/-- A function, from its head and its body. -/
def function (p : Place) (isAsync : Bool) (typeParameters parameters : List (List Lexeme))
    (returnType : Option (List Lexeme)) (body : List Lexeme) : List Lexeme :=
  (if isAsync then [word "async", space] else [])
    ++ typed p (angled typeParameters)
    ++ parenthesized (listed parameters)
    ++ annotation p returnType
    ++ [space, mark "=>", space]
    ++ body

/-- Lines in braces, the first of them on a line of its own. -/
def lines (p : Place) (texts : List (List Lexeme)) : List Lexeme :=
  if texts.isEmpty then [mark "\x7b", mark "\x7d"]
  else [mark "\x7b", newline] ++ texts.flatMap (· ++ [newline]) ++ [indent p.level, mark "\x7d"]

/-- A block of statements. -/
def block (p : Place) (statements : List (List Lexeme)) : List Lexeme :=
  lines p (statements.map (indent (p.level + 1) :: ·))

/-- The body of a function, which is one returned expression or a block. -/
def conciseBody (p : Place) (e : Expr) (text : List Lexeme) : List Lexeme :=
  wrappedIf (e.strength p.dialect < .lambda) text

/-! ## Statements -/

/-- An expression that starts a statement. A brace in front would start a block. -/
def opening (text : List Lexeme) : List Lexeme :=
  wrappedIf (startWith "\x7b" text) text

/-- The mark of an assignment. -/
def assignmentMark : Option AssignmentOperator → String
  | none => "="
  | some op => op.mark

/-- The declaration of a name with its value. -/
def binding (p : Place) (keyword : String) (n : Identifier) (type : Option (List Lexeme))
    (value : List Lexeme) : List Lexeme :=
  [word keyword, space, name n] ++ annotation p type ++ [space, mark "=", space] ++ value
    ++ [mark ";"]

/-- A keyword with an expression and a semicolon. -/
def keyworded (keyword : String) (text : List Lexeme) : List Lexeme :=
  [word keyword, space] ++ text ++ [mark ";"]

/-- A keyword with a head in parentheses and a space after it. -/
def headed (keyword : String) (head : List Lexeme) : List Lexeme :=
  [word keyword, space] ++ parenthesized head ++ [space]

/-- The else part of a conditional statement. -/
def elsePart (body : List Statement) (text : List Lexeme) : List Lexeme :=
  if body.isEmpty then [] else [space, word "else", space] ++ text

/-- The head of a counting loop. -/
def countHead (counter : Identifier) (bound : List Lexeme) : List Lexeme :=
  [word "let", space, name counter, space, mark "=", space, digits 0 false, mark ";", space,
      name counter, space, mark "<", space]
    ++ bound
    ++ [mark ";", space, name counter, space, mark "+=", space, digits 1 false]

/-- One case of a switch statement. -/
def switchCase (p : Place) (label : String) (body : List Lexeme) : List Lexeme :=
  [indent (p.level + 1), word "case", space, literal label, mark ":", space] ++ body

/-! ## Types -/

/-- A name with type arguments. -/
def applied (head : List Lexeme) (arguments : List (List Lexeme)) : List Lexeme :=
  head ++ angled arguments

/-- A member of a union or an intersection. Function types are put in parentheses;
inside an intersection so are unions. -/
def constituent (inIntersection : Bool) (t : TypeExpr) (text : List Lexeme) : List Lexeme :=
  match t with
  | .function _ _ _ => parenthesized text
  | .union types => wrappedIf (inIntersection && !types.isEmpty) text
  | _ => text

/-- A member of an object type. -/
def memberType (key : List Lexeme) (required readonly : Bool) (type : List Lexeme) :
    List Lexeme :=
  (if readonly then [word "readonly", space] else []) ++ key
    ++ (if required then [] else [mark "?"])
    ++ [mark ":", space] ++ type

/-- The document of a member of an object type, and the indentation after it. -/
def memberHead (p : Place) (document : String) : List Lexeme :=
  (if isBlankDocument document then [] else [Lexeme.document (p.level + 1) document])
    ++ [indent (p.level + 1)]

/-- Whether all members of an object type fit on one line, which documents do not. -/
def onOneLine (members : List MemberType) : Bool :=
  members.all fun m => isBlankDocument m.document

/-- An object type with one member on each line. -/
def memberLines (p : Place) (members : List MemberType) (texts : List (List Lexeme)) :
    List Lexeme :=
  lines p ((members.zip texts).map fun (m, text) =>
    memberHead p m.document ++ text ++ [mark ";"])

/-- The parameters of a function type, whose names are minted. -/
def functionTypeParameters (types : List (List Lexeme)) : List (List Lexeme) :=
  ((Candidate.mintMany [] types.length .first).zip types).map fun ((n, _), text) =>
    [name n, mark ":", space] ++ text

/-- The segments of a namespace, each with a point after it. -/
def segments (path : List Identifier) : List Lexeme :=
  path.flatMap fun n => [name n, mark "."]

end Layout

/-! ## Nodes -/

mutual

/-- The lexemes of an expression, without parentheses around it. -/
def Expr.layout (p : Place) : Expr → List Lexeme
  | .number value => Layout.number value
  | .string value => [literal value]
  | .boolean value => [word (if value then "true" else "false")]
  | .null => [word "null"]
  | .undefined => [word "undefined"]
  | .unary op e => Layout.unary p op e (e.layout p)
  | .binary op left right => Layout.binary p op left right (left.layout p) (right.layout p)
  | .conditional condition thenExpr elseExpr =>
    Layout.operand p (.conditional + 1) condition (condition.layout p)
      ++ [space, mark "?", space]
      ++ Layout.operand p .conditional thenExpr (thenExpr.layout p)
      ++ [space, mark ":", space]
      ++ Layout.operand p .conditional elseExpr (elseExpr.layout p)
  | .array items => mark "[" :: listed (ArrayItem.layouts p items) ++ [mark "]"]
  | .object members => Layout.braced [mark ",", space] (Member.layouts p members)
  | .lambda isAsync typeParameters parameters returnType body =>
    Layout.function p isAsync
      (TypeParameter.layouts (p.bindFunction typeParameters parameters) typeParameters)
      (Parameter.layouts (p.bindFunction typeParameters parameters) parameters)
      (TypeExpr.optionLayout (p.bindFunction typeParameters parameters) returnType)
      (Statement.functionBody (p.bindFunction typeParameters parameters) body)
  | .reference n => [Layout.name n]
  | .global n => [globalValue (p.values.contains n.text) n]
  | .imported path key => importOf path :: Layout.memberAccess key
  | .get base property => Layout.get p base property (base.layout p) (property.layout p)
  | .call callee arguments =>
    Layout.operand p .callMember callee (callee.layout p)
      ++ parenthesized (listed (Expr.layouts p arguments))
  | .new callee arguments =>
    [word "new", space] ++ Layout.constructor p callee (callee.layout p)
      ++ parenthesized (listed (Expr.layouts p arguments))
  | .assertion e type =>
    if p.hasTypes then
      Layout.operand p .unary e (e.layout p) ++ [space, word "as", space] ++ type.layout p
    else e.layout p
  | .instantiation e arguments =>
    if p.hasTypes then
      Layout.applied (Layout.operand p .callMember e (e.layout p))
        (TypeExpr.layouts p arguments)
    else e.layout p

/-- The lexemes of expressions. -/
def Expr.layouts (p : Place) : List Expr → List (List Lexeme)
  | [] => []
  | e :: es => e.layout p :: Expr.layouts p es

/-- The lexemes of array items. -/
def ArrayItem.layouts (p : Place) : List ArrayItem → List (List Lexeme)
  | [] => []
  | ⟨e, spread⟩ :: items =>
    ((if spread then [mark "..."] else []) ++ e.layout p) :: ArrayItem.layouts p items

/-- The lexemes of members of an object literal. -/
def Member.layouts (p : Place) : List Member → List (List Lexeme)
  | [] => []
  | .spread e :: members => (mark "..." :: e.layout p) :: Member.layouts p members
  | .keyValue key value :: members =>
    Layout.keyValue key value (key.layout p) (value.layout p) :: Member.layouts p members

/-- The lexemes of parameters. -/
def Parameter.layouts (p : Place) : List Parameter → List (List Lexeme)
  | [] => []
  | ⟨n, type⟩ :: parameters =>
    (Layout.name n :: Layout.annotation p (TypeExpr.optionLayout p type))
      :: Parameter.layouts p parameters

/-- The lexemes of type parameters. -/
def TypeParameter.layouts (p : Place) : List TypeParameter → List (List Lexeme)
  | [] => []
  | ⟨n, constraint⟩ :: parameters =>
    Layout.typeParameter n ((TypeExpr.optionLayout p constraint).getD [word "unknown"])
      :: TypeParameter.layouts p parameters

/-- The lexemes of the body of a function. -/
def Statement.functionBody (p : Place) : List Statement → List Lexeme
  | [.returnValue e] => Layout.conciseBody p e (e.layout p)
  | [] => Layout.block p []
  | s :: ss =>
    Layout.block p
      (s.layout (p.enterBlock [] (s :: ss)) :: Statement.layouts (p.enterBlock [] (s :: ss)) ss)

/-- The lexemes of a statement, without its indentation. -/
def Statement.layout (p : Place) : Statement → List Lexeme
  | .evaluate e => Layout.opening (e.layout p) ++ [mark ";"]
  | .set target op value =>
    Layout.opening (target.layout p) ++ [space, mark (Layout.assignmentMark op), space]
      ++ value.layout p ++ [mark ";"]
  | .ifElse condition thenBody elseBody =>
    Layout.headed "if" (condition.layout p)
      ++ Layout.block p (Statement.layouts (p.enterBlock [] thenBody) thenBody)
      ++ Layout.elsePart elseBody
        (Layout.block p (Statement.layouts (p.enterBlock [] elseBody) elseBody))
  | .throwError e => Layout.keyworded "throw" (e.layout p)
  | .returnValue e => Layout.keyworded "return" (e.layout p)
  | .returnVoid => [word "return", mark ";"]
  | .continueLoop => [word "continue", mark ";"]
  | .breakLoop => [word "break", mark ";"]
  | .binding isConst n type value =>
    Layout.binding p (if isConst then "const" else "let") n (TypeExpr.optionLayout p type)
      (value.layout p)
  | .function isAsync n typeParameters parameters returnType body =>
    Layout.binding p "const" n none
      (Layout.function p isAsync
        (TypeParameter.layouts (p.bindFunction typeParameters parameters) typeParameters)
        (Parameter.layouts (p.bindFunction typeParameters parameters) parameters)
        (some (returnType.layout (p.bindFunction typeParameters parameters)))
        (Statement.functionBody (p.bindFunction typeParameters parameters) body))
  | .forCount counter bound body =>
    Layout.headed "for"
        (Layout.countHead counter
          (Layout.operand p (BinaryOperator.lessThan.least .right) bound
            (bound.layout (p.bindValues [counter]))))
      ++ Layout.block p (Statement.layouts (p.enterBlock [counter] body) body)
  | .forOf element iterable body =>
    Layout.headed "for"
        ([word "const", space, Layout.name element, space, word "of", space]
          ++ iterable.layout p)
      ++ Layout.block p (Statement.layouts (p.enterBlock [element] body) body)
  | .whileTrue body =>
    Layout.headed "while" [word "true"]
      ++ Layout.block p (Statement.layouts (p.enterBlock [] body) body)
  | .switch subject cases =>
    Layout.headed "switch" (subject.layout p) ++ Layout.lines p (SwitchCase.layouts p cases)
  | .tryCatch body parameter handler =>
    [word "try", space]
      ++ Layout.block p (Statement.layouts (p.enterBlock [] body) body)
      ++ [space]
      ++ Layout.headed "catch" [Layout.name parameter]
      ++ Layout.block p (Statement.layouts (p.enterBlock [parameter] handler) handler)

/-- The lexemes of statements. -/
def Statement.layouts (p : Place) : List Statement → List (List Lexeme)
  | [] => []
  | s :: ss => s.layout p :: Statement.layouts p ss

/-- The lexemes of cases, each a block one level deeper. -/
def SwitchCase.layouts (p : Place) : List SwitchCase → List (List Lexeme)
  | [] => []
  | ⟨label, body⟩ :: cases =>
    Layout.switchCase p label
        (Layout.block p.deeper (Statement.layouts (p.deeper.enterBlock [] body) body))
      :: SwitchCase.layouts p cases

/-- The lexemes of a type. -/
def TypeExpr.layout (p : Place) : TypeExpr → List Lexeme
  | .number => [word "number"]
  | .string => [word "string"]
  | .boolean => [word "boolean"]
  | .undefined => [word "undefined"]
  | .null => [word "null"]
  | .never => [word "never"]
  | .void => [word "void"]
  | .unknown => [word "unknown"]
  | .object members =>
    if Layout.onOneLine members then
      Layout.braced [mark ";", space] (MemberType.layouts p members)
    else Layout.memberLines p members (MemberType.layouts p.deeper members)
  | .function typeParameters parameters result =>
    Lexeme.angled (TypeParameter.layouts (p.bindTypes typeParameters) typeParameters)
      ++ parenthesized (listed (Layout.functionTypeParameters
        (TypeExpr.layouts (p.bindTypes typeParameters) parameters)))
      ++ [space, mark "=>", space]
      ++ result.layout (p.bindTypes typeParameters)
  | .union types =>
    if types.isEmpty then [word "never"]
    else separated [space, mark "|", space] (TypeExpr.constituents p types)
  | .intersection left right =>
    Layout.constituent true left (left.layout p) ++ [space, mark "&", space]
      ++ Layout.constituent true right (right.layout p)
  | .imported path n arguments =>
    Layout.applied [importOf path, mark ".", Layout.name n] (TypeExpr.layouts p arguments)
  | .inFile n arguments => Layout.applied [Layout.name n] (TypeExpr.layouts p arguments)
  | .global n arguments =>
    Layout.applied [globalType (p.types.contains n.text) n] (TypeExpr.layouts p arguments)
  | .namespaced path n arguments =>
    Layout.applied (Layout.segments path ++ [Layout.name n]) (TypeExpr.layouts p arguments)
  | .stringLiteral value => [literal value]
  | .uniqueSymbol => [word "unique", space, word "symbol"]

/-- The lexemes of a type that may be left out. -/
def TypeExpr.optionLayout (p : Place) : Option TypeExpr → Option (List Lexeme)
  | none => none
  | some t => some (t.layout p)

/-- The lexemes of types. -/
def TypeExpr.layouts (p : Place) : List TypeExpr → List (List Lexeme)
  | [] => []
  | t :: ts => t.layout p :: TypeExpr.layouts p ts

/-- The lexemes of the members of a union. -/
def TypeExpr.constituents (p : Place) : List TypeExpr → List (List Lexeme)
  | [] => []
  | t :: ts => Layout.constituent false t (t.layout p) :: TypeExpr.constituents p ts

/-- The lexemes of members of an object type. -/
def MemberType.layouts (p : Place) : List MemberType → List (List Lexeme)
  | [] => []
  | ⟨key, required, readonly, type, _⟩ :: members =>
    Layout.memberType (key.layout p) required readonly (type.layout p)
      :: MemberType.layouts p members

/-- The lexemes of a property name. -/
def PropertyName.layout (p : Place) : PropertyName → List Lexeme
  | .string key => [Layout.propertyKey key]
  | .computed e => mark "[" :: e.layout p ++ [mark "]"]

end

end EcmaWriter
