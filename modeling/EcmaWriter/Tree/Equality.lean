import EcmaWriter.Tree.Basic

/-!
# EcmaWriter - Equality of trees

Two trees are the same when they have the same shape and the same leaves. The
test goes through expressions, statements and types together.

Main definitions:

- `Expr.same`, `Statement.same`, `TypeExpr.same`: nodes.
- `Module.same`: whole modules.
-/

namespace EcmaWriter

mutual

/-- Whether two expressions are the same. -/
def Expr.same : Expr → Expr → Bool
  | .number a, .number b => a == b
  | .string a, .string b => a == b
  | .boolean a, .boolean b => a == b
  | .null, .null => true
  | .undefined, .undefined => true
  | .unary op a, .unary op' a' => op == op' && a.same a'
  | .binary op a b, .binary op' a' b' => op == op' && a.same a' && b.same b'
  | .conditional a b c, .conditional a' b' c' => a.same a' && b.same b' && c.same c'
  | .array items, .array items' => ArrayItem.sameList items items'
  | .object members, .object members' => Member.sameList members members'
  | .lambda isAsync ts ps r body, .lambda isAsync' ts' ps' r' body' =>
    isAsync == isAsync' && TypeParameter.sameList ts ts' && Parameter.sameList ps ps' &&
      TypeExpr.sameOption r r' && Statement.sameList body body'
  | .reference a, .reference b => a == b
  | .global a, .global b => a == b
  | .imported path name, .imported path' name' => path == path' && name == name'
  | .get a b, .get a' b' => a.same a' && b.same b'
  | .call f args, .call f' args' => f.same f' && Expr.sameList args args'
  | .new f args, .new f' args' => f.same f' && Expr.sameList args args'
  | .assertion e t, .assertion e' t' => e.same e' && t.same t'
  | .instantiation e ts, .instantiation e' ts' => e.same e' && TypeExpr.sameList ts ts'
  | _, _ => false

/-- Whether two lists of expressions are the same. -/
def Expr.sameList : List Expr → List Expr → Bool
  | [], [] => true
  | e :: es, e' :: es' => e.same e' && Expr.sameList es es'
  | _, _ => false

/-- Whether two lists of array items are the same. -/
def ArrayItem.sameList : List ArrayItem → List ArrayItem → Bool
  | [], [] => true
  | ⟨e, spread⟩ :: items, ⟨e', spread'⟩ :: items' =>
    e.same e' && spread == spread' && ArrayItem.sameList items items'
  | _, _ => false

/-- Whether two lists of members are the same. -/
def Member.sameList : List Member → List Member → Bool
  | [], [] => true
  | .spread e :: ms, .spread e' :: ms' => e.same e' && Member.sameList ms ms'
  | .keyValue k v :: ms, .keyValue k' v' :: ms' =>
    k.same k' && v.same v' && Member.sameList ms ms'
  | _, _ => false

/-- Whether two lists of parameters are the same. -/
def Parameter.sameList : List Parameter → List Parameter → Bool
  | [], [] => true
  | ⟨name, type⟩ :: ps, ⟨name', type'⟩ :: ps' =>
    name == name' && TypeExpr.sameOption type type' && Parameter.sameList ps ps'
  | _, _ => false

/-- Whether two lists of type parameters are the same. -/
def TypeParameter.sameList : List TypeParameter → List TypeParameter → Bool
  | [], [] => true
  | ⟨name, type⟩ :: ps, ⟨name', type'⟩ :: ps' =>
    name == name' && TypeExpr.sameOption type type' && TypeParameter.sameList ps ps'
  | _, _ => false

/-- Whether two statements are the same. -/
def Statement.same : Statement → Statement → Bool
  | .evaluate a, .evaluate b => a.same b
  | .set a op b, .set a' op' b' => a.same a' && op == op' && b.same b'
  | .ifElse c a b, .ifElse c' a' b' =>
    c.same c' && Statement.sameList a a' && Statement.sameList b b'
  | .throwError a, .throwError b => a.same b
  | .returnValue a, .returnValue b => a.same b
  | .returnVoid, .returnVoid => true
  | .continueLoop, .continueLoop => true
  | .breakLoop, .breakLoop => true
  | .binding isConst name type a, .binding isConst' name' type' a' =>
    isConst == isConst' && name == name' && TypeExpr.sameOption type type' && a.same a'
  | .function isAsync name ts ps r body, .function isAsync' name' ts' ps' r' body' =>
    isAsync == isAsync' && name == name' && TypeParameter.sameList ts ts' &&
      Parameter.sameList ps ps' && r.same r' && Statement.sameList body body'
  | .forCount name a body, .forCount name' a' body' =>
    name == name' && a.same a' && Statement.sameList body body'
  | .forOf name a body, .forOf name' a' body' =>
    name == name' && a.same a' && Statement.sameList body body'
  | .whileTrue body, .whileTrue body' => Statement.sameList body body'
  | .switch a cases, .switch a' cases' => a.same a' && SwitchCase.sameList cases cases'
  | .tryCatch body name handler, .tryCatch body' name' handler' =>
    Statement.sameList body body' && name == name' && Statement.sameList handler handler'
  | _, _ => false

/-- Whether two lists of statements are the same. -/
def Statement.sameList : List Statement → List Statement → Bool
  | [], [] => true
  | s :: ss, s' :: ss' => s.same s' && Statement.sameList ss ss'
  | _, _ => false

/-- Whether two lists of cases are the same. -/
def SwitchCase.sameList : List SwitchCase → List SwitchCase → Bool
  | [], [] => true
  | ⟨label, body⟩ :: cs, ⟨label', body'⟩ :: cs' =>
    label == label' && Statement.sameList body body' && SwitchCase.sameList cs cs'
  | _, _ => false

/-- Whether two types are the same. -/
def TypeExpr.same : TypeExpr → TypeExpr → Bool
  | .number, .number => true
  | .string, .string => true
  | .boolean, .boolean => true
  | .undefined, .undefined => true
  | .null, .null => true
  | .never, .never => true
  | .void, .void => true
  | .unknown, .unknown => true
  | .object members, .object members' => MemberType.sameList members members'
  | .function ts ps r, .function ts' ps' r' =>
    TypeParameter.sameList ts ts' && TypeExpr.sameList ps ps' && r.same r'
  | .union types, .union types' => TypeExpr.sameList types types'
  | .intersection a b, .intersection a' b' => a.same a' && b.same b'
  | .imported path name args, .imported path' name' args' =>
    path == path' && name == name' && TypeExpr.sameList args args'
  | .inFile name args, .inFile name' args' => name == name' && TypeExpr.sameList args args'
  | .global name args, .global name' args' => name == name' && TypeExpr.sameList args args'
  | .namespaced path name args, .namespaced path' name' args' =>
    path == path' && name == name' && TypeExpr.sameList args args'
  | .stringLiteral a, .stringLiteral b => a == b
  | .uniqueSymbol, .uniqueSymbol => true
  | _, _ => false

/-- Whether two types that may be left out are the same. -/
def TypeExpr.sameOption : Option TypeExpr → Option TypeExpr → Bool
  | none, none => true
  | some t, some t' => t.same t'
  | _, _ => false

/-- Whether two lists of types are the same. -/
def TypeExpr.sameList : List TypeExpr → List TypeExpr → Bool
  | [], [] => true
  | t :: ts, t' :: ts' => t.same t' && TypeExpr.sameList ts ts'
  | _, _ => false

/-- Whether two lists of member types are the same. -/
def MemberType.sameList : List MemberType → List MemberType → Bool
  | [], [] => true
  | ⟨name, required, readonly, type, document⟩ :: ms,
      ⟨name', required', readonly', type', document'⟩ :: ms' =>
    name.same name' && required == required' && readonly == readonly' && type.same type' &&
      document == document' && MemberType.sameList ms ms'
  | _, _ => false

/-- Whether two property names are the same. -/
def PropertyName.same : PropertyName → PropertyName → Bool
  | .string a, .string b => a == b
  | .computed a, .computed b => a.same b
  | _, _ => false

end

/-- Whether two lists of documented parameters are the same. -/
def DocumentedParameter.sameList :
    List DocumentedParameter → List DocumentedParameter → Bool
  | [], [] => true
  | p :: ps, p' :: ps' =>
    p.name == p'.name && p.document == p'.document && p.type.same p'.type &&
      DocumentedParameter.sameList ps ps'
  | _, _ => false

/-- Whether two definitions are the same. -/
def Definition.same : Definition → Definition → Bool
  | .typeAlias a, .typeAlias b =>
    a.exported == b.exported && a.name == b.name &&
      TypeParameter.sameList a.typeParameters b.typeParameters &&
      a.document == b.document && a.type.same b.type
  | .function a, .function b =>
    a.exported == b.exported && a.isAsync == b.isAsync && a.name == b.name &&
      a.document == b.document && TypeParameter.sameList a.typeParameters b.typeParameters &&
      DocumentedParameter.sameList a.parameters b.parameters &&
      a.returnType.same b.returnType && Statement.sameList a.body b.body
  | .binding a, .binding b =>
    a.exported == b.exported && a.name == b.name && a.document == b.document &&
      TypeExpr.sameOption a.type b.type && a.value.same b.value
  | _, _ => false

/-- Whether two lists of definitions are the same. -/
def Definition.sameList : List Definition → List Definition → Bool
  | [], [] => true
  | d :: ds, d' :: ds' => d.same d' && Definition.sameList ds ds'
  | _, _ => false

/-- Whether two modules are the same. -/
def Module.same (a b : Module) : Bool :=
  Definition.sameList a.definitions b.definitions && Statement.sameList a.statements b.statements

end EcmaWriter
