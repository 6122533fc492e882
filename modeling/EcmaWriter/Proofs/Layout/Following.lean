import EcmaWriter.Proofs.Layout.Fragments

/-!
# EcmaWriter - What comes after an expression

TypeScript reads `<...>` after an expression as type arguments only if some tokens do not come
next.  What comes after a part is decided by the nodes around it: next to most parts a node
writes a token of its own, and most of these tokens are not refused.

In three kinds of nodes a refused token can come after what the node starts with: in binary
operations with some operators, in instantiations and in member accesses.  The base of a member
access is in parentheses unless it is closed: then it is no instantiation itself and has none
at its end.

Main results:

- Definition `Guarded`: fragments in which no refused token comes after an expression.
- Theorem `Expr.guarded_fragments`: expressions are guarded, except for what they start with.
- Theorem `Writing.accepted_or_last_or_first`: what comes after an expression in any node.
-/

namespace EcmaWriter

open Lexeme (mark word space newline)
open Fragment

/-! ## The next token -/

/-- Whether a lexeme is white space or a comment. -/
def Lexeme.isTrivia : Lexeme → Bool
  | .space | .newline | .indent _ | .comment _ | .document _ _ => true
  | _ => false

/-- The first token of a text. -/
def nextToken? (ls : List Lexeme) : Option Lexeme :=
  ls.find? fun l => !l.isTrivia

/-- The tokens before which TypeScript does not read `<...>` as type arguments. -/
def refused : List Lexeme :=
  [".", "[", "<", "+", "-", ">>", ">>>"].map mark

/-- Whether a text goes on with a token that is refused. -/
def isRefused (ls : List Lexeme) : Bool :=
  (nextToken? ls).any fun l => refused.contains l

/-- Whether a text goes on with a token that is not refused. -/
def isAccepted (ls : List Lexeme) : Bool :=
  (nextToken? ls).any fun l => !refused.contains l

/-- It is the first lexeme that is accepted or not. -/
theorem isAccepted_append {ls : List Lexeme} (h : isAccepted ls = true) (ms : List Lexeme) :
    isAccepted (ls ++ ms) = true := by
  rw [isAccepted, Option.any_eq_true] at h
  obtain ⟨l, hl, hrefused⟩ := h
  rw [isAccepted, nextToken?, List.find?_append]
  rw [nextToken?] at hl
  rw [hl]
  exact hrefused

/-- No token is accepted and refused. -/
theorem isRefused_eq_false_of_isAccepted {ls : List Lexeme} (h : isAccepted ls = true) :
    isRefused ls = false := by
  rw [isAccepted, Option.any_eq_true] at h
  obtain ⟨l, hl, hrefused⟩ := h
  rw [isRefused, hl, Option.any_some]
  rwa [Bool.not_eq_true'] at hrefused

/-! ## Expressions and the tokens after them -/

/-- Whether a node is an expression. -/
def Node.isExpr : Node → Bool
  | .expr _ => true
  | _ => false

/-- Whether a node is an instantiation. -/
def Node.isInstantiation : Node → Bool
  | .expr (.instantiation _ _) => true
  | _ => false

/-- Instantiations are expressions. -/
theorem Node.isExpr_of_isInstantiation {node : Node} (h : node.isInstantiation = true) :
    node.isExpr = true := by
  cases node with
  | expr e => rfl
  | _ => exact h

/-- Fragments in which a token that is not refused comes after each expression, except for one
that comes last, which there may be if they are not closed. What is replaced is a leaf. -/
def Guarded (closed : Bool) : List Fragment → Prop
  | [] => True
  | .own _ :: fs => Guarded closed fs
  | .part w :: fs =>
    (w.node.isExpr = true → closed = false ∧ fs = [] ∨ isAccepted (texts fs) = true)
      ∧ Guarded closed fs
  | .instead w _ :: fs =>
    (w.parts = [] ∧ w.node.isInstantiation = false) ∧ Guarded closed fs

namespace Guarded

variable {closed : Bool} {fs gs : List Fragment} {p : Place} {inHead : Bool}

/-- Fragments follow others if these are closed or something accepted comes next. -/
theorem append {inner : Bool} (hfs : Guarded inner fs) (hgs : Guarded closed gs)
    (h : inner = true ∨ isAccepted (texts gs) = true) : Guarded closed (fs ++ gs) := by
  induction fs with
  | nil => exact hgs
  | cons f fs ih =>
      cases f with
      | own ls => exact ih hfs
      | instead w ls => exact ⟨hfs.1, ih hfs.2⟩
      | part w =>
          refine ⟨fun hexpr => Or.inr ?_, ih hfs.2⟩
          have haccepted : isAccepted (texts fs ++ texts gs) = true := by
            rcases hfs.1 hexpr with ⟨rfl, rfl⟩ | haccepted
            · exact h.resolve_left Bool.false_ne_true
            · exact isAccepted_append haccepted _
          rw [← texts_append] at haccepted
          exact haccepted

/-- Lexemes before the fragments do not follow any of their expressions. -/
theorem cons_own {ls : List Lexeme} (h : Guarded closed fs) : Guarded closed (own ls :: fs) := h

/-- With something of its own after them, fragments are followed by what this starts with. -/
theorem append_own {inner : Bool} (hfs : Guarded inner fs) {ls : List Lexeme}
    (hgs : Guarded closed gs) (h : inner = true ∨ isAccepted ls = true) :
    Guarded closed (fs ++ own ls :: gs) := by
  exact hfs.append hgs.cons_own (h.imp_right fun hls => isAccepted_append hls _)

/-- Lexemes after an expression close it. -/
theorem close {inner : Bool} (hfs : Guarded inner fs) {ls : List Lexeme}
    (h : inner = true ∨ isAccepted ls = true) : Guarded closed (fs ++ [own ls]) :=
  hfs.append_own trivial h

/-- Closed fragments may stand at the end as well. -/
theorem weaken (h : Guarded true fs) : Guarded closed fs := by
  rw [← List.append_nil fs]
  exact h.append trivial (Or.inl rfl)

/-- After a part that is no expression anything may come. -/
theorem cons_part {w : Writing} (h : Guarded closed fs) (hexpr : w.node.isExpr = false) :
    Guarded closed (.part w :: fs) :=
  ⟨fun hw => absurd (hexpr.symm.trans hw) Bool.false_ne_true, h⟩

/-- One expression, after which nothing stands yet. -/
theorem ofExpr (e : Expr) : Guarded false [ofExpr p inHead e] :=
  ⟨fun _ => Or.inl ⟨rfl, rfl⟩, trivial⟩

/-- Nothing is refused after a type. -/
theorem ofType (t : TypeExpr) (h : Guarded closed fs) :
    Guarded closed (Fragment.ofType p inHead t :: fs) :=
  h.cons_part rfl

/-- Nothing is refused after a block. -/
theorem ofBlock (bindings : List Identifier) (body : List Statement) (h : Guarded closed fs) :
    Guarded closed (Fragment.ofBlock p inHead bindings body :: fs) :=
  h.cons_part rfl

/-- Between two texts of its own a node may have anything, if the second one is accepted. -/
theorem enclosed (h : Guarded false fs) (first : List Lexeme) {last : List Lexeme}
    (hlast : isAccepted last = true) : Guarded true (own first :: fs ++ [own last]) := by
  exact h.cons_own.close (Or.inr hlast)

/-- The closing parenthesis is accepted. -/
theorem wrapped (h : Guarded false fs) : Guarded true (wrappedIf true fs) :=
  h.enclosed _ rfl

/-- Parentheses that may be left out leave the end open. -/
theorem wrappedIf (h : Guarded false fs) (needed : Bool) : Guarded false (wrappedIf needed fs) := by
  cases needed with
  | false => exact h
  | true => exact h.wrapped.weaken

/-- Pieces with a separator that is accepted are guarded if each of them is. -/
theorem separated {separator : List Lexeme}
    (hseparator : closed = true ∨ isAccepted separator = true)
    {pieces : List (List Fragment)} (h : ∀ fs ∈ pieces, Guarded closed fs) :
    Guarded closed (separated separator pieces) := by
  induction pieces with
  | nil => trivial
  | cons fs pieces ih =>
      obtain ⟨hfs, hpieces⟩ := List.forall_mem_cons.mp h
      cases pieces with
      | nil => exact hfs
      | cons gs pieces => exact hfs.append_own (ih hpieces) hseparator

/-- A list in parentheses is closed by them. -/
theorem parenthesized {pieces : List (List Fragment)} (h : ∀ fs ∈ pieces, Guarded false fs) :
    Guarded true (parenthesized pieces) :=
  (Guarded.separated (Or.inr rfl) h).enclosed _ rfl

/-- A list in angle brackets is closed by them. -/
theorem angled {pieces : List (List Fragment)} (h : ∀ fs ∈ pieces, Guarded false fs) :
    Guarded true (angled pieces) := by
  rw [Fragment.angled]
  split
  · trivial
  · exact (Guarded.separated (Or.inr rfl) h).enclosed _ rfl

/-- Members in curly brackets are closed by them. -/
theorem braced {separator : List Lexeme} (hseparator : isAccepted separator = true)
    {members : List (List Fragment)} (h : ∀ fs ∈ members, Guarded false fs) :
    Guarded true (braced separator members) := by
  rw [Fragment.braced]
  split
  · trivial
  · exact (Guarded.separated (Or.inr hseparator) h).enclosed _ rfl

/-- Lines in curly brackets are closed by them, if each of the lines is closed. -/
theorem lines (p : Place) {pieces : List (List Fragment)} (h : ∀ fs ∈ pieces, Guarded true fs) :
    Guarded true (Fragment.lines p pieces) := by
  have hlines : Guarded true (pieces.flatMap (· ++ [own [newline]])) := by
    induction pieces with
    | nil => trivial
    | cons fs pieces ih =>
        obtain ⟨hfs, hpieces⟩ := List.forall_mem_cons.mp h
        have hline : Guarded true (fs ++ [own [newline]]) := hfs.close (Or.inl rfl)
        exact hline.append (ih hpieces) (Or.inl rfl)
  rw [Fragment.lines]
  split
  · trivial
  · exact hlines.weaken.enclosed _ rfl

/-- Arguments in parentheses are closed by commas and by the last parenthesis. -/
theorem expressions (es : List Expr) :
    Guarded true (Fragment.parenthesized (es.map fun e => [Fragment.ofExpr p inHead e])) :=
  .parenthesized (List.forall_mem_map.mpr fun e _ => .ofExpr e)

/-- Type arguments are closed: expressions only stand inside of types. -/
theorem arguments (ts : List TypeExpr) : Guarded true (arguments p inHead ts) :=
  .angled (List.forall_mem_map.mpr fun t _ => .ofType t trivial)

/-- A type after its colon is closed. -/
theorem ascribed (type : Option TypeExpr) : Guarded true (ascribed p inHead type) := by
  cases type with
  | none => trivial
  | some t =>
      rw [Fragment.ascribed]
      split
      · exact .ofType t trivial
      · trivial

/-- Type parameters in angle brackets are closed. -/
theorem typeParameters (qs : List TypeParameter) :
    Guarded true (Fragment.angled (qs.map (TypeParameter.fragments p inHead))) := by
  refine .angled (List.forall_mem_map.mpr fun q _ => ?_)
  rcases q with ⟨n, constraint⟩
  cases constraint with
  | none => trivial
  | some t => exact .ofType t trivial

/-- The body of a function ends with a brace or with an expression. -/
theorem body (statements : List Statement) :
    Guarded false (Fragment.body p inHead statements) := by
  unfold Fragment.body
  split
  · exact .wrappedIf (.ofExpr _) _
  · exact .ofBlock [] _ trivial

/-- A function ends as its body does. -/
theorem function (isAsync : Bool) (typeParameters : List TypeParameter)
    (parameters : List Parameter) (result : Option TypeExpr) (statements : List Statement) :
    Guarded false
      (Fragment.function p inHead isAsync typeParameters parameters result statements) := by
  have htyped : Guarded true (if p.hasTypes then
      Fragment.angled (typeParameters.map (TypeParameter.fragments p true)) else []) := by
    split
    · exact .typeParameters typeParameters
    · trivial
  have hparameters : Guarded true
      (Fragment.parenthesized (parameters.map (Parameter.fragments p true))) :=
    .parenthesized (List.forall_mem_map.mpr fun q _ => (ascribed q.type).weaken)
  have hresult : Guarded true (Fragment.ascribed p true result) := ascribed result
  have hhead := (htyped.append hparameters (Or.inl rfl)).append hresult (Or.inl rfl)
  exact hhead.append_own (body statements) (Or.inl rfl)

/-- A binding ends with a semicolon. -/
theorem binding (keyword : String) (n : Identifier) (type : Option TypeExpr)
    {value : List Fragment} (h : Guarded false value) :
    Guarded true (Fragment.binding p inHead keyword n type value) := by
  have htype : Guarded true (Fragment.ascribed p inHead type) := ascribed type
  have hvalue : Guarded false (Fragment.ascribed p inHead type
      ++ own [space, mark "=", space] :: value) := htype.append_own h (Or.inl rfl)
  exact hvalue.close (Or.inr rfl)

/-- A head is closed by its parenthesis. -/
theorem headed (keyword : String) {head : List Fragment} (h : Guarded false head) :
    Guarded true (Fragment.headed keyword head) :=
  h.enclosed _ rfl

/-- An item of an array ends with its expression. -/
theorem arrayItem (item : ArrayItem) : Guarded false (ArrayItem.fragments p inHead item) :=
  .ofExpr item.expr

/-- A member of an object ends with its value. -/
theorem member (member : Member) : Guarded false (Member.fragments p inHead member) := by
  have hcomputed : ∀ key value : Expr,
      Guarded false [own [mark "["], Fragment.ofExpr p inHead key,
        own [mark "]", mark ":", space], Fragment.ofExpr p inHead value] :=
    fun key value => ⟨fun _ => Or.inr rfl, ofExpr value⟩
  unfold Member.fragments
  split
  · exact .ofExpr _
  · split
    · exact ⟨⟨rfl, rfl⟩, ⟨rfl, rfl⟩, trivial⟩
    · exact ⟨⟨rfl, rfl⟩, ofExpr _⟩
  · exact ⟨⟨rfl, rfl⟩, ofExpr _⟩
  · exact hcomputed _ _

/-- A member of an object type ends with a type; a computed key is closed by its bracket. -/
theorem memberType (member : MemberType) : Guarded true (member.fragments p inHead) := by
  rcases member with ⟨key, required, readonly, type, document⟩
  have hkey : Guarded true (key.fragments p inHead) := by
    cases key with
    | string key => trivial
    | computed e => exact ⟨fun _ => Or.inr rfl, trivial⟩
  have htype : Guarded true [Fragment.ofType p inHead type] := .ofType type trivial
  exact hkey.append_own htype (Or.inl rfl)

/-- A type of a union or an intersection is closed, wrapped or not. -/
theorem constituent (inIntersection : Bool) (t : TypeExpr) :
    Guarded true (Fragment.constituent p inHead inIntersection t) := by
  have htype : ∀ t : TypeExpr, Guarded true [Fragment.ofType p inHead t] :=
    fun t => .ofType t trivial
  unfold Fragment.constituent
  split
  · exact (htype _).weaken.wrapped
  · rw [Fragment.wrappedIf]
    split
    · exact (htype _).weaken.wrapped
    · exact htype _
  · exact htype t

end Guarded

/-! ## Fragments of nodes -/

section Nodes

variable {p : Place} {inHead : Bool}

/-- Expressions in a type are keys of members, each in its brackets. -/
theorem TypeExpr.guarded_fragments (t : TypeExpr) : Guarded true (t.fragments p inHead) := by
  cases t with
  | object members =>
      rw [TypeExpr.fragments]
      split
      · exact .braced rfl (List.forall_mem_map.mpr fun m _ => (Guarded.memberType m).weaken)
      · refine .lines p (List.forall_mem_map.mpr fun m _ => ?_)
        exact (Guarded.memberType m).close (Or.inl rfl)
  | function typeParameters parameters result =>
      have hparameters : ∀ fs ∈ List.zipWith
          (fun n t => [own [Layout.name n, mark ":", space],
            ofType (p.bindTypes typeParameters) inHead t])
          (Layout.parameterNames parameters.length) parameters, Guarded false fs := by
        intro fs hfs
        rw [← List.map_uncurry_zip_eq_zipWith, List.mem_map] at hfs
        obtain ⟨⟨n, t⟩, -, rfl⟩ := hfs
        exact .ofType t trivial
      have hresult : Guarded true [ofType (p.bindTypes typeParameters) inHead result] :=
        .ofType result trivial
      exact ((Guarded.typeParameters typeParameters).append (.parenthesized hparameters)
        (Or.inl rfl)).append_own hresult (Or.inl rfl)
  | union types =>
      rw [TypeExpr.fragments]
      split
      · trivial
      · exact .separated (Or.inl rfl) (List.forall_mem_map.mpr fun t _ => .constituent false t)
  | intersection left right =>
      exact (Guarded.constituent true left).append_own (Guarded.constituent true right)
        (Or.inl rfl)
  | imported path n arguments => exact .arguments arguments
  | inFile n arguments => exact .arguments arguments
  | global n arguments => exact .arguments arguments
  | namespaced path n arguments => exact .arguments arguments
  | _ => trivial

/-- Each expression of a statement is followed by a mark that is accepted. -/
theorem Statement.guarded_fragments (statement : Statement) :
    Guarded true (statement.fragments p inHead) := by
  cases statement with
  | evaluate e =>
      exact (Guarded.wrappedIf (.ofExpr e) _).close (Or.inr rfl)
  | set target op value =>
      have hmark : isAccepted [space, mark (Layout.assignmentMark op), space] = true := by
        rcases op with - | op
        · rfl
        · cases op <;> rfl
      have hvalue : Guarded true [ofExpr p inHead value, own [mark ";"]] :=
        ⟨fun _ => Or.inr rfl, trivial⟩
      exact (Guarded.wrappedIf (.ofExpr target) _).append_own hvalue (Or.inr hmark)
  | ifElse condition thenBody elseBody =>
      refine (Guarded.headed "if" (.ofExpr condition)).append
        (.ofBlock [] thenBody ?_) (Or.inl rfl)
      split
      · exact ⟨⟨by simp_all [Writing.parts], rfl⟩, trivial⟩
      · exact .ofBlock [] elseBody trivial
  | «throwError» e => exact ⟨fun _ => Or.inr rfl, trivial⟩
  | returnValue e => exact ⟨fun _ => Or.inr rfl, trivial⟩
  | binding isConst n type value => exact .binding _ n type (.ofExpr value)
  | function isAsync n typeParameters parameters returnType body =>
      exact .binding _ n none (.function isAsync typeParameters parameters _ body)
  | forCount counter bound body =>
      have hbound : Guarded false (wrappedIf
          (bound.operandStrength p.dialect < BinaryOperator.lessThan.least .right)
          [ofExpr (p.bindValues [counter]) inHead bound]) := .wrappedIf (.ofExpr bound) _
      exact (Guarded.headed "for" (hbound.close (Or.inr rfl))).append
        (.ofBlock [counter] body trivial) (Or.inl rfl)
  | forOf element iterable body =>
      exact (Guarded.headed "for" (Guarded.ofExpr iterable)).append
        (.ofBlock [element] body trivial) (Or.inl rfl)
  | whileTrue body => exact .ofBlock [] body trivial
  | «switch» subject cases =>
      refine (Guarded.headed "switch" (.ofExpr subject)).append (.lines p ?_) (Or.inl rfl)
      exact List.forall_mem_map.mpr fun c _ => .ofBlock [] c.body trivial
  | tryCatch body parameter handler =>
      refine .ofBlock [] body ?_
      exact .ofBlock [parameter] handler trivial
  | _ => trivial

/-- Each expression of a definition is followed by its semicolon. -/
theorem Definition.guarded_fragments (d : Definition) :
    Guarded true (d.fragments p inHead) := by
  cases d with
  | typeAlias a =>
      rw [Definition.fragments]
      split
      · exact (Guarded.typeParameters a.typeParameters).append_own (.ofType a.type trivial)
          (Or.inl rfl)
      · trivial
  | function f => exact .cons_own (.binding _ _ _ (.function _ _ _ _ _))
  | binding b => exact .cons_own (.binding _ _ _ (.ofExpr b.value))

/-- Whether a node writes a token that is refused right after what it starts with. -/
def Node.refuses : Node → Bool
  | .expr (.binary op _ _) => refused.contains (mark op.mark)
  | .expr (.instantiation _ arguments) => !arguments.isEmpty
  | _ => false

/-- What is no instantiation and does not end with one of its parts. -/
structure Writing.IsClosed (w : Writing) : Prop where
  isInstantiation : w.node.isInstantiation = false
  last : ∃ front last, w.fragments = front ++ [last] ∧ last.part? = none

/-- What may be the base of a member access is closed, unless it is an instantiation. -/
theorem Writing.isClosed_of_callMember_le {e : Expr}
    (h : Strength.callMember ≤ e.operandStrength .typeScript)
    (hinstantiation : (Node.expr e).isInstantiation = false) :
    IsClosed ⟨p, inHead, .expr e⟩ := by
  refine ⟨hinstantiation, ?_⟩
  cases e with
  | array items => exact ⟨_, _, rfl, rfl⟩
  | unary op e => exact absurd h (by decide : ¬ Strength.callMember ≤ Strength.unary)
  | binary op left right =>
      have hweak : ¬ Strength.callMember ≤ op.strength := by cases op <;> decide
      exact absurd h hweak
  | conditional condition thenExpr elseExpr =>
      exact absurd h (by decide : ¬ Strength.callMember ≤ Strength.conditional)
  | lambda isAsync typeParameters parameters returnType body =>
      exact absurd h (by decide : ¬ Strength.callMember ≤ Strength.lambdaOperand)
  | assertion e type => exact absurd h (by decide : ¬ Strength.callMember ≤ Strength.assertion)
  | instantiation e arguments => exact absurd hinstantiation (by simp [Node.isInstantiation])
  | object members =>
      rw [fragments, Expr.fragments, braced]
      split
      · exact ⟨[], _, rfl, rfl⟩
      · exact ⟨_, _, rfl, rfl⟩
  | get base property =>
      rw [fragments, Expr.fragments]
      split
      · exact ⟨_, _, List.append_cons _ _ _, rfl⟩
      · refine ⟨_, _, (List.append_assoc _ [_, _] [_]).symm, rfl⟩
  | call callee arguments => exact ⟨_, _, (List.append_assoc _ (_ :: _) [_]).symm, rfl⟩
  | new callee arguments => exact ⟨_, _, (List.append_assoc _ (_ :: _) [_]).symm, rfl⟩
  | _ => exact ⟨[], _, rfl, rfl⟩

/-- A base of a member access is in parentheses, unless it is closed. -/
theorem Expr.guarded_memberBase (hp : p.dialect = .typeScript) (base : Expr) (dotted : Bool) :
    Guarded true (memberBase p inHead base dotted) ∨
      memberBase p inHead base dotted = [ofExpr p inHead base] ∧
        Writing.IsClosed ⟨p, inHead, .expr base⟩ := by
  have hbase : (Node.expr base).isInstantiation = false →
      Guarded true (wrappedIf (base.operandStrength .typeScript < .callMember)
        [ofExpr p inHead base]) ∨
      wrappedIf (base.operandStrength .typeScript < .callMember) [ofExpr p inHead base] =
        [ofExpr p inHead base] ∧ Writing.IsClosed ⟨p, inHead, .expr base⟩ := by
    intro hinstantiation
    by_cases hweak : base.operandStrength .typeScript < .callMember
    · rw [decide_eq_true hweak]
      exact Or.inl (.wrapped (.ofExpr base))
    · rw [decide_eq_false hweak]
      exact Or.inr
        ⟨rfl, Writing.isClosed_of_callMember_le (Nat.le_of_not_lt hweak) hinstantiation⟩
  rw [memberBase, hp, base.written_typeScript]
  cases base with
  | number value =>
      simp only
      split
      · exact Or.inl ⟨⟨rfl, rfl⟩, trivial⟩
      · exact hbase rfl
  | instantiation e arguments => exact Or.inl (.wrapped (.ofExpr _))
  | _ => exact hbase rfl

/-- What comes after the base of a member access is refused only if the base is closed. -/
theorem Expr.guarded_memberBase_append (hp : p.dialect = .typeScript) (base : Expr)
    (dotted : Bool) {fs : List Fragment} (hfs : Guarded false fs) (whole : Expr) :
    Guarded false (memberBase p inHead base dotted ++ fs) ∨
      ∃ first gs, memberBase p inHead base dotted ++ fs = ofExpr p inHead first :: gs ∧
        Guarded false gs ∧
        ((Node.expr whole).refuses = true ∨ Writing.IsClosed ⟨p, inHead, .expr first⟩) := by
  rcases base.guarded_memberBase hp dotted with hbase | ⟨hbare, hclosed⟩
  · exact Or.inl (hbase.append hfs (Or.inl rfl))
  · rw [hbare]
    exact Or.inr ⟨base, fs, rfl, hfs, Or.inr hclosed⟩

/-- In an expression a refused token comes only after what it starts with: in a binary
operation or an instantiation that writes one, and in a member access, which starts with
something closed. -/
theorem Expr.guarded_fragments (inHead : Bool) (hp : p.dialect = .typeScript) (e : Expr) :
    Guarded false (e.fragments p inHead) ∨
      ∃ first fs, e.fragments p inHead = ofExpr p inHead first :: fs ∧ Guarded false fs ∧
        ((Node.expr e).refuses = true ∨ Writing.IsClosed ⟨p, inHead, .expr first⟩) := by
  have htypes : p.hasTypes = true := by rw [Place.hasTypes, hp]; rfl
  cases e with
  | unary op e => exact Or.inl (.wrappedIf (.ofExpr e) _)
  | binary op left right =>
      have hright : Guarded false (wrappedIf (op.wraps p.dialect .right right)
        [ofExpr p inHead right]) := .wrappedIf (.ofExpr right) _
      rw [Expr.fragments]
      cases hleft : op.wraps p.dialect .left left with
      | true => exact Or.inl (Guarded.append_own (.wrapped (.ofExpr left)) hright (Or.inl rfl))
      | false =>
          by_cases hrefuses : refused.contains (mark op.mark) = true
          · exact Or.inr ⟨left, _, rfl, hright, Or.inl hrefuses⟩
          · refine Or.inl (Guarded.append_own (.ofExpr left) hright (Or.inr ?_))
            have hmark : isAccepted [space, mark op.mark, space] =
              !refused.contains (mark op.mark) := rfl
            rw [hmark, Bool.not_eq_true', ← Bool.not_eq_true]
            exact hrefuses
  | conditional condition thenExpr elseExpr =>
      refine Or.inl (Guarded.append_own (Guarded.append_own
        (.wrappedIf (.ofExpr condition) _) (.wrappedIf (.ofExpr thenExpr) _) (Or.inr rfl))
        (.wrappedIf (.ofExpr elseExpr) _) (Or.inr rfl))
  | array items =>
      exact Or.inl ((Guarded.separated (Or.inr rfl) (List.forall_mem_map.mpr fun item _ =>
        .arrayItem item)).enclosed _ rfl).weaken
  | object members =>
      exact Or.inl (Guarded.braced rfl (List.forall_mem_map.mpr fun m _ => .member m)).weaken
  | lambda isAsync typeParameters parameters returnType body =>
      exact Or.inl (.function isAsync typeParameters parameters returnType body)
  | get base property =>
      rw [Expr.fragments]
      split
      · rename_i key hkey
        obtain ⟨rfl, -⟩ := eq_of_dottedName? hkey
        have hname : Guarded false
            [.own [mark "."], .instead ⟨p, inHead, .expr (.string key)⟩ [word key]] :=
          ⟨⟨rfl, rfl⟩, trivial⟩
        exact base.guarded_memberBase_append hp true hname _
      · have hindex : Guarded false [.own [mark "["], ofExpr p inHead property, .own [mark "]"]] :=
          ⟨fun _ => Or.inr rfl, trivial⟩
        exact base.guarded_memberBase_append hp false hindex _
  | call callee arguments =>
      exact Or.inl ((Guarded.wrappedIf (.ofExpr callee) _).append
        (Guarded.expressions arguments).weaken (Or.inr rfl))
  | new callee arguments =>
      exact Or.inl ((Guarded.wrappedIf (.ofExpr callee) _).append
        (Guarded.expressions arguments).weaken (Or.inr rfl))
  | assertion e type =>
      rw [Expr.fragments, if_pos htypes]
      exact Or.inl ((Guarded.wrappedIf (.ofExpr e) _).append_own (.ofType type trivial)
        (Or.inr rfl))
  | instantiation e arguments =>
      have harguments : Guarded false (Fragment.arguments p inHead arguments) :=
        (Guarded.arguments arguments).weaken
      rw [Expr.fragments, if_pos htypes]
      by_cases hweak : e.operandStrength p.dialect < .callMember
      · rw [decide_eq_true hweak]
        exact Or.inl ((Guarded.wrapped (.ofExpr e)).append harguments (Or.inl rfl))
      · rw [decide_eq_false hweak]
        cases arguments with
        | nil => exact Or.inl (.ofExpr e)
        | cons t ts => exact Or.inr ⟨e, _, rfl, harguments, Or.inl rfl⟩
  | _ => exact Or.inl trivial

/-- What is no expression has no expression at its end. -/
theorem Writing.guarded_fragments {w : Writing} (h : w.node.isExpr = false) :
    Guarded true w.fragments := by
  rcases w with ⟨p, inHead, node⟩
  cases node with
  | definition d => exact d.guarded_fragments
  | block bindings body =>
      refine .lines p (List.forall_mem_map.mpr fun statement _ => ?_)
      exact Guarded.cons_part trivial rfl
  | statement statement => exact statement.guarded_fragments
  | expr e => exact absurd h (by simp [Node.isExpr])
  | type t => exact t.guarded_fragments

end Nodes

/-! ## What comes after a part -/

namespace Guarded

variable {closed : Bool} {fs : List Fragment}

/-- After an expression come accepted lexemes, or nothing at the end of open fragments. -/
theorem of_split {before after : List Fragment} {w : Writing}
    (h : Guarded closed (before ++ .part w :: after)) (hexpr : w.node.isExpr = true) :
    closed = false ∧ after = [] ∨ isAccepted (texts after) = true := by
  induction before with
  | nil => exact h.1 hexpr
  | cons f before ih =>
      cases f with
      | own ls => exact ih h
      | part v => exact ih h.2
      | instead v ls => exact ih h.2

/-- What is replaced is a leaf, and no instantiation. -/
theorem of_mem_instead {w : Writing} {ls : List Lexeme} (h : Guarded closed fs)
    (hmem : .instead w ls ∈ fs) : w.parts = [] ∧ w.node.isInstantiation = false := by
  induction fs with
  | nil => exact absurd hmem List.not_mem_nil
  | cons f fs ih =>
      rcases List.mem_cons.mp hmem with rfl | htail
      · exact h.1
      · cases f with
        | own ls => exact ih h htail
        | part v => exact ih h.2 htail
        | instead v ls => exact ih h.2 htail

end Guarded

namespace Writing

variable {w : Writing}

/-- What is replaced is a leaf. -/
theorem of_mem_instead (hp : w.place.dialect = .typeScript) {v : Writing} {ls : List Lexeme}
    (h : .instead v ls ∈ w.fragments) : v.parts = [] ∧ v.node.isInstantiation = false := by
  by_cases hexpr : w.node.isExpr = true
  · rcases w with ⟨p, inHead, node⟩
    cases node with
    | expr e =>
        rcases e.guarded_fragments inHead hp with hguarded | ⟨first, fs, hfs, hguarded, -⟩
        · exact hguarded.of_mem_instead h
        · rw [fragments, hfs] at h
          exact hguarded.of_mem_instead ((List.mem_cons.mp h).resolve_left nofun)
    | _ => exact absurd hexpr Bool.false_ne_true
  · rw [Bool.not_eq_true] at hexpr
    exact (guarded_fragments hexpr).of_mem_instead h

/-- After an expression comes a token that is not refused, unless it comes last in another
expression or is what this starts with. -/
theorem accepted_or_last_or_first (hp : w.place.dialect = .typeScript)
    {before after : List Fragment} {v : Writing} (h : w.fragments = before ++ .part v :: after)
    (hexpr : v.node.isExpr = true) :
    isAccepted (texts after) = true ∨ w.node.isExpr = true ∧ after = [] ∨
      before = [] ∧ (w.node.refuses = true ∨ v.IsClosed) := by
  by_cases hw : w.node.isExpr = true
  -- what an expression starts with is split off first: the other fragments are guarded
  · have hsplit : ∀ {before fs}, fs = before ++ .part v :: after → Guarded false fs →
        isAccepted (texts after) = true ∨ w.node.isExpr = true ∧ after = [] := by
      rintro before fs rfl hguarded
      rcases hguarded.of_split hexpr with ⟨-, rfl⟩ | haccepted
      · exact Or.inr ⟨hw, rfl⟩
      · exact Or.inl haccepted
    rcases w with ⟨p, inHead, node⟩
    cases node with
    | expr e =>
        rcases e.guarded_fragments inHead hp with
          hguarded | ⟨first, fs, hfs, hguarded, hfirst⟩
        · rcases hsplit h hguarded with haccepted | hlast
          · exact Or.inl haccepted
          · exact Or.inr (Or.inl hlast)
        · rw [fragments, hfs] at h
          cases before with
          | nil =>
              obtain ⟨hv, rfl⟩ := List.cons.inj h
              obtain rfl := Fragment.part.inj hv
              exact Or.inr (Or.inr ⟨rfl, hfirst⟩)
          | cons f before =>
              rcases hsplit (List.cons.inj h).2 hguarded with haccepted | hlast
              · exact Or.inl haccepted
              · exact Or.inr (Or.inl hlast)
    | _ => exact absurd hw Bool.false_ne_true
  · rw [Bool.not_eq_true] at hw
    have hguarded := guarded_fragments hw
    rw [h] at hguarded
    exact Or.inl ((hguarded.of_split hexpr).resolve_left fun hlast => nomatch hlast.1)

/-- What a node that writes a refused token has after what it starts with. -/
theorem exists_refused_of_refuses (hp : w.place.dialect = .typeScript)
    (hrefuses : w.node.refuses = true) {v : Writing} {after : List Fragment}
    (h : w.fragments = .part v :: after) (rest : List Lexeme) :
    ∃ l ∈ refused, nextToken? (texts after ++ rest) = some l ∧ l ≠ mark "." ∧ l ≠ mark "[" := by
  rcases w with ⟨p, inHead, node⟩
  have htypes : p.hasTypes = true := decide_eq_true hp
  cases node with
  | expr e =>
      cases e with
      | binary op left right =>
          have hmark : op.mark ≠ "." ∧ op.mark ≠ "[" := by cases op <;> decide
          rw [fragments, Expr.fragments] at h
          cases hleft : op.wraps p.dialect .left left with
          | true => rw [hleft] at h; exact nomatch (List.cons.inj h).1
          | false =>
              rw [hleft] at h
              obtain rfl := (List.cons.inj h).2
              refine ⟨mark op.mark, List.contains_iff_mem.mp hrefuses, rfl, ?_, ?_⟩
              · exact fun hdot => hmark.1 (Lexeme.mark.inj hdot)
              · exact fun hindex => hmark.2 (Lexeme.mark.inj hindex)
      | instantiation e arguments =>
          rw [fragments, Expr.fragments, if_pos htypes] at h
          cases hbase : decide (e.operandStrength p.dialect < .callMember) with
          | true => rw [hbase] at h; exact nomatch (List.cons.inj h).1
          | false =>
              rw [hbase] at h
              obtain rfl := (List.cons.inj h).2
              cases arguments with
              | nil => exact absurd hrefuses Bool.false_ne_true
              | cons t ts => exact ⟨mark "<", by decide, rfl, by decide, by decide⟩
      | _ => exact absurd hrefuses Bool.false_ne_true
  | _ => exact absurd hrefuses Bool.false_ne_true

end Writing

end EcmaWriter
