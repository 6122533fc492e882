import EcmaWriter.Proofs.Erasure.Layout
import EcmaWriter.Proofs.Imports.Agreement

/-!
# EcmaWriter - Bodies without braces

A function that only returns something is written without braces and `return`.  If what it
returns started with a brace, a reader would take it for a block of statements, so such a body
is put in parentheses.  The decision is made by the strength of what is returned, while what
a reader sees first is at the left end of it, under whatever is written around it.

The two go together, with one exception.  An instantiation counts as tight as a name, so that
it is left bare even if an object literal is at its left end: TypeScript then has a brace
after the arrow.

Main results:

- Definition `Expr.leadsWithObject`: expressions with an object literal at the left end.
- Definition `Expr.opensBody`: the exception.
- Theorem `Expr.begins_layout`: what the text of an expression can start with.
- Theorem `Expr.startWith_operand`: which operands start with a brace.
- Theorem `Module.brace_after_arrow_iff`: which bodies start with a brace.
-/

namespace EcmaWriter

open Lexeme (mark space startWith wrappedIf parenthesized)

/-! ## First characters -/

/-- A text has a first character, and it is no brace. -/
def StartsPlainly (text : String) : Prop :=
  ∃ c cs, text.toList = c :: cs ∧ c ≠ '\x7b'

theorem StartsPlainly.append {text : String} (h : StartsPlainly text) (more : String) :
    StartsPlainly (text ++ more) := by
  rcases h with ⟨c, cs, hcs, hc⟩
  exact ⟨c, cs ++ more.toList, by rw [String.toList_append, hcs, List.cons_append], hc⟩

theorem startsPlainly_of_isPropertyName {text : String} (h : isPropertyName text = true) :
    StartsPlainly text := by
  rw [isPropertyName] at h
  cases hcs : text.toList with
  | nil => exact absurd h (by simp [hcs, hasIdentifierShape])
  | cons c cs =>
      rw [hcs, hasIdentifierShape, Bool.and_eq_true] at h
      refine ⟨c, cs, hcs, ?_⟩
      rintro rfl
      exact absurd h.1 (by decide)

theorem startsPlainly_toString (value : Nat) : StartsPlainly (toString value) := by
  obtain ⟨c, cs, hcs⟩ := List.exists_cons_of_ne_nil (Nat.toDigits_ne_nil (n := value) (b := 10))
  refine ⟨c, cs, by simpa using hcs, ?_⟩
  have hdigit : c.isDigit = true := by
    refine Nat.isDigit_of_mem_toDigits (b := 10) (n := value) (by decide) (by decide) ?_
    rw [hcs]
    exact List.mem_cons_self
  rintro rfl
  exact absurd hdigit (by decide)

/-- Whether an expression can start with a lexeme. -/
def Lexeme.begins : Lexeme → Bool
  | word text => isPropertyName text
  | digits _ _ | literal _ | importOf _ | globalValue _ _ => true
  | mark text => ["(", "[", "<", "\x7b", "-", "~", "!"].contains text
  | _ => false

/-- Of the lexemes that an expression can start with, only a brace starts with one. -/
theorem Lexeme.startsPlainly_of_begins {table : ImportTable} {l : Lexeme} {text : String}
    (h : l.begins = true) (hbrace : l ≠ mark "\x7b") (hspell : l.spell table = .ok text) :
    StartsPlainly text := by
  cases l with
  | word name =>
      obtain rfl := Except.ok.inj hspell
      exact startsPlainly_of_isPropertyName h
  | digits value pointed =>
      obtain rfl := Except.ok.inj hspell
      cases pointed with
      | false => exact startsPlainly_toString value
      | true => exact (startsPlainly_toString value).append "."
  | literal value =>
      obtain rfl := Except.ok.inj hspell
      have hquote : StartsPlainly "\"" := ⟨_, _, rfl, by decide⟩
      exact (hquote.append _).append _
  | mark symbol =>
      obtain rfl := Except.ok.inj hspell
      rw [begins, List.contains_iff_mem] at h
      simp only [List.mem_cons, List.not_mem_nil, or_false] at h
      rcases h with rfl | rfl | rfl | rfl | rfl | rfl | rfl
      all_goals first
        | exact absurd rfl hbrace
        | exact ⟨_, _, rfl, by decide⟩
  | importOf path =>
      rw [spell] at hspell
      split at hspell
      · obtain rfl := Except.ok.inj hspell
        exact startsPlainly_of_isPropertyName (Identifier.isPropertyName _)
      · exact absurd hspell (by simp)
  | globalValue hidden n =>
      obtain rfl := Except.ok.inj hspell
      cases hidden with
      | false => exact startsPlainly_of_isPropertyName n.isPropertyName
      | true =>
          have hword : StartsPlainly "globalThis." := ⟨_, _, rfl, by decide⟩
          exact hword.append _
  | _ => exact absurd h (by simp [begins])

/-- Lexemes that start as an expression can. -/
def Begins (ls : List Lexeme) : Prop :=
  ∃ l rest, ls = l :: rest ∧ l.begins = true

/-- What is spelled starts with a brace if the lexemes do. -/
theorem head?_eq_brace_iff {table : ImportTable} {ls : List Lexeme} {text : String}
    (h : Begins ls) (hspell : spellAll table ls = .ok text) :
    text.toList.head? = some '\x7b' ↔ startWith "\x7b" ls = true := by
  rcases h with ⟨l, rest, rfl, hl⟩
  rw [startWith, decide_eq_true_iff, List.head?_cons, Option.some.injEq]
  rw [spellAll, List.mapM_cons] at hspell
  obtain ⟨pieces, hpieces, htext⟩ := exists_of_bind_eq_ok hspell
  obtain ⟨piece, hpiece, hmore⟩ := exists_of_bind_eq_ok hpieces
  obtain ⟨more, -, hcons⟩ := exists_of_bind_eq_ok hmore
  obtain rfl := Except.ok.inj hcons
  obtain rfl := Except.ok.inj htext
  rw [String.join_cons]
  by_cases hbrace : l = mark "\x7b"
  · subst hbrace
    obtain rfl := Except.ok.inj hpiece
    exact iff_of_true (by simp) rfl
  · rcases (Lexeme.startsPlainly_of_begins hl hbrace hpiece).append (String.join more)
      with ⟨c, cs, hcs, hc⟩
    rw [hcs, List.head?_cons]
    exact iff_of_false (fun heq => hc (Option.some.inj heq)) hbrace

namespace Begins

variable {ls : List Lexeme}

theorem append (h : Begins ls) (ms : List Lexeme) : Begins (ls ++ ms) := by
  rcases h with ⟨l, rest, rfl, hl⟩
  exact ⟨l, rest ++ ms, rfl, hl⟩

theorem wrappedIf (h : Begins ls) (needed : Bool) : Begins (wrappedIf needed ls) := by
  cases needed with
  | false => exact h
  | true => exact ⟨_, _, rfl, by decide⟩

theorem operand (h : Begins ls) {p : Place} {e : Expr} (least : Strength) :
    Begins (Layout.operand p least e ls) :=
  h.wrappedIf _

theorem startWith_append (h : Begins ls) (text : String) (ms : List Lexeme) :
    startWith text (ls ++ ms) = startWith text ls := by
  rcases h with ⟨l, rest, rfl, -⟩
  rfl

theorem memberBase (h : Begins ls) (p : Place) (base : Expr) (dotted : Bool) :
    Begins (Layout.memberBase p base dotted ls) := by
  unfold Layout.memberBase
  split
  · split
    · exact ⟨_, _, rfl, rfl⟩
    · exact h.wrappedIf _
  · exact ⟨_, _, rfl, by decide⟩
  · exact h.wrappedIf _

theorem get (h : Begins ls) (p : Place) (base property : Expr) (propertyText : List Lexeme) :
    Begins (Layout.get p base property ls propertyText) := by
  unfold Layout.get
  split
  · exact (h.memberBase p base true).append _
  · exact ((h.memberBase p base false).append _).append _

end Begins

/-- What the text of a function starts with. -/
theorem exists_function_eq (p : Place) (isAsync : Bool)
    (typeParameters parameters : List (List Lexeme)) (returnType : Option (List Lexeme))
    (body : List Lexeme) :
    ∃ l ∈ [.word "async", mark "<", mark "("], ∃ rest,
      Layout.function p isAsync typeParameters parameters returnType body = l :: rest := by
  cases isAsync with
  | true => exact ⟨_, by simp, _, rfl⟩
  | false =>
      cases htypes : Layout.typed p (Lexeme.angled typeParameters) with
      | nil => exact ⟨mark "(", by simp, _, by rw [Layout.function, htypes]; rfl⟩
      | cons l ls =>
          obtain rfl : mark "<" = l := by
            rw [Layout.typed, Lexeme.angled] at htypes
            split at htypes
            · split at htypes
              · exact absurd htypes (by simp)
              · exact (List.cons.inj htypes).1
            · exact absurd htypes (by simp)
          exact ⟨mark "<", by simp, _, by rw [Layout.function, htypes]; rfl⟩

/-- The text of an expression starts as an expression can: with a lexeme of its own, or as
what is at its left end. -/
theorem Expr.begins_layout (p : Place) (e : Expr) : Begins (e.layout p) := by
  cases e with
  | number value =>
      rw [Expr.layout, Layout.number]
      split
      · exact ⟨_, _, rfl, by decide⟩
      · exact ⟨_, _, rfl, rfl⟩
  | string value => exact ⟨_, _, rfl, rfl⟩
  | boolean value => cases value <;> exact ⟨_, _, rfl, by decide⟩
  | null => exact ⟨_, _, rfl, by decide⟩
  | undefined => exact ⟨_, _, rfl, by decide⟩
  | unary op e =>
      rw [Expr.layout, Layout.unary]
      cases op <;> exact ⟨_, _, rfl, by decide⟩
  | binary op left right =>
      rw [Expr.layout, Layout.binary]
      exact (((begins_layout p left).wrappedIf _).append _).append _
  | conditional condition thenExpr elseExpr =>
      rw [Expr.layout]
      exact (((((begins_layout p condition).operand _).append _).append _).append _).append _
  | array items => exact ⟨_, _, rfl, by decide⟩
  | object members =>
      rw [Expr.layout, Layout.braced]
      split <;> exact ⟨_, _, rfl, by decide⟩
  | lambda isAsync typeParameters parameters returnType body =>
      have hbegins : ∀ l ∈ [.word "async", mark "<", mark "("], l.begins = true := by decide
      rw [Expr.layout]
      obtain ⟨l, hl, rest, heq⟩ := exists_function_eq ..
      exact ⟨l, rest, heq, hbegins l hl⟩
  | reference n => exact ⟨_, _, rfl, n.isPropertyName⟩
  | global n => exact ⟨_, _, rfl, rfl⟩
  | imported path name => exact ⟨_, _, rfl, rfl⟩
  | get base property =>
      rw [Expr.layout]
      exact (begins_layout p base).get p base property _
  | call callee arguments =>
      rw [Expr.layout]
      exact ((begins_layout p callee).operand _).append _
  | new callee arguments => exact ⟨_, _, rfl, by decide⟩
  | assertion e type =>
      rw [Expr.layout]
      split
      · exact (((begins_layout p e).operand _).append _).append _
      · exact begins_layout p e
  | instantiation e arguments =>
      rw [Expr.layout]
      split
      · exact ((begins_layout p e).operand _).append _
      · exact begins_layout p e

/-! ## Left ends -/

/-- Whether an object literal is at the left end of an expression, with nothing but member
accesses, calls and instantiations around it. The base of a member access is not left bare
if it is an instantiation. -/
def Expr.leadsWithObject : Expr → Bool
  | .object _ => true
  | .get (.instantiation _ _) _ => false
  | .get base _ => base.leadsWithObject
  | .call callee _ => callee.leadsWithObject
  | .instantiation e _ => e.leadsWithObject
  | _ => false

section LeftEnds

variable {p : Place}

/-- Nothing in parentheses starts with a brace. -/
theorem startWith_wrappedIf (needed : Bool) (ls : List Lexeme) :
    startWith "\x7b" (wrappedIf needed ls) = (!needed && startWith "\x7b" ls) := by
  cases needed <;> rfl

/-- In TypeScript the base of a member access starts as an operand does, unless it is an
instantiation, which is put in parentheses. -/
theorem startWith_memberBase (hp : p.dialect = .typeScript) (base : Expr) (dotted : Bool) :
    startWith "\x7b" (Layout.memberBase p base dotted (base.layout p)) =
      match base with
      | .instantiation _ _ => false
      | base => startWith "\x7b" (Layout.operand p .callMember base (base.layout p)) := by
  unfold Layout.memberBase
  rw [hp]
  cases base with
  | number value =>
      have hdigits : startWith "\x7b" (Layout.operand p .callMember (.number value)
          ((Expr.number value).layout p)) = false := by
        rw [Layout.operand, startWith_wrappedIf, Expr.layout, Layout.number]
        split <;> exact Bool.and_false _
      dsimp only [Expr.written]
      split
      · exact hdigits.symm
      · rfl
  | _ => rfl

theorem startWith_get (hp : p.dialect = .typeScript) (base property : Expr)
    (propertyText : List Lexeme) :
    startWith "\x7b" (Layout.get p base property (base.layout p) propertyText) =
      match base with
      | .instantiation _ _ => false
      | base => startWith "\x7b" (Layout.operand p .callMember base (base.layout p)) := by
  have hbase := (Expr.begins_layout p base).memberBase p base
  rw [← startWith_memberBase hp base true, Layout.get]
  split
  · exact (hbase true).startWith_append _ _
  · rw [startWith_memberBase hp base true, ← startWith_memberBase hp base false, List.append_assoc]
    exact (hbase false).startWith_append _ _

/-- In TypeScript an operand starts with a brace if an object literal is at its left end. -/
theorem Expr.startWith_operand (hp : p.dialect = .typeScript) : (e : Expr) →
    startWith "\x7b" (Layout.operand p .callMember e (e.layout p)) = e.leadsWithObject
  | .object members => by
      rw [Layout.operand, startWith_wrappedIf, hp, Expr.layout, Layout.braced]
      split <;> rfl
  | .get base property => by
      rw [Layout.operand, startWith_wrappedIf, hp, Expr.layout, startWith_get hp]
      split
      · rfl
      · rename_i hbase
        rw [startWith_operand hp base, leadsWithObject]
        · rfl
        · exact hbase
  | .call callee arguments => by
      rw [Layout.operand, startWith_wrappedIf, hp, Expr.layout,
        ((begins_layout p callee).operand .callMember).startWith_append]
      exact startWith_operand hp callee
  | .instantiation e arguments => by
      have htypes : p.hasTypes = true := by rw [Place.hasTypes, hp]; rfl
      rw [Layout.operand, startWith_wrappedIf, hp, Expr.layout, if_pos htypes, Layout.applied,
        ((begins_layout p e).operand .callMember).startWith_append]
      exact startWith_operand hp e
  | .number value => by
      rw [Layout.operand, startWith_wrappedIf, hp, Expr.layout, Layout.number]
      split <;> exact Bool.and_false _
  | .unary op e => by rw [Layout.operand, startWith_wrappedIf, hp]; rfl
  | .binary op _ _ => by rw [Layout.operand, startWith_wrappedIf, hp]; cases op <;> rfl
  | .conditional _ _ _ | .assertion _ _ | .lambda _ _ _ _ _ => by
      rw [Layout.operand, startWith_wrappedIf, hp]; rfl
  | .string _ | .boolean _ | .null | .undefined | .array _ | .reference _ | .global _
  | .imported _ _ | .new _ _ => rfl

end LeftEnds

/-! ## Bodies -/

/-- Whether an expression starts with a brace where it is the body of a function. -/
def Expr.opensBody (dialect : Dialect) : Expr → Bool
  | .instantiation e _ => dialect = .typeScript && e.leadsWithObject
  | _ => false

theorem Expr.opensBody_javaScript (e : Expr) : e.opensBody .javaScript = false := by
  cases e <;> rfl

/-- What is tight enough to be left bare as a body does not start with a brace, if it is not
there for types only. -/
theorem Expr.startWith_bare (p : Place) {e : Expr} (h : e.isTypeLevel = false) :
    (!decide (e.writtenStrength < .lambda) && startWith "\x7b" (e.layout p)) = false := by
  cases e with
  | number value =>
      rw [Expr.layout, Layout.number]
      split <;> exact Bool.and_false _
  | binary op left right => cases op <;> rfl
  | lambda isAsync typeParameters parameters returnType body =>
      have hplain : ∀ l ∈ [.word "async", mark "<", mark "("], l ≠ mark "\x7b" := by decide
      obtain ⟨l, hl, rest, heq⟩ := exists_function_eq p isAsync _ _ _ _
      rw [Expr.layout, heq, startWith, List.head?_cons, decide_eq_false fun h =>
        hplain l hl (Option.some.inj h), Bool.and_false]
  | assertion e type => exact absurd h Bool.noConfusion
  | instantiation e arguments => exact absurd h Bool.noConfusion
  | _ => rfl

/-- A body starts with a brace only if it is an instantiation. -/
theorem Expr.startWith_conciseBody {p : Place} (e : Expr) :
    startWith "\x7b" (Layout.conciseBody p e (e.layout p)) = e.opensBody p.dialect := by
  have hbody : startWith "\x7b" (Layout.conciseBody p e (e.layout p)) =
      (!decide ((e.written p.dialect).writtenStrength < .lambda) &&
        startWith "\x7b" ((e.written p.dialect).layout p)) := by
    rw [Layout.conciseBody, startWith_wrappedIf, layout_written]
    rfl
  rw [hbody]
  cases hp : p.dialect with
  | javaScript => rw [startWith_bare p (isTypeLevel_written e), opensBody_javaScript]
  | typeScript =>
      cases e with
      | assertion e type => rfl
      | instantiation e arguments =>
          have htypes : p.hasTypes = true := by rw [Place.hasTypes, hp]; rfl
          rw [Expr.written, Expr.layout, if_pos htypes, Layout.applied,
            ((begins_layout p e).operand .callMember).startWith_append, startWith_operand hp e]
          rfl
      | _ => exact startWith_bare p rfl

/-! ## Functions -/

/-- The type parameters, the parameters and the body of a function of any kind. -/
def Node.function? : Node → Option (List TypeParameter × List Parameter × List Statement)
  | .definition (.function f) =>
    some (f.typeParameters, f.parameters.map DocumentedParameter.toParameter, f.body)
  | .statement (.function _ _ typeParameters parameters _ body) =>
    some (typeParameters, parameters, body)
  | .expr (.lambda _ typeParameters parameters _ body) => some (typeParameters, parameters, body)
  | _ => none

/-- The three kinds of functions. -/
theorem Node.of_function?_eq_some {node : Node} {typeParameters : List TypeParameter}
    {parameters : List Parameter} {body : List Statement}
    (h : node.function? = some (typeParameters, parameters, body)) :
    (∃ f : FunctionDefinition, node = .definition (.function f) ∧
      typeParameters = f.typeParameters ∧
      parameters = f.parameters.map DocumentedParameter.toParameter ∧ body = f.body) ∨
    (∃ isAsync n returnType,
      node = .statement (.function isAsync n typeParameters parameters returnType body)) ∨
    ∃ isAsync returnType, node = .expr (.lambda isAsync typeParameters parameters returnType body)
    := by
  unfold Node.function? at h
  split at h
  · obtain ⟨rfl, hrest⟩ := Prod.mk.inj (Option.some.inj h)
    obtain ⟨rfl, rfl⟩ := Prod.mk.inj hrest
    exact Or.inl ⟨_, rfl, rfl, rfl, rfl⟩
  · obtain ⟨rfl, hrest⟩ := Prod.mk.inj (Option.some.inj h)
    obtain ⟨rfl, rfl⟩ := Prod.mk.inj hrest
    exact Or.inr (Or.inl ⟨_, _, _, rfl⟩)
  · obtain ⟨rfl, hrest⟩ := Prod.mk.inj (Option.some.inj h)
    obtain ⟨rfl, rfl⟩ := Prod.mk.inj hrest
    exact Or.inr (Or.inr ⟨_, _, rfl⟩)
  · exact absurd h (by simp)

/-- The arrow of a function stands directly before its body. -/
theorem exists_function_eq_append (p : Place) (isAsync : Bool)
    (typeParameters parameters : List (List Lexeme)) (returnType : Option (List Lexeme))
    (body : List Lexeme) :
    ∃ head, Layout.function p isAsync typeParameters parameters returnType body =
      head ++ [space, mark "=>", space] ++ body :=
  ⟨_, rfl⟩

/-- What is bound to a name stands before the semicolon. -/
theorem exists_binding_eq_append (p : Place) (keyword : String) (n : Identifier)
    (type : Option (List Lexeme)) (value : List Lexeme) :
    ∃ before, Layout.binding p keyword n type value = before ++ value ++ [mark ";"] :=
  ⟨_, rfl⟩

namespace Writing

variable {w : Writing} {typeParameters : List TypeParameter} {parameters : List Parameter}

/-- The body of a function is written after its arrow. -/
theorem exists_lexemes_eq {body : List Statement}
    (h : w.node.function? = some (typeParameters, parameters, body)) :
    ∃ before after, w.lexemes = before ++ [space, mark "=>", space]
      ++ Statement.functionBody (w.place.bindFunction typeParameters parameters) body ++ after := by
  rcases w with ⟨p, inHead, node⟩
  rcases Node.of_function?_eq_some h with
    ⟨f, rfl, rfl, rfl, rfl⟩ | ⟨isAsync, n, returnType, rfl⟩ | ⟨isAsync, returnType, rfl⟩
  · obtain ⟨head, hhead⟩ := exists_function_eq_append p f.isAsync _ _ _ _
    obtain ⟨before, hbefore⟩ := exists_binding_eq_append p "const" f.name none _
    refine ⟨Layout.documentOf f.fullDocument ++ Layout.exportMark f.exported ++ before ++ head,
      [mark ";"], ?_⟩
    rw [lexemes, Definition.layout?, Option.getD_some, FunctionDefinition.layout, hbefore, hhead]
    simp only [List.append_assoc]
  · obtain ⟨head, hhead⟩ := exists_function_eq_append p isAsync _ _ _ _
    obtain ⟨before, hbefore⟩ := exists_binding_eq_append p "const" n none _
    refine ⟨before ++ head, [mark ";"], ?_⟩
    rw [lexemes, Statement.layout, hbefore, hhead]
    simp only [List.append_assoc]
  · obtain ⟨head, hhead⟩ := exists_function_eq_append p isAsync _ _ _ _
    refine ⟨head, [], ?_⟩
    rw [lexemes, Expr.layout, hhead, List.append_nil]

/-- A function that only returns something is written with what it returns. -/
theorem returned_mem_parts {e : Expr}
    (h : w.node.function? = some (typeParameters, parameters, [.returnValue e])) :
    ⟨w.place.bindFunction typeParameters parameters, w.inHead, .expr e⟩ ∈ w.parts := by
  rcases w with ⟨p, inHead, node⟩
  rcases Node.of_function?_eq_some h with
    ⟨f, rfl, rfl, rfl, hbody⟩ | ⟨isAsync, n, returnType, rfl⟩ | ⟨isAsync, returnType, rfl⟩
  · rw [parts, Definition.writings, ← hbody]
    exact List.mem_append_right _ List.mem_cons_self
  · exact List.mem_append_right _ List.mem_cons_self
  · exact List.mem_append_right _ List.mem_cons_self

end Writing

/-- A body is spelled as what is returned, in parentheses if it is weaker than a lambda. -/
theorem spellAll_conciseBody {table : ImportTable} {p : Place} {e : Expr} {own : String}
    (h : spellAll table (e.layout p) = .ok own) :
    spellAll table (Layout.conciseBody p e (e.layout p)) =
      .ok (if e.strength p.dialect < .lambda then "(" ++ own ++ ")" else own) := by
  rw [Layout.conciseBody]
  split
  · rename_i hweak
    rw [decide_eq_true hweak]
    have hopen : spellAll table [mark "("] = .ok "(" := rfl
    have hclose : spellAll table [mark ")"] = .ok ")" := rfl
    exact spellAll_append_eq_ok_iff.mpr
      ⟨_, _, spellAll_append_eq_ok_iff.mpr ⟨_, _, hopen, h, rfl⟩, hclose, rfl⟩
  · rename_i htight
    rw [decide_eq_false htight]
    exact h

namespace Module

/-- The text of a function that only returns something has what it returns after the arrow,
as it is or in parentheses.  What stands there starts with a brace only if it is an
instantiation in TypeScript with an object literal at the left end.  In all other cases what
starts with a brace by itself is put in parentheses. -/
theorem brace_after_arrow_iff {policy : UnresolvedPolicy} {m : Module} {c : Census}
    {dialect : Dialect} {w : Writing} {typeParameters : List TypeParameter}
    {parameters : List Parameter} {e : Expr} (h : m.census policy = .ok c)
    (hw : w ∈ m.writings dialect)
    (hfunction : w.node.function? = some (typeParameters, parameters, [.returnValue e])) :
    ∃ before own body after,
      spellAll (.ofCensus c) w.lexemes = .ok (before ++ " => " ++ body ++ after) ∧
        spellAll (.ofCensus c) (e.layout (w.place.bindFunction typeParameters parameters)) =
          .ok own ∧
        (body = own ∨ body = "(" ++ own ++ ")") ∧
        (body.toList.head? = some '\x7b' ↔ e.opensBody dialect = true) ∧
        (own.toList.head? = some '\x7b' → e.opensBody dialect = false →
          body = "(" ++ own ++ ")") := by
  let p := w.place.bindFunction typeParameters parameters
  have hdialect : p.dialect = dialect := dialect_of_mem_writings hw
  obtain ⟨text, htext⟩ := exists_spellAll_lexemes h hw
  obtain ⟨own, hown⟩ := exists_spellAll_lexemes h
    (mem_writings_of_mem_parts hw (Writing.returned_mem_parts hfunction))
  have hbody := spellAll_conciseBody (p := p) (e := e) hown
  rw [hdialect] at hbody
  have hbrace := head?_eq_brace_iff ((e.begins_layout p).wrappedIf _) hbody
  rw [← Layout.conciseBody, e.startWith_conciseBody, hdialect] at hbrace
  obtain ⟨head, tail, hlexemes⟩ := Writing.exists_lexemes_eq hfunction
  rw [hlexemes, Statement.functionBody] at htext
  obtain ⟨front, after, hfront, -, rfl⟩ := spellAll_append_eq_ok_iff.mp htext
  obtain ⟨opening, body, hopening, hmiddle, rfl⟩ := spellAll_append_eq_ok_iff.mp hfront
  obtain ⟨before, arrow, -, harrow, rfl⟩ := spellAll_append_eq_ok_iff.mp hopening
  obtain rfl : " => " = arrow := Except.ok.inj harrow
  obtain rfl := Except.ok.inj (hmiddle.symm.trans hbody)
  rw [← Statement.functionBody, ← hlexemes] at htext
  refine ⟨before, own, _, after, htext, hown, ?_, hbrace, ?_⟩
  · split
    · exact Or.inr rfl
    · exact Or.inl rfl
  · intro hopens hplain
    split
    · rfl
    · rename_i htight
      rw [if_neg htight, hopens, hplain] at hbrace
      exact absurd (hbrace.mp rfl) Bool.false_ne_true

/-- A lambda that returns an object literal, in JavaScript. -/
theorem brace_after_arrow_iff_object :
    let m : Module := ⟨[.binding ⟨false, .ofString "f", "", none,
      .lambda false [] [] none [.returnValue (.object [])]⟩], []⟩
    ∃ c, m.census .reject = .ok c ∧
      ∃ before own body after,
        spellAll (.ofCensus c) (Expr.layout (m.place .javaScript)
          (.lambda false [] [] none [.returnValue (.object [])])) =
            .ok (before ++ " => " ++ body ++ after) ∧
          spellAll (.ofCensus c) (Expr.layout ((m.place .javaScript).bindFunction [] [])
            (.object [])) = .ok own ∧
          (body = own ∨ body = "(" ++ own ++ ")") ∧
          (body.toList.head? = some '\x7b' ↔ (Expr.object []).opensBody .javaScript = true) ∧
          (own.toList.head? = some '\x7b' → (Expr.object []).opensBody .javaScript = false →
            body = "(" ++ own ++ ")") := by
  intro m
  have hdefinition : ⟨m.place .javaScript, false, .definition (.binding ⟨false, .ofString "f", "",
      none, .lambda false [] [] none [.returnValue (.object [])]⟩)⟩ ∈ m.writings .javaScript :=
    mem_writings_of_mem List.mem_cons_self
  have hlambda := mem_writings_of_mem_parts hdefinition List.mem_cons_self
  have hcensus : m.census .reject = .ok _ := rfl
  exact ⟨_, hcensus, brace_after_arrow_iff hcensus hlambda rfl⟩

/-- An instantiation of an object literal is left bare in TypeScript: the brace that it starts
with stands directly after the arrow. -/
theorem exists_brace_after_arrow :
    let e := Expr.instantiation (.object []) [.number]
    let m : Module := ⟨[.binding ⟨false, .ofString "f", "", none,
      .lambda false [] [] none [.returnValue e]⟩], []⟩
    spellAll ⟨[]⟩ (e.layout ((m.place .typeScript).bindFunction [] [])) =
        .ok "\x7b\x7d<number>" ∧
      m.generate Options.standard = .ok ("/* eslint-disable */\n"
        ++ "/* generated by gen-js. Do not edit! */\n\nconst f = () => \x7b\x7d<number>;\n") :=
  ⟨rfl, rfl⟩

end Module

end EcmaWriter
