import EcmaWriter.Layout.Node
import EcmaWriter.Proofs.Layout.Basic
import EcmaWriter.Proofs.Script.Phrases

/-!
# EcmaWriter - What is written is derived

The grammar derives the tree of an expression from the tokens of what is written.  Every
place that holds an expression has its lemma: what is written there is a phrase that the
place takes, with parentheses or without.

Main results:

- Theorem `Expr.derives_layout`: the tokens of what is written derive the tree.
-/

namespace EcmaWriter

open Script Lexeme

namespace Expr

/-- What is at least as strong as a lambda does not start with a brace. -/
theorem head?_tokens_layout {p : Place} (hp : p.dialect = .javaScript) {e : Expr} {t : Tree}
    (h : e.tree? = some t) (hstrong : Strength.lambda ≤ e.writtenStrength) :
    (tokens (e.layout p)).head? ≠ some (.punctuator "\x7b") := by
  cases e with
  | number value =>
      rw [layout, Layout.number]
      split <;> simp
  | lambda isAsync typeParameters parameters returnType body =>
      rw [layout, Layout.function, Layout.typed_javaScript hp]
      cases isAsync <;> simp [enclosed]
  | unary op e => exact absurd hstrong (by decide : ¬ Strength.lambda ≤ Strength.unary)
  | binary op left right =>
      have hweak : ¬ Strength.lambda ≤ op.strength := by cases op <;> decide
      exact absurd hstrong hweak
  | conditional condition thenExpr elseExpr =>
      exact absurd hstrong (by decide : ¬ Strength.lambda ≤ Strength.conditional)
  | object members =>
      exact absurd hstrong (by decide : ¬ Strength.lambda ≤ Strength.objectLiteral)
  | get base property =>
      exact absurd hstrong (by decide : ¬ Strength.lambda ≤ Strength.callMember)
  | call callee arguments =>
      exact absurd hstrong (by decide : ¬ Strength.lambda ≤ Strength.callMember)
  | new callee arguments =>
      exact absurd hstrong (by decide : ¬ Strength.lambda ≤ Strength.callMember)
  | global n => exact absurd h (by simp [tree?])
  | imported path key => exact absurd h (by simp [tree?])
  | assertion e type => exact absurd h (by simp [tree?])
  | instantiation e arguments => exact absurd h (by simp [tree?])
  | _ => simp [layout, Layout.name]

/-! ## Places of expressions -/

/-- An expression with a tree that is derived from what is written. -/
structure Derived (p : Place) (e : Expr) (t : Tree) : Prop where
  tree : e.tree? = some t
  derives : Derives e.phrase (tokens (e.layout p)) t

namespace Derived

variable {p : Place} {e : Expr} {t : Tree}

/-- Whatever is derived is an expression. -/
theorem assignment (d : Derived p e t) : Derives .assignment (tokens (e.layout p)) t :=
  d.derives.lift e.assignment_covers_phrase

/-- In parentheses any expression is a primary phrase. -/
theorem wrapped (d : Derived p e t) {A : Phrase} {needed : Bool}
    (hA : needed = true → A.covers .primary = true)
    (h : needed = false → A.covers e.phrase = true) :
    Derives A (tokens (wrappedIf needed (e.layout p))) t := by
  cases needed with
  | false => exact d.derives.lift (h rfl)
  | true =>
      refine .lift (hA rfl) ?_
      rw [wrappedIf, if_pos rfl, tokens_parenthesized]
      exact .parenthesized d.assignment

variable (hp : p.dialect = .javaScript)
include hp

/-- A place that takes the phrases of all expressions that are strong enough. -/
theorem operand (d : Derived p e t) {A : Phrase} {least : Strength}
    (hA : e.operandStrength .javaScript < least → A.covers .primary = true)
    (h : least ≤ e.operandStrength .javaScript → A.covers e.phrase = true) :
    Derives A (tokens (Layout.operand p least e (e.layout p))) t := by
  refine d.wrapped ?_ ?_
  · rw [hp, decide_eq_true_iff]
    exact hA
  · rw [hp, decide_eq_false_iff_not, Nat.not_lt]
    exact h

/-- A callee or the base of a member access. -/
theorem head (d : Derived p e t) :
    Derives e.headPhrase (tokens (Layout.operand p .callMember e (e.layout p))) t := by
  refine d.operand hp ?_ (headPhrase_covers_phrase d.tree)
  intro hweak
  rw [headPhrase, if_neg]
  · decide
  · intro hchain
    exact Nat.not_le_of_lt hweak (callMember_le_of_hasCallInChain d.tree hchain)

/-- The callee of `new`. -/
theorem constructor (d : Derived p e t) :
    Derives .member (tokens (Layout.constructor p e (e.layout p))) t := by
  refine d.wrapped (fun _ => by decide) ?_
  intro hneeded
  rw [hp, Bool.or_eq_false_iff, decide_eq_false_iff_not, Nat.not_lt] at hneeded
  have hcovers := headPhrase_covers_phrase d.tree hneeded.1
  rw [headPhrase, if_neg (by simp [hneeded.2])] at hcovers
  exact hcovers

/-- The base of a member access. -/
theorem base (d : Derived p e t) (dotted : Bool) :
    Derives e.headPhrase (tokens (Layout.memberBase p e dotted (e.layout p))) t := by
  rw [Layout.memberBase, written_of_tree? d.tree]
  split
  · rename_i value
    obtain rfl : numberTree value = t := Option.some.inj d.tree
    split
    · rename_i hpointed
      rw [Bool.and_eq_true, decide_eq_true_iff] at hpointed
      rw [numberTree, if_neg (Int32.not_lt.mpr hpointed.1)]
      exact .lift rfl (.number _)
    · exact d.head hp
  · exact absurd d.tree (by simp [tree?])
  · exact d.head hp

/-- An expression that a lambda returns never starts like a block. -/
theorem body (d : Derived p e t) :
    Derives .assignment (tokens (Layout.conciseBody p e (e.layout p))) t ∧
      (tokens (Layout.conciseBody p e (e.layout p))).head? ≠ some (.punctuator "\x7b") := by
  refine ⟨d.wrapped (fun _ => by decide) fun _ => e.assignment_covers_phrase, ?_⟩
  rw [Layout.conciseBody, strength, written_of_tree? d.tree]
  by_cases hweak : e.writtenStrength < .lambda
  · rw [decide_eq_true hweak, wrappedIf, if_pos rfl, tokens_parenthesized]
    simp [enclosed]
  · rw [decide_eq_false hweak, wrappedIf, if_neg Bool.false_ne_true]
    exact head?_tokens_layout hp d.tree (Nat.le_of_not_lt hweak)

/-! ### Forms of expressions -/

/-- An operator before its operand, wrapped if it is weaker. -/
theorem unaryOperation (d : Derived p e t) (op : UnaryOperator) :
    Derives .unary (tokens (Layout.unary p op e (e.layout p))) (.unary op t) := by
  have hoperator : tokens (Layout.unaryOperator op) = [unaryToken op] := by cases op <;> rfl
  rw [Layout.unary, tokens_append, hoperator, List.singleton_append, hp]
  refine .unary op (d.wrapped (fun _ => by decide) ?_)
  intro hneeded
  rw [Bool.or_eq_false_iff, decide_eq_false_iff_not, Nat.not_lt] at hneeded
  exact unary_covers_phrase d.tree hneeded.1

/-- Operands of both sides, each wrapped if it is weaker than the side asks. -/
theorem binaryOperation {right : Expr} {u : Tree} (d : Derived p e t) (dr : Derived p right u)
    (op : BinaryOperator) :
    Derives (production op).whole
      (tokens (Layout.binary p op e right (e.layout p) (right.layout p))) (.binary op t u) := by
  have hmark : op.mark = (production op).symbol := by cases op <;> rfl
  have hleft : Derives (production op).left
      (tokens (wrappedIf (op.wraps .javaScript .left e) (e.layout p))) t :=
    d.wrapped (fun _ => operandPhrase_covers_head op .left (Or.inl rfl))
      (operand_covered d.tree op .left)
  have hright : Derives (production op).right
      (tokens (wrappedIf (op.wraps .javaScript .right right) (right.layout p))) u :=
    dr.wrapped (fun _ => operandPhrase_covers_head op .right (Or.inl rfl))
      (operand_covered dr.tree op .right)
  have hwhole := Derives.binary op hleft hright
  simpa [Layout.binary, hp, hmark] using hwhole

/-- The condition is wrapped if it is a conditional itself. -/
theorem conditional {thenExpr elseExpr : Expr} {u v : Tree} (d : Derived p e t)
    (du : Derived p thenExpr u) (dv : Derived p elseExpr v) :
    Derives .conditional
      (tokens (Expr.layout p (.conditional e thenExpr elseExpr))) (.conditional t u v) := by
  have hcondition := d.operand hp (fun _ => by decide) (shortCircuit_covers_phrase d.tree)
  have hthen : Derives .assignment
      (tokens (Layout.operand p .conditional thenExpr (thenExpr.layout p))) u :=
    du.operand hp (fun _ => by decide) fun _ => thenExpr.assignment_covers_phrase
  have helse : Derives .assignment
      (tokens (Layout.operand p .conditional elseExpr (elseExpr.layout p))) v :=
    dv.operand hp (fun _ => by decide) fun _ => elseExpr.assignment_covers_phrase
  have hwhole := Derives.conditional hcondition hthen helse
  simpa [layout] using hwhole

/-- A member access; a call in its chain makes it a call. -/
theorem member {property : Expr} {u : Tree} (d : Derived p e t) (du : Derived p property u) :
    Derives e.headPhrase
      (tokens (Layout.get p e property (e.layout p) (property.layout p))) (.get t u) := by
  have hhead := e.headPhrase_eq
  rw [Layout.get]
  split
  · rename_i key hkey
    rcases eq_of_dottedName? hkey with ⟨rfl, hname⟩
    obtain rfl : .string (readBack key) = u := Option.some.inj du.tree
    rw [readBack_of_isPropertyName hname]
    have hwhole := Derives.dot key hhead (d.base hp true)
    simpa using hwhole
  · have hwhole := Derives.index hhead (d.base hp false) du.assignment
    simpa [enclosed] using hwhole

/-- A call, whose head is wrapped unless it is a member access or a call. -/
theorem callOperation (d : Derived p e t) {args : List Reading} {texts : List (List Lexeme)}
    (htexts : texts.map tokens = args.map Reading.tokens)
    (da : ∀ a ∈ args, Derives .assignment a.tokens a.tree) :
    Derives .call
      (tokens (Layout.operand p .callMember e (e.layout p) ++ parenthesized (listed texts)))
      (.call t (args.map Reading.tree)) := by
  have hwhole := Derives.call args e.headPhrase_eq (d.head hp) da
  simpa [htexts, Script.arguments] using hwhole

/-- A construction, whose head is wrapped if there is a call in its chain. -/
theorem construction (d : Derived p e t) {args : List Reading} {texts : List (List Lexeme)}
    (htexts : texts.map tokens = args.map Reading.tokens)
    (da : ∀ a ∈ args, Derives .assignment a.tokens a.tree) :
    Derives .member
      (tokens ([word "new", space] ++ Layout.constructor p e (e.layout p)
        ++ parenthesized (listed texts)))
      (.new t (args.map Reading.tree)) := by
  have hwhole := Derives.new args (d.constructor hp) da
  simpa [htexts, Script.arguments] using hwhole

end Derived

/-! ### Members of objects -/

/-- What a member of an object is read as, in one of the forms of the grammar. -/
def ReadsMember (text : List Lexeme) (property : Property) : Prop :=
  ∃ q : PropertyReading, tokens text = q.written ∧ q.property = property ∧
    q.isLegal = true ∧ ∀ r ∈ q.readings, Derives .assignment r.tokens r.tree

/-- A name is a bare or a quoted key. -/
theorem readsMember_string {p : Place} {value : Expr} {u : Tree} (key : String)
    (du : Derived p value u) :
    ReadsMember (Layout.propertyKey key :: [mark ":", space] ++ value.layout p)
      (.keyValue (.string (readBack key)) u) := by
  have hvalue : ∀ r ∈ [(⟨tokens (value.layout p), u⟩ : Reading)],
      Derives .assignment r.tokens r.tree := by
    intro r hr
    rw [List.mem_singleton.mp hr]
    exact du.assignment
  by_cases hname : isPropertyName key = true
  · refine ⟨.named key ⟨tokens (value.layout p), u⟩, ?_, ?_, rfl, hvalue⟩
    · simp [Layout.propertyKey, hname, PropertyReading.written]
    · rw [readBack_of_isPropertyName hname, PropertyReading.property]
  · refine ⟨.quoted (readBack key) ⟨tokens (value.layout p), u⟩, ?_, rfl, rfl, hvalue⟩
    simp [Layout.propertyKey, hname, PropertyReading.written]

/-- No keyword of the grammar is a bare name. -/
theorem isReference_of_isBareName {name : String} (h : isBareName name = true) :
    isReference name = true := by
  rw [isBareName, Bool.and_eq_true, Bool.not_eq_true'] at h
  rw [isReference, Bool.not_eq_true', ← Bool.not_eq_true, List.contains_iff_mem]
  intro hmem
  have hreserved : ∀ word ∈ keywords, isReservedWord word = true := by decide
  exact Bool.false_ne_true (h.2.symm.trans (hreserved name hmem))

/-- A member is read as a key with its value, in the short form as well. -/
theorem readsMember_keyValue {p : Place} {key value : Expr} {t u : Tree} (d : Derived p key t)
    (du : Derived p value u) :
    ReadsMember (Layout.keyValue key value (key.layout p) (value.layout p)) (.keyValue t u) := by
  unfold Layout.keyValue
  split
  · rename_i text n
    obtain rfl : .string (readBack text) = t := Option.some.inj d.tree
    split
    · rename_i hsame
      rw [Bool.and_eq_true, decide_eq_true_iff] at hsame
      obtain rfl : .reference n.text = u := Option.some.inj du.tree
      refine ⟨.shorthand text, rfl, ?_, isReference_of_isBareName hsame.1, by
        simp [PropertyReading.readings]⟩
      have hname : isPropertyName text = true := (Bool.and_eq_true_iff.mp hsame.1).1
      rw [PropertyReading.property, readBack_of_isPropertyName hname, hsame.2]
    · exact readsMember_string text du
  · rename_i text _
    obtain rfl : .string (readBack text) = t := Option.some.inj d.tree
    exact readsMember_string text du
  · refine ⟨.computed ⟨tokens (key.layout p), t⟩ ⟨tokens (value.layout p), u⟩, ?_, rfl, rfl, ?_⟩
    · simp [PropertyReading.written, enclosed]
    · intro r hr
      rw [PropertyReading.readings, List.mem_cons, List.mem_singleton] at hr
      rcases hr with rfl | rfl
      · exact d.assignment
      · exact du.assignment

/-- Tokens of members in curly brackets. -/
theorem tokens_braced (texts : List (List Lexeme)) :
    tokens (Layout.braced [mark ",", space] texts) =
      enclosed "\x7b" "\x7d" (commaSeparated (texts.map tokens)) := by
  rw [Layout.braced]
  cases texts with
  | nil => rfl
  | cons text texts =>
      have hlisted := tokens_listed (text :: texts)
      rw [listed] at hlisted
      simp [enclosed, hlisted]

/-! ### Functions -/

/-- Only the names of parameters are written. -/
theorem tokens_parameters {p : Place} (hp : p.dialect = .javaScript)
    (parameters : List Parameter) :
    (Parameter.layouts p parameters).map tokens = parameters.map fun q => [.word q.name.text] := by
  rw [Parameter.layouts_javaScript hp, List.map_map, List.map_map]
  rfl

/-- A function without types whose body is an expression that is no object. -/
theorem derives_function {p inner : Place} (hp : p.dialect = .javaScript)
    (hinner : inner.dialect = .javaScript) (isAsync : Bool)
    (typeParameters : List (List Lexeme)) (parameters : List Parameter)
    (returnType : Option (List Lexeme)) {body : List Lexeme} {t : Tree}
    (d : Derives .assignment (tokens body) t)
    (hbrace : (tokens body).head? ≠ some (.punctuator "\x7b")) :
    Derives .assignment
      (tokens (Layout.function p isAsync typeParameters (Parameter.layouts inner parameters)
        returnType body))
      (.lambda isAsync (parameters.map fun q => q.name.text) t) := by
  have hreference : ∀ q ∈ parameters.map fun q => q.name.text, isReference q = true := by
    intro q hq
    rcases List.mem_map.mp hq with ⟨r, -, rfl⟩
    exact isReference_of_isBareName r.name.isBare
  have hwhole := Derives.arrow isAsync _ hreference d hbrace
  rw [List.map_map] at hwhole
  rw [Layout.function, Layout.typed_javaScript hp, Layout.annotation_javaScript hp]
  cases isAsync <;> simpa [tokens_parameters hinner, Function.comp_def] using hwhole

/-! ## Derivations -/

mutual

/-- What is written of an expression derives its tree. -/
theorem derives_layout {p : Place} (hp : p.dialect = .javaScript) :
    (e : Expr) → {t : Tree} → e.tree? = some t → Derives e.phrase (tokens (e.layout p)) t
  | .number value, t, h => by
      obtain rfl : numberTree value = t := Option.some.inj h
      rw [layout, Layout.number, phrase, numberTree]
      split
      · exact .unary .minus (.lift (by decide) (.number _))
      · exact .number _
  | .string value, t, h => by
      obtain rfl : .string (readBack value) = t := Option.some.inj h
      exact .string _
  | .boolean value, t, h => by
      obtain rfl : .boolean value = t := Option.some.inj h
      exact .boolean value
  | .null, t, h => by
      obtain rfl : .null = t := Option.some.inj h
      exact .null
  | .undefined, t, h => by
      obtain rfl : .undefined = t := Option.some.inj h
      exact .undefined
  | .reference n, t, h => by
      obtain rfl : .reference n.text = t := Option.some.inj h
      exact .reference (isReference_of_isBareName n.isBare)
  | .unary op e, t, h => by
      simp only [tree?, Option.bind_eq_bind, Option.bind_eq_some_iff, Option.some.injEq] at h
      rcases h with ⟨t, ht, rfl⟩
      exact (Derived.mk ht (derives_layout hp e ht)).unaryOperation hp op
  | .binary op left right, t, h => by
      simp only [tree?, Option.bind_eq_bind, Option.bind_eq_some_iff, Option.some.injEq] at h
      rcases h with ⟨t, ht, u, hu, rfl⟩
      exact (Derived.mk ht (derives_layout hp left ht)).binaryOperation hp
        ⟨hu, derives_layout hp right hu⟩ op
  | .conditional condition thenExpr elseExpr, t, h => by
      simp only [tree?, Option.bind_eq_bind, Option.bind_eq_some_iff, Option.some.injEq] at h
      rcases h with ⟨t, ht, u, hu, v, hv, rfl⟩
      exact (Derived.mk ht (derives_layout hp condition ht)).conditional hp
        ⟨hu, derives_layout hp thenExpr hu⟩ ⟨hv, derives_layout hp elseExpr hv⟩
  | .array items, t, h => by
      simp only [tree?, Option.bind_eq_bind, Option.bind_eq_some_iff, Option.some.injEq] at h
      rcases h with ⟨list, hlist, rfl⟩
      rcases exists_itemReadings hp items hlist with ⟨readings, htexts, rfl, hreadings⟩
      have hwhole := Derives.array readings hreadings
      simpa [layout, phrase, htexts, enclosed] using hwhole
  | .object members, t, h => by
      simp only [tree?, Option.bind_eq_bind, Option.bind_eq_some_iff, Option.some.injEq] at h
      rcases h with ⟨list, hlist, rfl⟩
      rcases exists_memberReadings hp members hlist with ⟨readings, htexts, rfl, hlegal, hreadings⟩
      have hwhole := Derives.object readings hlegal hreadings
      rw [layout, tokens_braced, htexts]
      exact hwhole
  | .lambda isAsync typeParameters parameters returnType body, t, h => by
      simp only [tree?, Option.bind_eq_bind, Option.bind_eq_some_iff, Option.some.injEq] at h
      rcases h with ⟨t, ht, rfl⟩
      have hinner : (p.bindFunction typeParameters parameters).dialect = .javaScript := hp
      rcases derives_body hinner body ht with ⟨hbody, hbrace⟩
      exact derives_function hp hinner isAsync _ parameters _ hbody hbrace
  | .get base property, t, h => by
      simp only [tree?, Option.bind_eq_bind, Option.bind_eq_some_iff, Option.some.injEq] at h
      rcases h with ⟨t, ht, u, hu, rfl⟩
      exact (Derived.mk ht (derives_layout hp base ht)).member hp
        ⟨hu, derives_layout hp property hu⟩
  | .call callee arguments, t, h => by
      simp only [tree?, Option.bind_eq_bind, Option.bind_eq_some_iff, Option.some.injEq] at h
      rcases h with ⟨t, ht, list, hlist, rfl⟩
      rcases exists_readings hp arguments hlist with ⟨readings, htexts, rfl, hreadings⟩
      exact (Derived.mk ht (derives_layout hp callee ht)).callOperation hp htexts hreadings
  | .new callee arguments, t, h => by
      simp only [tree?, Option.bind_eq_bind, Option.bind_eq_some_iff, Option.some.injEq] at h
      rcases h with ⟨t, ht, list, hlist, rfl⟩
      rcases exists_readings hp arguments hlist with ⟨readings, htexts, rfl, hreadings⟩
      exact (Derived.mk ht (derives_layout hp callee ht)).construction hp htexts hreadings
  | .global _, _, h => absurd h (by simp [tree?])
  | .imported _ _, _, h => absurd h (by simp [tree?])
  | .assertion _ _, _, h => absurd h (by simp [tree?])
  | .instantiation _ _, _, h => absurd h (by simp [tree?])

/-- Each of some expressions has a reading. -/
theorem exists_readings {p : Place} (hp : p.dialect = .javaScript) :
    (es : List Expr) → {list : List Tree} → Expr.trees? es = some list →
      ∃ readings : List Reading,
        (Expr.layouts p es).map tokens = readings.map Reading.tokens ∧
          readings.map Reading.tree = list ∧
            ∀ r ∈ readings, Derives .assignment r.tokens r.tree
  | [], list, h => by
      obtain rfl : [] = list := Option.some.inj h
      exact ⟨[], rfl, rfl, by simp⟩
  | e :: es, list, h => by
      simp only [trees?, Option.bind_eq_bind, Option.bind_eq_some_iff, Option.some.injEq] at h
      rcases h with ⟨t, ht, list, hlist, rfl⟩
      rcases exists_readings hp es hlist with ⟨readings, htexts, rfl, hreadings⟩
      have hfirst := (Derived.mk ht (derives_layout hp e ht)).assignment
      refine ⟨⟨tokens (e.layout p), t⟩ :: readings, ?_, rfl,
        List.forall_mem_cons.mpr ⟨hfirst, hreadings⟩⟩
      simp [Expr.layouts, htexts]

/-- Each item of an array has a reading. -/
theorem exists_itemReadings {p : Place} (hp : p.dialect = .javaScript) :
    (items : List ArrayItem) → {list : List Item} → ArrayItem.trees? items = some list →
      ∃ readings : List ItemReading,
        (ArrayItem.layouts p items).map tokens = readings.map ItemReading.written ∧
          readings.map ItemReading.item = list ∧
            ∀ r ∈ readings, Derives .assignment r.tokens r.tree
  | [], list, h => by
      obtain rfl : [] = list := Option.some.inj h
      exact ⟨[], rfl, rfl, by simp⟩
  | ⟨e, spread⟩ :: items, list, h => by
      simp only [ArrayItem.trees?, Option.bind_eq_bind, Option.bind_eq_some_iff,
        Option.some.injEq] at h
      rcases h with ⟨t, ht, list, hlist, rfl⟩
      rcases exists_itemReadings hp items hlist with ⟨readings, htexts, rfl, hreadings⟩
      have hfirst := (Derived.mk ht (derives_layout hp e ht)).assignment
      refine ⟨⟨⟨tokens (e.layout p), t⟩, spread⟩ :: readings, ?_, rfl,
        List.forall_mem_cons.mpr ⟨hfirst, hreadings⟩⟩
      cases spread <;> simp [ArrayItem.layouts, htexts, ItemReading.written]

/-- Each member of an object has a reading, and its key is legal where it is bare. -/
theorem exists_memberReadings {p : Place} (hp : p.dialect = .javaScript) :
    (members : List Member) → {list : List Property} → Member.trees? members = some list →
      ∃ readings : List PropertyReading,
        (Member.layouts p members).map tokens = readings.map PropertyReading.written ∧
          readings.map PropertyReading.property = list ∧
            (∀ q ∈ readings, q.isLegal = true) ∧
              ∀ q ∈ readings, ∀ r ∈ q.readings, Derives .assignment r.tokens r.tree
  | [], list, h => by
      obtain rfl : [] = list := Option.some.inj h
      exact ⟨[], rfl, rfl, by simp, by simp⟩
  | .spread e :: members, list, h => by
      simp only [Member.trees?, Option.bind_eq_bind, Option.bind_eq_some_iff,
        Option.some.injEq] at h
      rcases h with ⟨t, ht, list, hlist, rfl⟩
      rcases exists_memberReadings hp members hlist with ⟨readings, htexts, rfl, hlegal, hreadings⟩
      have hfirst := (Derived.mk ht (derives_layout hp e ht)).assignment
      refine ⟨.spread ⟨tokens (e.layout p), t⟩ :: readings, ?_, rfl,
        List.forall_mem_cons.mpr ⟨rfl, hlegal⟩, List.forall_mem_cons.mpr ⟨?_, hreadings⟩⟩
      · simp [Member.layouts, htexts, PropertyReading.written]
      · simpa [PropertyReading.readings] using hfirst
  | .keyValue key value :: members, list, h => by
      simp only [Member.trees?, Option.bind_eq_bind, Option.bind_eq_some_iff,
        Option.some.injEq] at h
      rcases h with ⟨t, ht, u, hu, list, hlist, rfl⟩
      rcases exists_memberReadings hp members hlist with ⟨readings, htexts, rfl, hlegal, hreadings⟩
      obtain ⟨q, hwritten, hproperty, hq, hparts⟩ :=
        readsMember_keyValue ⟨ht, derives_layout hp key ht⟩ ⟨hu, derives_layout hp value hu⟩
      refine ⟨q :: readings, ?_, ?_, List.forall_mem_cons.mpr ⟨hq, hlegal⟩,
        List.forall_mem_cons.mpr ⟨hparts, hreadings⟩⟩
      · simp [Member.layouts, htexts, hwritten]
      · simp [hproperty]

/-- The body of a function is derived, and a brace at its start is hidden. -/
theorem derives_body {p : Place} (hp : p.dialect = .javaScript) :
    (body : List Statement) → {t : Tree} → Statement.returnedTree? body = some t →
      Derives .assignment (tokens (Statement.functionBody p body)) t ∧
        (tokens (Statement.functionBody p body)).head? ≠ some (.punctuator "\x7b")
  | [.returnValue e], _, h => (Derived.mk h (derives_layout hp e h)).body hp

end

end Expr

end EcmaWriter
