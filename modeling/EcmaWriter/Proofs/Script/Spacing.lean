import EcmaWriter.Layout.Node
import EcmaWriter.Proofs.Script.Derivation
import EcmaWriter.Proofs.Script.Runs

/-!
# EcmaWriter - The lexemes of expressions keep apart

What is written of an expression is a run of lexemes, one form after the other.  Only two
places need care: a minus sign before a minus sign, and a number before a point.

Main results:

- Theorem `Expr.whole_layout`: the lexemes of an expression keep apart.
-/

namespace EcmaWriter

open Script Lexeme

/-! ## Forms of expressions -/

namespace Lexeme.Whole

variable {p : Place} {ls ms : List Lexeme}

/-- A minus sign stands before everything but a minus sign. -/
theorem minus (h : Whole ls) (hne : ∀ l ∈ ls.head?, l ≠ mark "-") : Whole (mark "-" :: ls) := by
  have hminus : Run (fun l => l.opens = true) (· = mark "-") [mark "-"] :=
    .single (by decide) (by decide) rfl
  have hhead : Run (fun l => l.opens = true ∧ l ≠ mark "-") (fun l => l.closes = true) ls :=
    { h with head := fun l hl => ⟨h.head l hl, hne l hl⟩ }
  refine hminus.append hhead ?_
  rintro l m rfl hm hread
  exact joins_minus hm.1 hread hm.2

/-- A number is whole, with its sign or without. -/
theorem number (value : Int32) : Whole (Layout.number value) := by
  have hdigits : ∀ n, Whole [digits n false] := fun n => .single rfl rfl rfl
  rw [Layout.number]
  split
  · refine minus (hdigits _) ?_
    rintro l ⟨⟩
    exact Lexeme.noConfusion
  · exact hdigits _

/-- What is put in parentheses does not start with a minus sign. -/
theorem head?_wrappedIf {needed : Bool} (h : needed = false → ∀ l ∈ ls.head?, l ≠ mark "-") :
    ∀ l ∈ (Lexeme.wrappedIf needed ls).head?, l ≠ mark "-" := by
  cases needed with
  | false => exact h rfl
  | true =>
      rintro l ⟨⟩
      decide

/-- An operator before its operand, which may be wrapped. -/
theorem unary (h : Whole ls) (op : UnaryOperator) (e : Expr) : Whole (Layout.unary p op e ls) := by
  have hmark : ∀ text, mark text ∈ leaders → (mark text).isReadable = true →
      (mark text).opens = true → ∀ needed, Whole ([mark text] ++ Lexeme.wrappedIf needed ls) := by
    intro text hleader hread hopens needed
    refine led (.single hread hopens rfl : Run _ (· = mark text) _) ?_ (h.wrappedIf needed)
    rintro m rfl
    exact hleader
  rw [Layout.unary]
  cases op with
  | minus =>
      refine minus (h.wrappedIf _) (head?_wrappedIf ?_)
      intro hneeded l hl
      rw [Bool.or_eq_false_iff, Bool.and_eq_false_imp] at hneeded
      have hstart := hneeded.2 rfl
      rintro rfl
      exact of_decide_eq_false hstart hl
  | bitwiseNot => exact hmark "~" (by decide) (by decide) (by decide) _
  | logicalNot => exact hmark "!" (by decide) (by decide) (by decide) _
  | typeOf => exact keyworded (by decide) (h.wrappedIf _)
  | await => exact keyworded (by decide) (h.wrappedIf _)

/-- Two operands with spaces around the operator. -/
theorem binary {left right : Expr} (h : Whole ls) (hms : Whole ms) (op : BinaryOperator) :
    Whole (Layout.binary p op left right ls ms) := by
  have hmark : op.mark ∈ punctuators := by cases op <;> decide
  exact (h.wrappedIf _).spaced hmark (hms.wrappedIf _)

/-- An operand, wrapped or not. -/
theorem operand (h : Whole ls) (p : Place) (least : Strength) (e : Expr) :
    Whole (Layout.operand p least e ls) :=
  h.wrappedIf _

/-- What comes after `new`, wrapped or not. -/
theorem constructor (h : Whole ls) (p : Place) (callee : Expr) :
    Whole (Layout.constructor p callee ls) :=
  h.wrappedIf _

/-- Three operands with spaces around both marks. -/
theorem conditional {ns : List Lexeme} {condition thenExpr elseExpr : Expr} (h : Whole ls)
    (hms : Whole ms) (hns : Whole ns) :
    Whole (Layout.operand p (.conditional + 1) condition ls ++ [space, mark "?", space]
      ++ Layout.operand p .conditional thenExpr ms ++ [space, mark ":", space]
      ++ Layout.operand p .conditional elseExpr ns) := by
  have hthen := (h.operand p (.conditional + 1) condition).spaced (by decide : "?" ∈ punctuators)
    (hms.operand p .conditional thenExpr)
  exact hthen.spaced (by decide) (hns.operand p .conditional elseExpr)

/-- Arguments after a callee. -/
theorem called {texts : List (List Lexeme)} (h : Whole ls) (htexts : ∀ text ∈ texts, Whole text) :
    Whole (ls ++ parenthesized (Lexeme.listed texts)) :=
  h.suffixed (nil_or_listed htexts) (Or.inl rfl) (Or.inl rfl)

/-- Members in braces. -/
theorem braced {texts : List (List Lexeme)} (h : ∀ text ∈ texts, Whole text) :
    Whole (Layout.braced [mark ",", space] texts) := by
  have hopening : Run (fun l => l.opens = true) (· = mark "\x7b") [mark "\x7b"] :=
    .single (by decide) (by decide) rfl
  have hclosing : Run (· = mark "\x7d") (fun l => l.closes = true) [mark "\x7d"] :=
    .single (by decide) rfl (by decide)
  rw [Layout.braced]
  cases texts with
  | nil =>
      refine hopening.append hclosing ?_
      rintro l m rfl rfl - c -
      exact endsBefore_of_mem (by decide) c
  | cons text texts =>
      have hhead : Run (fun l => l.opens = true) (· = space) ([mark "\x7b"] ++ [space]) := by
        refine hopening.append (.exactly rfl) ?_
        rintro l m rfl rfl -
        exact joins_space (by decide)
      have htail : Run (· = space) (fun l => l.closes = true) ([space] ++ [mark "\x7d"]) := by
        refine Run.append (.exactly rfl) hclosing ?_
        rintro l m rfl rfl - c -
        rfl
      have hmembers : Whole (Lexeme.listed (text :: texts)) := listed (by simp) h
      have hinside := led hhead (by rintro m rfl; decide) hmembers
      refine hinside.append htail ?_
      rintro l m hl rfl -
      exact joins_follower hl (by decide)

/-- Without types a function is its parameters and its body. -/
theorem function (hp : p.dialect = .javaScript) (isAsync : Bool)
    (typeParameters : List (List Lexeme)) {parameters : List (List Lexeme)}
    (hparameters : ∀ text ∈ parameters, Whole text) (returnType : Option (List Lexeme))
    {body : List Lexeme} (h : Whole body) :
    Whole (Layout.function p isAsync typeParameters parameters returnType body) := by
  have hhead : Whole (parenthesized (Lexeme.listed parameters)) :=
    bracketed (nil_or_listed hparameters) (Or.inl rfl) (Or.inl rfl)
  have hfunction := hhead.spaced (by decide : "=>" ∈ punctuators) h
  rw [Layout.function, Layout.typed_javaScript hp, Layout.annotation_javaScript hp]
  cases isAsync with
  | false => simpa using hfunction
  | true =>
      have hasync : hasIdentifierShape "async".toList = true := by decide
      simpa using keyworded hasync hfunction

/-- A key of an object literal. -/
theorem propertyKey (key : String) : Whole [Layout.propertyKey key] := by
  rw [Layout.propertyKey]
  split
  · exact .single ‹_› rfl rfl
  · exact .single rfl rfl rfl

/-- A key, a colon and a value. -/
theorem keyed (h : Whole ls) (hms : Whole ms) : Whole (ls ++ [mark ":", space] ++ ms) :=
  h.between (run_punctuated (by decide)) (by rintro m rfl; decide) (by rintro m rfl; decide) hms

/-- A member of an object in each of its forms. -/
theorem keyValue {key value : Expr} (h : Whole ls) (hms : Whole ms) :
    Whole (Layout.keyValue key value ls ms) := by
  unfold Layout.keyValue
  split
  · rename_i text n
    split
    · rename_i hsame
      rw [Bool.and_eq_true, isBareName, Bool.and_eq_true] at hsame
      exact .single hsame.1.1 rfl rfl
    · exact (propertyKey text).keyed hms
  · rename_i text _
    exact (propertyKey text).keyed hms
  · have hkey : Whole (mark "[" :: ls ++ [mark "]"]) :=
      bracketed (Or.inr h) (Or.inr rfl) (Or.inr rfl)
    simpa using hkey.keyed hms

/-- An item of an array, or a spread member of an object. -/
theorem spread (h : Whole ls) : Whole (mark "..." :: ls) :=
  led (.single (by decide) (by decide) rfl : Run _ (· = mark "...") _)
    (by rintro m rfl; decide) h

/-- Without types a parameter is its name. -/
theorem parameters (hp : p.dialect = .javaScript) (parameters : List Parameter) :
    ∀ text ∈ Parameter.layouts p parameters, Whole text := by
  intro text htext
  rw [Parameter.layouts_javaScript hp, List.mem_map] at htext
  rcases htext with ⟨n, -, rfl⟩
  exact .single n.isPropertyName rfl rfl

end Lexeme.Whole

/-! ## Points after expressions -/

/-- A run that a point can follow. -/
def Lexeme.Solid (ls : List Lexeme) : Prop :=
  Run (fun l => l.opens = true) (fun l => l.solid = true) ls

namespace Expr

variable {p : Place} {e : Expr} {t : Tree}

/-- What ends with a closing bracket. -/
theorem solid_getLast? (ls : List Lexeme) {l : Lexeme} (h : l.solid = true) :
    ∀ m ∈ (ls ++ [l]).getLast?, m.solid = true := by
  rw [List.getLast?_append_of_ne_nil _ (by simp)]
  rintro m ⟨⟩
  exact h

/-- What ends with a parenthesis may have a point after it. -/
theorem solid_parenthesized {ls : List Lexeme} (h : Whole ls) : Solid (parenthesized ls) := by
  have hwhole : Whole (parenthesized ls) := Whole.bracketed (Or.inr h) (Or.inl rfl) (Or.inl rfl)
  exact { hwhole with last := solid_getLast? _ rfl }

/-- Only a number without parentheses cannot stand before a point. -/
theorem solid_getLast?_layout (ht : e.tree? = some t)
    (hstrong : Strength.callMember ≤ e.operandStrength .javaScript)
    (hnumber : ∀ value, e ≠ .number value) : ∀ l ∈ (e.layout p).getLast?, l.solid = true := by
  cases e with
  | number value => exact absurd rfl (hnumber value)
  | unary op e => exact absurd hstrong (by decide : ¬ Strength.callMember ≤ Strength.unary)
  | binary op left right =>
      have hweak : ¬ Strength.callMember ≤ op.strength := by cases op <;> decide
      exact absurd hstrong hweak
  | conditional condition thenExpr elseExpr =>
      exact absurd hstrong (by decide : ¬ Strength.callMember ≤ Strength.conditional)
  | lambda isAsync typeParameters parameters returnType body =>
      exact absurd hstrong (by decide : ¬ Strength.callMember ≤ Strength.lambdaOperand)
  | array items => exact solid_getLast? _ rfl
  | object members =>
      rw [layout, Layout.braced]
      split
      · exact solid_getLast? [mark "\x7b"] rfl
      · rw [List.append_cons]
        exact solid_getLast? _ rfl
  | get base property =>
      rw [layout, Layout.get]
      split
      · rw [List.append_cons]
        exact solid_getLast? _ rfl
      · exact solid_getLast? _ rfl
  | call callee arguments =>
      rw [layout, parenthesized, ← List.append_assoc]
      exact solid_getLast? _ rfl
  | new callee arguments =>
      rw [layout, parenthesized, ← List.append_assoc]
      exact solid_getLast? _ rfl
  | global n => exact absurd ht (by simp [tree?])
  | imported path key => exact absurd ht (by simp [tree?])
  | assertion e type => exact absurd ht (by simp [tree?])
  | instantiation e arguments => exact absurd ht (by simp [tree?])
  | _ => exact solid_getLast? [] rfl

/-- A callee or the base of a member access, unless it is a number that is not negative. -/
theorem solid_operand (hp : p.dialect = .javaScript) (ht : e.tree? = some t)
    (h : Whole (e.layout p)) (hnumber : ∀ value, e = .number value → value < 0) :
    Solid (Layout.operand p .callMember e (e.layout p)) := by
  rw [Layout.operand, hp]
  by_cases hweak : e.operandStrength .javaScript < .callMember
  · rw [decide_eq_true hweak, Lexeme.wrappedIf, if_pos rfl]
    exact solid_parenthesized h
  · rw [decide_eq_false hweak, Lexeme.wrappedIf, if_neg Bool.false_ne_true]
    refine { h with last := solid_getLast?_layout ht (Nat.le_of_not_lt hweak) ?_ }
    rintro value rfl
    have hneg := hnumber value rfl
    refine hweak ?_
    simp [operandStrength, written, writtenStrength, hneg, Strength.unary, Strength.callMember]

/-- The left side of a member access, in each of its forms. -/
theorem whole_memberBase (ht : e.tree? = some t) (h : Whole (e.layout p)) (dotted : Bool) :
    Whole (Layout.memberBase p e dotted (e.layout p)) := by
  rw [Layout.memberBase, written_of_tree? ht]
  split
  · split
    · exact .single rfl rfl rfl
    · exact h.wrappedIf _
  · exact absurd ht (by simp [tree?])
  · exact h.wrappedIf _

/-- A point may come after the left side of a member access. -/
theorem solid_memberBase (hp : p.dialect = .javaScript) (ht : e.tree? = some t)
    (h : Whole (e.layout p)) : Solid (Layout.memberBase p e true (e.layout p)) := by
  rw [Layout.memberBase, written_of_tree? ht]
  split
  · rename_i value
    split
    · exact .single rfl rfl rfl
    · rename_i hpointed
      refine solid_operand hp ht h ?_
      rintro other ⟨⟩
      simpa using hpointed
  · exact absurd ht (by simp [tree?])
  · rename_i hnumber hinstantiation
    refine solid_operand hp ht h ?_
    rintro value rfl
    exact absurd rfl (hnumber value)

/-- A member access, by a point or in square brackets. -/
theorem whole_get {property : Expr} (hp : p.dialect = .javaScript) (ht : e.tree? = some t)
    (h : Whole (e.layout p)) (hproperty : Whole (property.layout p)) :
    Whole (Layout.get p e property (e.layout p) (property.layout p)) := by
  rw [Layout.get]
  split
  · rename_i key hkey
    exact Whole.dotted (eq_of_dottedName? hkey).2 (solid_memberBase hp ht h)
  · have hindex := (whole_memberBase ht h false).suffixed (Or.inr hproperty) (Or.inr rfl)
      (Or.inr rfl)
    simpa using hindex

/-! ## Expressions -/

mutual

/-- The lexemes of an expression are a run. -/
theorem whole_layout {p : Place} (hp : p.dialect = .javaScript) :
    (e : Expr) → {t : Tree} → e.tree? = some t → Whole (e.layout p)
  | .number value, _, _ => Whole.number value
  | .string _, _, _ => .single rfl rfl rfl
  | .boolean value, _, _ => .single (by cases value <;> decide) rfl rfl
  | .null, _, _ => .single (by decide) rfl rfl
  | .undefined, _, _ => .single (by decide) rfl rfl
  | .reference n, _, _ => .single n.isPropertyName rfl rfl
  | .unary op e, t, h => by
      simp only [tree?, Option.bind_eq_bind, Option.bind_eq_some_iff] at h
      rcases h with ⟨t, ht, -⟩
      exact (whole_layout hp e ht).unary op e
  | .binary op left right, t, h => by
      simp only [tree?, Option.bind_eq_bind, Option.bind_eq_some_iff] at h
      rcases h with ⟨t, ht, u, hu, -⟩
      exact (whole_layout hp left ht).binary (whole_layout hp right hu) op
  | .conditional condition thenExpr elseExpr, t, h => by
      simp only [tree?, Option.bind_eq_bind, Option.bind_eq_some_iff] at h
      rcases h with ⟨t, ht, u, hu, v, hv, -⟩
      exact (whole_layout hp condition ht).conditional (whole_layout hp thenExpr hu)
        (whole_layout hp elseExpr hv)
  | .array items, t, h => by
      simp only [tree?, Option.bind_eq_bind, Option.bind_eq_some_iff] at h
      rcases h with ⟨list, hlist, -⟩
      exact Whole.bracketed (Whole.nil_or_listed (whole_items hp items hlist)) (Or.inr rfl)
        (Or.inr rfl)
  | .object members, t, h => by
      simp only [tree?, Option.bind_eq_bind, Option.bind_eq_some_iff] at h
      rcases h with ⟨list, hlist, -⟩
      exact Whole.braced (whole_members hp members hlist)
  | .lambda isAsync typeParameters parameters returnType body, t, h => by
      simp only [tree?, Option.bind_eq_bind, Option.bind_eq_some_iff] at h
      rcases h with ⟨t, ht, -⟩
      have hinner : (p.bindFunction typeParameters parameters).dialect = .javaScript := hp
      exact Whole.function hp isAsync _ (Whole.parameters hinner parameters) _
        (whole_body hinner body ht)
  | .get base property, t, h => by
      simp only [tree?, Option.bind_eq_bind, Option.bind_eq_some_iff] at h
      rcases h with ⟨t, ht, u, hu, -⟩
      exact whole_get hp ht (whole_layout hp base ht) (whole_layout hp property hu)
  | .call callee arguments, t, h => by
      simp only [tree?, Option.bind_eq_bind, Option.bind_eq_some_iff] at h
      rcases h with ⟨t, ht, list, hlist, -⟩
      exact ((whole_layout hp callee ht).operand p .callMember callee).called
        (whole_layouts hp arguments hlist)
  | .new callee arguments, t, h => by
      simp only [tree?, Option.bind_eq_bind, Option.bind_eq_some_iff] at h
      rcases h with ⟨t, ht, list, hlist, -⟩
      have hhead := Whole.keyworded (by decide : hasIdentifierShape "new".toList = true)
        ((whole_layout hp callee ht).constructor p callee)
      exact hhead.called (whole_layouts hp arguments hlist)
  | .global _, _, h => absurd h (by simp [tree?])
  | .imported _ _, _, h => absurd h (by simp [tree?])
  | .assertion _ _, _, h => absurd h (by simp [tree?])
  | .instantiation _ _, _, h => absurd h (by simp [tree?])

/-- Each of some expressions is whole. -/
theorem whole_layouts {p : Place} (hp : p.dialect = .javaScript) :
    (es : List Expr) → {list : List Tree} → Expr.trees? es = some list →
      ∀ text ∈ Expr.layouts p es, Whole text
  | [], _, _ => by simp [Expr.layouts]
  | e :: es, list, h => by
      simp only [trees?, Option.bind_eq_bind, Option.bind_eq_some_iff] at h
      rcases h with ⟨t, ht, list, hlist, -⟩
      exact List.forall_mem_cons.mpr ⟨whole_layout hp e ht, whole_layouts hp es hlist⟩

/-- Each item of an array is whole. -/
theorem whole_items {p : Place} (hp : p.dialect = .javaScript) :
    (items : List ArrayItem) → {list : List Item} → ArrayItem.trees? items = some list →
      ∀ text ∈ ArrayItem.layouts p items, Whole text
  | [], _, _ => by simp [ArrayItem.layouts]
  | ⟨e, spread⟩ :: items, list, h => by
      simp only [ArrayItem.trees?, Option.bind_eq_bind, Option.bind_eq_some_iff] at h
      rcases h with ⟨t, ht, list, hlist, -⟩
      refine List.forall_mem_cons.mpr ⟨?_, whole_items hp items hlist⟩
      cases spread with
      | false => exact whole_layout hp e ht
      | true => exact (whole_layout hp e ht).spread

/-- Each member of an object is whole. -/
theorem whole_members {p : Place} (hp : p.dialect = .javaScript) :
    (members : List Member) → {list : List Property} → Member.trees? members = some list →
      ∀ text ∈ Member.layouts p members, Whole text
  | [], _, _ => by simp [Member.layouts]
  | .spread e :: members, list, h => by
      simp only [Member.trees?, Option.bind_eq_bind, Option.bind_eq_some_iff] at h
      rcases h with ⟨t, ht, list, hlist, -⟩
      exact List.forall_mem_cons.mpr
        ⟨(whole_layout hp e ht).spread, whole_members hp members hlist⟩
  | .keyValue key value :: members, list, h => by
      simp only [Member.trees?, Option.bind_eq_bind, Option.bind_eq_some_iff] at h
      rcases h with ⟨t, ht, u, hu, list, hlist, -⟩
      exact List.forall_mem_cons.mpr
        ⟨(whole_layout hp key ht).keyValue (whole_layout hp value hu),
          whole_members hp members hlist⟩

/-- The body of a function that returns an expression is whole. -/
theorem whole_body {p : Place} (hp : p.dialect = .javaScript) :
    (body : List Statement) → {t : Tree} → Statement.returnedTree? body = some t →
      Whole (Statement.functionBody p body)
  | [.returnValue e], _, h => (whole_layout hp e h).wrappedIf _

end

end Expr

end EcmaWriter
