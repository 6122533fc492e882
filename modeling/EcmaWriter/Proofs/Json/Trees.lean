import EcmaWriter.Proofs.Json.Decoding
import EcmaWriter.Tree.OfJson
import EcmaWriter.Tree.ToJson

/-!
# EcmaWriter - Trees are decoded from their JSON form

Decoders of trees are sound up to a depth if they take every variation of the JSON form of
every tree to the tree, unless the variation nests deeper.  Soundness up to a depth gives
soundness of the next layer up to one more, by the variants of each kind of node, and so every
layer is sound up to its number.

Main results:

- Definition `TreeDecoders.Sound`: which trees are decoded.
- Theorem `TreeDecoders.Sound.grow`: the next layer.
- Theorem `TreeDecoders.sound_layers`: all layers.
- Theorem `TreeDecoders.Sound.wholeModule`: modules are decoded as well.
-/

namespace EcmaWriter

open Decoder Json

variable {n : Nat} {keys : List String} {key : String}

/-- Items that are written one by one. -/
theorem forall₂_map {α : Type} {R : Json → α → Prop} {f : α → Json} (h : ∀ a, R (f a) a)
    (as : List α) : List.Forall₂ R (as.map f) as :=
  List.forall₂_map_left_iff.mpr (List.forall₂_same.mpr fun a _ => h a)

/-! ## Fields -/

/-- A flag that is not set may be left out, and then it is not set. -/
theorem holds_flag (value : Bool) :
    (defaulted key boolean false).Holds n keys (.boolean value) value :=
  .defaulted (decodes_boolean value) (by simp [isNull, isDefault])

/-- A text that is empty may be left out, and then it is empty. -/
theorem holds_text (value : String) :
    (defaulted key string "").Holds n keys (.string value) value :=
  .defaulted (decodes_string value) (by simp [isNull, isDefault])

/-- A list that is empty may be left out, and then it is empty. -/
theorem holds_list {α : Type} {d : Decoder α} {js : List Json} {as : List α}
    (h : List.Forall₂ (Decodes n d) js as) :
    (defaulted key (list d) []).Holds n keys (.array js) as := by
  refine .defaulted (decodes_list h) ?_
  cases h with
  | nil => exact fun _ => rfl
  | cons _ _ => simp [isNull, isDefault]

/-- An object is never left out. -/
theorem mayBeLeftOut_of_object {j : Json} (h : ∃ members, j = .object members) :
    mayBeLeftOut keys key j = false := by
  obtain ⟨members, rfl⟩ := h
  simp [mayBeLeftOut, isNull, isDefault]

/-- A legal name is read as it is. -/
theorem decodes_identifier (name : Identifier) :
    Decodes n Identifier.decoder (identifier name) name := by
  have h := (decodes_string (n := n) name.text).map Identifier.ofString
  rwa [Identifier.ofString_text] at h

/-- The plain assignment is written as a null, which may be left out. -/
theorem holds_assignmentOperator (op : Option AssignmentOperator) :
    (optional key (choice AssignmentOperator.names)).Holds n keys (assignmentToJson op) op := by
  cases op with
  | none => exact .optional (decodes_option_none _) fun _ => rfl
  | some op =>
      refine .optional ((decodes_choice (lookup_nameIn_assignment op)).option_some rfl) ?_
      cases op
      all_goals exact nofun

/-- The JSON form of a node is an object. -/
theorem Expr.exists_toJson_eq (e : Expr) : ∃ members, e.toJson = .object members := by
  cases e <;> exact ⟨_, rfl⟩

/-- The JSON form of a statement is an object. -/
theorem Statement.exists_toJson_eq (s : Statement) : ∃ members, s.toJson = .object members := by
  cases s <;> exact ⟨_, rfl⟩

/-- The JSON form of a type is an object, also where the variant has no data. -/
theorem TypeExpr.exists_toJson_eq (t : TypeExpr) : ∃ members, t.toJson = .object members := by
  cases t <;> exact ⟨_, rfl⟩

/-- The JSON form of a key is an object. -/
theorem PropertyName.exists_toJson_eq (name : PropertyName) :
    ∃ members, name.toJson = .object members := by
  cases name <;> exact ⟨_, rfl⟩

namespace TreeDecoders

/-- Decoders of nodes are sound up to a depth if they decode every tree from the variations of
its JSON form, unless these nest deeper. -/
structure Sound (n : Nat) (d : TreeDecoders) : Prop where
  expr : ∀ e : Expr, Decodes n d.expr e.toJson e
  statement : ∀ s : Statement, Decodes n d.statement s.toJson s
  type : ∀ t : TypeExpr, Decodes n d.type t.toJson t

namespace Sound

variable {d : TreeDecoders} (h : d.Sound n)
include h

/-! ## Parts of nodes -/

/-- A field that holds an expression is never left out. -/
theorem exprField (e : Expr) : (required key d.expr).Holds n keys e.toJson e :=
  .required (h.expr e) (mayBeLeftOut_of_object e.exists_toJson_eq)

/-- A field that holds a type is never left out. -/
theorem typeField (t : TypeExpr) : (required key d.type).Holds n keys t.toJson t :=
  .required (h.type t) (mayBeLeftOut_of_object t.exists_toJson_eq)

/-- A type that is not there is a null, and the field may be left out. -/
theorem typeOption (t : Option TypeExpr) :
    (optional key d.type).Holds n keys (TypeExpr.optionToJson t) t := by
  cases t with
  | none => exact .optional (decodes_option_none _) fun _ => rfl
  | some t =>
      obtain ⟨members, hobject⟩ := t.exists_toJson_eq
      have hsome : TypeExpr.optionToJson (some t) = .object members := hobject
      have htype := h.type t
      rw [hobject] at htype
      rw [hsome]
      exact .optional (htype.option_some rfl) nofun

/-- Each of some expressions is decoded from its JSON form. -/
theorem exprs (es : List Expr) :
    List.Forall₂ (Decodes n d.expr) (Expr.listToJson es) es := by
  induction es with
  | nil => exact .nil
  | cons e es ih => exact .cons (h.expr e) ih

/-- Each of some statements is decoded from its JSON form. -/
theorem statements (ss : List Statement) :
    List.Forall₂ (Decodes n d.statement) (Statement.listToJson ss) ss := by
  induction ss with
  | nil => exact .nil
  | cons s ss ih => exact .cons (h.statement s) ih

/-- Each of some types is decoded from its JSON form. -/
theorem types (ts : List TypeExpr) :
    List.Forall₂ (Decodes n d.type) (TypeExpr.listToJson ts) ts := by
  induction ts with
  | nil => exact .nil
  | cons t ts ih => exact .cons (h.type t) ih

/-- Type parameters are decoded, whose constraints may be left out. -/
theorem typeParameters (ps : List TypeParameter) :
    List.Forall₂ (Decodes n d.typeParameter) (TypeParameter.listToJson ps) ps := by
  induction ps with
  | nil => exact .nil
  | cons p ps ih =>
      rcases p with ⟨name, constraint⟩
      exact .cons (decodes_record (.cons (.required (decodes_identifier name) rfl) rfl <|
        .cons (h.typeOption constraint) rfl .nil) rfl rfl) ih

/-- Parameters are decoded, whose types may be left out. -/
theorem parameters (ps : List Parameter) :
    List.Forall₂ (Decodes n d.parameter) (Parameter.listToJson ps) ps := by
  induction ps with
  | nil => exact .nil
  | cons p ps ih =>
      rcases p with ⟨name, type⟩
      exact .cons (decodes_record (.cons (.required (decodes_identifier name) rfl) rfl <|
        .cons (h.typeOption type) rfl .nil) rfl rfl) ih

/-- Items of an array are decoded, which are no spread if nothing is said. -/
theorem arrayItems (items : List ArrayItem) :
    List.Forall₂ (Decodes n d.arrayItem) (ArrayItem.listToJson items) items := by
  induction items with
  | nil => exact .nil
  | cons item items ih =>
      rcases item with ⟨expr, spread⟩
      exact .cons (decodes_record (.cons (h.exprField expr) rfl <|
        .cons (holds_flag spread) rfl .nil) rfl rfl) ih

/-- Members of an object are decoded: the spread of an expression, or a key with its value. -/
theorem members (ms : List Member) :
    List.Forall₂ (Decodes n d.member) (Member.listToJson ms) ms := by
  induction ms with
  | nil => exact .nil
  | cons m ms ih =>
      cases m with
      | spread expr =>
          exact .cons (Decodes.mono (decodes_carrying rfl ((h.expr expr).map _)) n.le_succ) ih
      | keyValue key value =>
          exact .cons (Decodes.mono (decodes_carrying rfl (decodes_record
            (.cons (h.exprField key) rfl <|
            .cons (h.exprField value) rfl .nil) rfl rfl)) n.le_succ) ih

/-- Cases of a `switch` are decoded, with their labels and bodies. -/
theorem switchCases (cs : List SwitchCase) :
    List.Forall₂ (Decodes n d.switchCase) (SwitchCase.listToJson cs) cs := by
  induction cs with
  | nil => exact .nil
  | cons c cs ih =>
      rcases c with ⟨label, body⟩
      exact .cons (decodes_record (.cons (.required (decodes_string label) rfl) rfl <|
        .cons (.required (decodes_list (h.statements body)) rfl) rfl .nil) rfl rfl) ih

/-- The key of a member type is decoded, from text or an expression. -/
theorem propertyName (name : PropertyName) :
    Decodes n d.propertyName name.toJson name := by
  cases name with
  | string name => exact (decodes_carrying rfl ((decodes_string name).map _)).mono n.le_succ
  | computed expr => exact (decodes_carrying rfl ((h.expr expr).map _)).mono n.le_succ

/-- Members of an object type are decoded, which may be left without a document. -/
theorem memberTypes (ms : List MemberType) :
    List.Forall₂ (Decodes n d.memberType) (MemberType.listToJson ms) ms := by
  induction ms with
  | nil => exact .nil
  | cons m ms ih =>
      rcases m with ⟨name, required, readonly, type, document⟩
      have hname := name.exists_toJson_eq
      exact .cons (decodes_record
        (.cons (.required (h.propertyName name) (mayBeLeftOut_of_object hname)) rfl <|
        .cons (.required (decodes_boolean required) rfl) rfl <|
        .cons (.required (decodes_boolean readonly) rfl) rfl <|
        .cons (h.typeField type) rfl <|
        .cons (holds_text document) rfl .nil) rfl rfl) ih

/-- The name of a type is decoded with its arguments, none if the field is left out. -/
theorem nameAndArguments (name : Identifier) (arguments : List TypeExpr) :
    Decodes n d.nameAndArguments (Json.object [
      ("name", identifier name),
      ("arguments", .array (TypeExpr.listToJson arguments))]) (name, arguments) :=
  decodes_record (.cons (.required (decodes_identifier name) rfl) rfl <|
    .cons (holds_list (h.types arguments)) rfl .nil) rfl rfl

/-- What is called or constructed is decoded with its arguments. -/
theorem call (callee : Expr) (arguments : List Expr) :
    Decodes n d.call (Json.object [
      ("expr", callee.toJson),
      ("arguments", .array (Expr.listToJson arguments))]) (callee, arguments) :=
  decodes_record (.cons (h.exprField callee) rfl <|
    .cons (holds_list (h.exprs arguments)) rfl .nil) rfl rfl

/-! ## Nodes -/

/-- Each variant of an expression is decoded one layer further. -/
theorem grow_expr (e : Expr) : Decodes (n + 1) d.grow.expr e.toJson e := by
  cases e with
  | number value => exact decodes_carrying rfl ((decodes_integer32 value).map _)
  | string value => exact decodes_carrying rfl ((decodes_string value).map _)
  | boolean value => exact decodes_carrying rfl ((decodes_boolean value).map _)
  | null => exact decodes_bare rfl
  | undefined => exact decodes_bare rfl
  | unary op operand =>
      exact decodes_carrying rfl (decodes_record
        (.cons (.required (decodes_choice (lookup_nameIn_unary op)) rfl) rfl <|
        .cons (h.exprField operand) rfl .nil) rfl rfl)
  | binary op left right =>
      exact decodes_carrying rfl (decodes_record
        (.cons (.required (decodes_choice (lookup_nameIn_binary op)) rfl) rfl <|
        .cons (h.exprField left) rfl <|
        .cons (h.exprField right) rfl .nil) rfl rfl)
  | conditional condition thenExpr elseExpr =>
      exact decodes_carrying rfl (decodes_record (.cons (h.exprField condition) rfl <|
        .cons (h.exprField thenExpr) rfl <|
        .cons (h.exprField elseExpr) rfl .nil) rfl rfl)
  | array items => exact decodes_carrying rfl ((decodes_list (h.arrayItems items)).map _)
  | object members => exact decodes_carrying rfl ((decodes_list (h.members members)).map _)
  | lambda isAsync typeParameters parameters returnType body =>
      exact decodes_carrying rfl (decodes_record (.cons (holds_flag isAsync) rfl <|
        .cons (holds_list (h.typeParameters typeParameters)) rfl <|
        .cons (holds_list (h.parameters parameters)) rfl <|
        .cons (h.typeOption returnType) rfl <|
        .cons (.required (decodes_list (h.statements body)) rfl) rfl .nil) rfl rfl)
  | reference name => exact decodes_carrying rfl ((decodes_identifier name).map _)
  | global name => exact decodes_carrying rfl ((decodes_identifier name).map _)
  | imported path name =>
      exact decodes_carrying rfl (decodes_record
        (.cons (.required (decodes_string path) rfl) rfl <|
        .cons (.required (decodes_string name) rfl) rfl .nil) rfl rfl)
  | get base property =>
      exact decodes_carrying rfl (decodes_record (.cons (h.exprField base) rfl <|
        .cons (h.exprField property) rfl .nil) rfl rfl)
  | call callee arguments => exact decodes_carrying rfl ((h.call callee arguments).map _)
  | new callee arguments => exact decodes_carrying rfl ((h.call callee arguments).map _)
  | assertion expr type =>
      exact decodes_carrying rfl (decodes_record (.cons (h.exprField expr) rfl <|
        .cons (h.typeField type) rfl .nil) rfl rfl)
  | instantiation expr arguments =>
      exact decodes_carrying rfl (decodes_record (.cons (h.exprField expr) rfl <|
        .cons (.required (decodes_list (h.types arguments)) rfl) rfl .nil) rfl rfl)

/-- Each variant of a statement is decoded one layer further. -/
theorem grow_statement (s : Statement) :
    Decodes (n + 1) d.grow.statement s.toJson s := by
  cases s with
  | evaluate expr => exact decodes_carrying rfl ((h.expr expr).map _)
  | set target op value =>
      exact decodes_carrying rfl (decodes_record (.cons (h.exprField target) rfl <|
        .cons (holds_assignmentOperator op) rfl <|
        .cons (h.exprField value) rfl .nil) rfl rfl)
  | ifElse condition thenBody elseBody =>
      exact decodes_carrying rfl (decodes_record (.cons (h.exprField condition) rfl <|
        .cons (.required (decodes_list (h.statements thenBody)) rfl) rfl <|
        .cons (holds_list (h.statements elseBody)) rfl .nil) rfl rfl)
  | «throwError» expr => exact decodes_carrying rfl ((h.expr expr).map _)
  | returnValue expr => exact decodes_carrying rfl ((h.expr expr).map _)
  | returnVoid => exact decodes_bare rfl
  | continueLoop => exact decodes_bare rfl
  | breakLoop => exact decodes_bare rfl
  | binding isConst name type value =>
      exact decodes_carrying rfl (decodes_record
        (.cons (.required (decodes_boolean isConst) rfl) rfl <|
        .cons (.required (decodes_identifier name) rfl) rfl <|
        .cons (h.typeOption type) rfl <|
        .cons (h.exprField value) rfl .nil) rfl rfl)
  | function isAsync name typeParameters parameters returnType body =>
      exact decodes_carrying rfl (decodes_record (.cons (holds_flag isAsync) rfl <|
        .cons (.required (decodes_identifier name) rfl) rfl <|
        .cons (holds_list (h.typeParameters typeParameters)) rfl <|
        .cons (holds_list (h.parameters parameters)) rfl <|
        .cons (h.typeField returnType) rfl <|
        .cons (.required (decodes_list (h.statements body)) rfl) rfl .nil) rfl rfl)
  | forCount counter bound body =>
      exact decodes_carrying rfl (decodes_record
        (.cons (.required (decodes_identifier counter) rfl) rfl <|
        .cons (h.exprField bound) rfl <|
        .cons (.required (decodes_list (h.statements body)) rfl) rfl .nil) rfl rfl)
  | forOf element iterable body =>
      exact decodes_carrying rfl (decodes_record
        (.cons (.required (decodes_identifier element) rfl) rfl <|
        .cons (h.exprField iterable) rfl <|
        .cons (.required (decodes_list (h.statements body)) rfl) rfl .nil) rfl rfl)
  | whileTrue body => exact decodes_carrying rfl ((decodes_list (h.statements body)).map _)
  | switch subject cases =>
      exact decodes_carrying rfl (decodes_record (.cons (h.exprField subject) rfl <|
        .cons (.required (decodes_list (h.switchCases cases)) rfl) rfl .nil) rfl rfl)
  | tryCatch body parameter handler =>
      exact decodes_carrying rfl (decodes_record
        (.cons (.required (decodes_list (h.statements body)) rfl) rfl <|
        .cons (.required (decodes_identifier parameter) rfl) rfl <|
        .cons (.required (decodes_list (h.statements handler)) rfl) rfl .nil) rfl rfl)

/-- Each variant of a type is decoded one layer further. -/
theorem grow_type (t : TypeExpr) : Decodes (n + 1) d.grow.type t.toJson t := by
  cases t with
  | number => exact decodes_bare rfl
  | string => exact decodes_bare rfl
  | boolean => exact decodes_bare rfl
  | undefined => exact decodes_bare rfl
  | null => exact decodes_bare rfl
  | never => exact decodes_bare rfl
  | void => exact decodes_bare rfl
  | unknown => exact decodes_bare rfl
  | object members => exact decodes_carrying rfl ((decodes_list (h.memberTypes members)).map _)
  | function typeParameters parameters result =>
      exact decodes_carrying rfl (decodes_record
        (.cons (holds_list (h.typeParameters typeParameters)) rfl <|
        .cons (.required (decodes_list (h.types parameters)) rfl) rfl <|
        .cons (h.typeField result) rfl .nil) rfl rfl)
  | union types => exact decodes_carrying rfl ((decodes_list (h.types types)).map _)
  | intersection left right =>
      exact decodes_carrying rfl (decodes_record (.cons (h.typeField left) rfl <|
        .cons (h.typeField right) rfl .nil) rfl rfl)
  | imported path name arguments =>
      exact decodes_carrying rfl (decodes_record
        (.cons (.required (decodes_string path) rfl) rfl <|
        .cons (.required (h.nameAndArguments name arguments) rfl) rfl .nil) rfl rfl)
  | inFile name arguments =>
      exact decodes_carrying rfl ((h.nameAndArguments name arguments).map _)
  | global name arguments =>
      exact decodes_carrying rfl ((h.nameAndArguments name arguments).map _)
  | namespaced path name arguments =>
      exact decodes_carrying rfl (decodes_record
        (.cons (.required (decodes_list (forall₂_map decodes_identifier path)) rfl) rfl <|
        .cons (.required (h.nameAndArguments name arguments) rfl) rfl .nil) rfl rfl)
  | stringLiteral value => exact decodes_carrying rfl ((decodes_string value).map _)
  | uniqueSymbol => exact decodes_bare rfl

/-- The next layer decodes trees that nest one deeper. -/
theorem grow : d.grow.Sound (n + 1) :=
  ⟨h.grow_expr, h.grow_statement, h.grow_type⟩

/-! ## Definitions and modules -/

/-- A parameter of a definition is decoded, which may be left without a document. -/
theorem documentedParameter (p : DocumentedParameter) :
    Decodes n d.documentedParameter p.toJson p :=
  decodes_record (.cons (.required (decodes_identifier p.name) rfl) rfl <|
    .cons (holds_text p.document) rfl <|
    .cons (h.typeField p.type) rfl .nil) rfl rfl

/-- Each of the three kinds of definitions is decoded. -/
theorem definition (a : Definition) : Decodes (n + 1) d.definition a.toJson a := by
  cases a with
  | typeAlias a =>
      exact decodes_carrying rfl (Decodes.map (decodes_record
        (.cons (holds_flag a.exported) rfl <|
        .cons (.required (decodes_identifier a.name) rfl) rfl <|
        .cons (holds_list (h.typeParameters a.typeParameters)) rfl <|
        .cons (holds_text a.document) rfl <|
        .cons (h.typeField a.type) rfl .nil) rfl rfl) _)
  | function f =>
      have hparameters := forall₂_map h.documentedParameter f.parameters
      exact decodes_carrying rfl (Decodes.map (decodes_record
        (.cons (holds_flag f.exported) rfl <|
        .cons (holds_flag f.isAsync) rfl <|
        .cons (.required (decodes_identifier f.name) rfl) rfl <|
        .cons (holds_text f.document) rfl <|
        .cons (holds_list (h.typeParameters f.typeParameters)) rfl <|
        .cons (holds_list hparameters) rfl <|
        .cons (h.typeField f.returnType) rfl <|
        .cons (holds_list (h.statements f.body)) rfl .nil) rfl rfl) _)
  | binding b =>
      exact decodes_carrying rfl (Decodes.map (decodes_record
        (.cons (holds_flag b.exported) rfl <|
        .cons (.required (decodes_identifier b.name) rfl) rfl <|
        .cons (holds_text b.document) rfl <|
        .cons (h.typeOption b.type) rfl <|
        .cons (h.exprField b.value) rfl .nil) rfl rfl) _)

/-- A module is decoded, in which both lists may be left out. -/
theorem wholeModule (m : Module) : Decodes n d.wholeModule m.toJson m := by
  have hdefinitions := forall₂_map
    (fun a => Decodes.mono (h.definition a) n.le_succ) m.definitions
  exact decodes_record (.cons (holds_list hdefinitions) rfl <|
    .cons (holds_list (h.statements m.statements)) rfl .nil) rfl rfl

end Sound

/-- No node is so shallow that no layer is needed. -/
theorem sound_exhausted : exhausted.Sound 0 := by
  have hvacuous : ∀ {α : Type} {d : Decoder α} {a : α} (j : Json),
      (∃ members, j = .object members) → (∀ s v, d s v = .error .malformed) →
        Decodes 0 d j a := by
    rintro α d a j ⟨members, rfl⟩ hfails
    refine ⟨fun v hv hdepth => absurd hdepth (Nat.not_le.mpr hv.depth_pos), fun {s b} hok => ?_⟩
    rw [hfails] at hok
    contradiction
  exact ⟨fun e => hvacuous _ e.exists_toJson_eq fun _ _ => rfl,
    fun s => hvacuous _ s.exists_toJson_eq fun _ _ => rfl,
    fun t => hvacuous _ t.exists_toJson_eq fun _ _ => rfl⟩

/-- Every number of layers decodes the trees that nest no deeper. -/
theorem sound_layers (n : Nat) : (layers n).Sound n := by
  induction n with
  | zero => exact sound_exhausted
  | succ n ih => exact ih.grow

end TreeDecoders

end EcmaWriter
