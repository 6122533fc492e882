import EcmaWriter.Proofs.Json.Confinement

/-!
# EcmaWriter - Writing a tree anew after it was decoded

A decoded tree has a JSON form with all defaults written out, whose compact text may stand in for
the text that the tree was decoded from.  The decoders of trees are confined, so that text nests
as deep as any text may, or one deeper.  It nests deeper exactly if the name of a type without
type arguments stands as deep as the innermost array or object may: the empty list of type
arguments is below that.

Main results:

- Theorem `TreeDecoders.confined_layers`: the decoders of all kinds of trees are confined.
- Definition `Renewable`: decoded values are decoded again from their JSON form, or from no text.
- Theorem `renewable_trees`: the decoders of all kinds of trees are renewable.
-/

namespace EcmaWriter

open Decoder

/-! ## Nodes are objects -/

/-- The JSON form of an expression is an object, so it nests at least once. -/
theorem Expr.depth_toJson_pos (e : Expr) : 0 < e.toJson.depth := by
  obtain ⟨members, hmembers⟩ := e.exists_toJson_eq
  rw [hmembers, Json.depth]
  exact Nat.succ_pos _

/-- The JSON form of a type nests at least once. -/
theorem TypeExpr.depth_toJson_pos (t : TypeExpr) : 0 < t.toJson.depth := by
  obtain ⟨members, hmembers⟩ := t.exists_toJson_eq
  rw [hmembers, Json.depth]
  exact Nat.succ_pos _

namespace TreeDecoders

/-- Whether decoders of nodes return only trees whose JSON forms fit. -/
structure Confined (d : TreeDecoders) : Prop where
  expr : Decoder.Confined d.expr Expr.toJson
  statement : Decoder.Confined d.statement Statement.toJson
  type : Decoder.Confined d.type TypeExpr.toJson

namespace Confined

variable {d : TreeDecoders} (h : d.Confined)
include h

/-! ## Lists and records inside nodes -/

/-- A type that may be left out fits where types do. -/
theorem typeOption : Decoder.Confined (option d.type) TypeExpr.optionToJson :=
  h.type.option rfl fun _ => rfl

/-- Lists of expressions fit where their expressions do. -/
theorem exprs : Decoder.Confined (list d.expr) fun es => .array (Expr.listToJson es) :=
  h.expr.list rfl fun _ _ => rfl

/-- Lists of statements fit where their statements do. -/
theorem statements :
    Decoder.Confined (list d.statement) fun ss => .array (Statement.listToJson ss) :=
  h.statement.list rfl fun _ _ => rfl

/-- Lists of types fit where their types do. -/
theorem types : Decoder.Confined (list d.type) fun ts => .array (TypeExpr.listToJson ts) :=
  h.type.list rfl fun _ _ => rfl

/-- Lists of type parameters fit, with constraints that may be left out. -/
theorem typeParameters :
    Decoder.Confined (list d.typeParameter) fun ps => .array (TypeParameter.listToJson ps) := by
  have hitem : Decoder.Confined d.typeParameter TypeParameter.toJson :=
    .record (.flat Json.identifier (fun _ => rfl) <| .optional h.typeOption rfl .nil) .zero
      fun _ => rfl
  exact hitem.list rfl fun ⟨_, _⟩ _ => rfl

/-- Lists of parameters fit, with types that may be left out. -/
theorem parameters :
    Decoder.Confined (list d.parameter) fun ps => .array (Parameter.listToJson ps) := by
  have hitem : Decoder.Confined d.parameter Parameter.toJson :=
    .record (.flat Json.identifier (fun _ => rfl) <| .optional h.typeOption rfl .nil) .zero
      fun _ => rfl
  exact hitem.list rfl fun ⟨_, _⟩ _ => rfl

/-- Lists of array items fit. -/
theorem arrayItems :
    Decoder.Confined (list d.arrayItem) fun items => .array (ArrayItem.listToJson items) := by
  have hitem : Decoder.Confined d.arrayItem fun item => .object [
      ("expr", item.expr.toJson), ("spread", .boolean item.spread)] :=
    .record (.required h.expr <| .flat Json.boolean (fun _ => rfl) .nil) .zero fun _ => rfl
  exact hitem.list rfl fun ⟨_, _⟩ _ => rfl

/-- Lists of members of an object fit. -/
theorem members :
    Decoder.Confined (list d.member) fun ms => .array (Member.listToJson ms) := by
  have hitem : Decoder.Confined d.member Member.toJson := by
    refine .tagged ?_
    simp only [List.forall_mem_cons, List.not_mem_nil, false_imp_iff, implies_true, and_true]
    exact ⟨.of h.expr fun _ => rfl,
      .record (.required h.expr <| .required h.expr .nil) .zero fun _ => rfl⟩
  exact hitem.list rfl fun m _ => by cases m <;> rfl

/-- Lists of cases of a `switch` fit. -/
theorem switchCases :
    Decoder.Confined (list d.switchCase) fun cs => .array (SwitchCase.listToJson cs) := by
  have hitem : Decoder.Confined d.switchCase fun c => .object [
      ("case_string", .string c.label), ("statements", .array (Statement.listToJson c.body))] :=
    .record (.flat Json.string (fun _ => rfl) <| .required h.statements .nil) .zero fun _ => rfl
  exact hitem.list rfl fun ⟨_, _⟩ _ => rfl

/-- Keys fit, as text and as expressions. -/
theorem propertyName : Decoder.Confined d.propertyName PropertyName.toJson := by
  refine .tagged ?_
  simp only [List.forall_mem_cons, List.not_mem_nil, false_imp_iff, implies_true, and_true]
  exact ⟨.of (.of_flat Json.string fun _ => rfl) fun _ => rfl, .of h.expr fun _ => rfl⟩

/-- Lists of members of an object type fit. -/
theorem memberTypes :
    Decoder.Confined (list d.memberType) fun ms => .array (MemberType.listToJson ms) := by
  have hitem : Decoder.Confined d.memberType MemberType.toJson :=
    .record (.required h.propertyName <| .flat Json.boolean (fun _ => rfl) <|
      .flat Json.boolean (fun _ => rfl) <| .required h.type <|
      .flat Json.string (fun _ => rfl) .nil) .zero fun _ => rfl
  exact hitem.list rfl fun ⟨_, _, _, _, _⟩ _ => rfl

/-- A name without type arguments fits at the bottom, where the list of them has no room. -/
theorem nameAndArguments : Decoder.Confined d.nameAndArguments fun p => .object [
    ("name", Json.identifier p.1), ("arguments", .array (TypeExpr.listToJson p.2))] := by
  refine ⟨fun {s v p} hok => ?_⟩
  obtain ⟨s', ⟨name, arguments, _⟩, hroom, ⟨-, hgives, -⟩, rfl⟩ := exists_of_record hok
  rw [hroom]
  rcases hgives with ⟨v, hv⟩ | habsent
  · refine .object ?_
    simp only [List.forall_mem_cons, List.not_mem_nil, false_imp_iff, implies_true, and_true]
    exact ⟨.flat rfl, h.types.fits hv⟩
  · obtain rfl : [] = arguments := Option.some.inj habsent
    exact .unapplied s'.room name

/-- What is called or constructed fits, with its arguments. -/
theorem call : Decoder.Confined d.call fun p => .object [
    ("expr", p.1.toJson), ("arguments", .array (Expr.listToJson p.2))] :=
  .record (.required h.expr <| .defaulted h.exprs rfl .nil) (.here h.expr Expr.depth_toJson_pos)
    fun _ => rfl

/-! ## Nodes -/

/-- The variants of an expression fit with one layer more. -/
theorem grow_expr : Decoder.Confined d.grow.expr Expr.toJson := by
  refine .tagged ?_
  simp only [exprVariants, List.forall_mem_cons, List.not_mem_nil, false_imp_iff, implies_true,
    and_true]
  refine ⟨?number, ?string, ?boolean, .bare rfl, .bare rfl, ?unary, ?binary, ?conditional, ?array,
    ?object, ?lambda, ?reference, ?global, ?imported, ?get, ?call, ?new, ?assertion,
    ?instantiation⟩
  case number => exact .of (.of_flat (fun n => .number n.toInt) fun _ => rfl) fun _ => rfl
  case string => exact .of (.of_flat Json.string fun _ => rfl) fun _ => rfl
  case boolean => exact .of (.of_flat Json.boolean fun _ => rfl) fun _ => rfl
  case unary =>
    exact .record (.flat (choiceToJson UnaryOperator.names) (fun _ => rfl) <|
      .required h.expr .nil) .zero fun _ => rfl
  case binary =>
    exact .record (.flat (choiceToJson BinaryOperator.names) (fun _ => rfl) <|
      .required h.expr <| .required h.expr .nil) .zero fun _ => rfl
  case conditional =>
    exact .record (.required h.expr <| .required h.expr <| .required h.expr .nil) .zero
      fun _ => rfl
  case array => exact .of h.arrayItems fun _ => rfl
  case object => exact .of h.members fun _ => rfl
  case lambda =>
    exact .record (.flat Json.boolean (fun _ => rfl) <| .defaulted h.typeParameters rfl <|
      .defaulted h.parameters rfl <| .optional h.typeOption rfl <| .required h.statements .nil)
      (.there <| .there <| .there <| .there <| .here h.statements fun _ => Nat.succ_pos _)
      fun _ => rfl
  case reference => exact .of (.of_flat Json.identifier fun _ => rfl) fun _ => rfl
  case global => exact .of (.of_flat Json.identifier fun _ => rfl) fun _ => rfl
  case imported =>
    exact .record (.flat Json.string (fun _ => rfl) <| .flat Json.string (fun _ => rfl) .nil)
      .zero fun _ => rfl
  case get => exact .record (.required h.expr <| .required h.expr .nil) .zero fun _ => rfl
  case call => exact .of h.call fun _ => rfl
  case new => exact .of h.call fun _ => rfl
  case assertion => exact .record (.required h.expr <| .required h.type .nil) .zero fun _ => rfl
  case instantiation =>
    exact .record (.required h.expr <| .required h.types .nil) .zero fun _ => rfl

/-- The variants of a statement fit with one layer more. -/
theorem grow_statement : Decoder.Confined d.grow.statement Statement.toJson := by
  refine .tagged ?_
  simp only [statementVariants, List.forall_mem_cons, List.not_mem_nil, false_imp_iff,
    implies_true, and_true]
  refine ⟨?evaluate, ?set, ?ifElse, ?«throwError», ?returnValue, .bare rfl, .bare rfl, .bare rfl,
    ?binding, ?function, ?forCount, ?forOf, ?whileTrue, ?switch, ?tryCatch⟩
  case evaluate => exact .of h.expr fun _ => rfl
  case set =>
    exact .record (.required h.expr <| .flat assignmentToJson (fun op => by cases op <;> rfl) <|
      .required h.expr .nil) .zero fun _ => rfl
  case ifElse =>
    exact .record (.required h.expr <| .required h.statements <| .defaulted h.statements rfl .nil)
      (.here h.expr Expr.depth_toJson_pos) fun _ => rfl
  case «throwError» => exact .of h.expr fun _ => rfl
  case returnValue => exact .of h.expr fun _ => rfl
  case binding =>
    exact .record (.flat Json.boolean (fun _ => rfl) <| .flat Json.identifier (fun _ => rfl) <|
      .optional h.typeOption rfl <| .required h.expr .nil) .zero fun _ => rfl
  case function =>
    exact .record (.flat Json.boolean (fun _ => rfl) <| .flat Json.identifier (fun _ => rfl) <|
      .defaulted h.typeParameters rfl <| .defaulted h.parameters rfl <| .required h.type <|
      .required h.statements .nil)
      (.there <| .there <| .there <| .there <| .here h.type TypeExpr.depth_toJson_pos) fun _ => rfl
  case forCount =>
    exact .record (.flat Json.identifier (fun _ => rfl) <| .required h.expr <|
      .required h.statements .nil) .zero fun _ => rfl
  case forOf =>
    exact .record (.flat Json.identifier (fun _ => rfl) <| .required h.expr <|
      .required h.statements .nil) .zero fun _ => rfl
  case whileTrue => exact .of h.statements fun _ => rfl
  case switch =>
    exact .record (.required h.expr <| .required h.switchCases .nil) .zero fun _ => rfl
  case tryCatch =>
    exact .record (.required h.statements <| .flat Json.identifier (fun _ => rfl) <|
      .required h.statements .nil) .zero fun _ => rfl

/-- The variants of a type, of which only a name without arguments may stand at the bottom. -/
theorem grow_type : Decoder.Confined d.grow.type TypeExpr.toJson := by
  refine .tagged ?_
  simp only [typeVariants, List.forall_mem_cons, List.not_mem_nil, false_imp_iff, implies_true,
    and_true]
  refine ⟨.bare rfl, .bare rfl, .bare rfl, .bare rfl, .bare rfl, .bare rfl, .bare rfl, .bare rfl,
    ?object, ?function, ?union, ?intersection, ?imported, ?inFile, ?global, ?namespaced,
    ?stringLiteral, .bare rfl⟩
  case object => exact .of h.memberTypes fun _ => rfl
  case function =>
    exact .record (.defaulted h.typeParameters rfl <| .required h.types <| .required h.type .nil)
      (.there <| .here h.types fun _ => Nat.succ_pos _) fun _ => rfl
  case union => exact .of h.types fun _ => rfl
  case intersection =>
    exact .record (.required h.type <| .required h.type .nil) .zero fun _ => rfl
  case imported =>
    exact .record (.flat Json.string (fun _ => rfl) <| .required h.nameAndArguments .nil) .zero
      fun _ => rfl
  case inFile => exact .of h.nameAndArguments fun _ => rfl
  case global => exact .of h.nameAndArguments fun _ => rfl
  case namespaced =>
    have hname : Decoder.Confined Identifier.decoder Json.identifier := .of_flat _ fun _ => rfl
    have hpath : Decoder.Confined (list Identifier.decoder)
        fun path => .array (path.map Json.identifier) := hname.list rfl fun _ _ => rfl
    exact .record (.required hpath <| .required h.nameAndArguments .nil) .zero fun _ => rfl
  case stringLiteral => exact .of (.of_flat Json.string fun _ => rfl) fun _ => rfl

/-- The next layer is confined as well. -/
theorem grow : d.grow.Confined :=
  ⟨h.grow_expr, h.grow_statement, h.grow_type⟩

/-! ## Definitions and modules -/

/-- Definitions fit as the nodes in them do. -/
theorem definition : Decoder.Confined d.definition Definition.toJson := by
  refine .tagged ?_
  simp only [List.forall_mem_cons, List.not_mem_nil, false_imp_iff, implies_true, and_true]
  refine ⟨?typeAlias, ?function, ?binding⟩
  case typeAlias =>
    exact .of_record (.flat Json.boolean (fun _ => rfl) <|
      .flat Json.identifier (fun _ => rfl) <| .defaulted h.typeParameters rfl <|
      .flat Json.string (fun _ => rfl) <| .required h.type .nil)
      (.there <| .there <| .there <| .there <| .here h.type TypeExpr.depth_toJson_pos) fun _ => rfl
  case function =>
    have hparameter : Decoder.Confined d.documentedParameter DocumentedParameter.toJson :=
      .record (.flat Json.identifier (fun _ => rfl) <| .flat Json.string (fun _ => rfl) <|
        .required h.type .nil) .zero fun _ => rfl
    have hparameters : Decoder.Confined (list d.documentedParameter)
        fun ps => .array (ps.map DocumentedParameter.toJson) := hparameter.list rfl fun _ _ => rfl
    exact .of_record (.flat Json.boolean (fun _ => rfl) <| .flat Json.boolean (fun _ => rfl) <|
      .flat Json.identifier (fun _ => rfl) <| .flat Json.string (fun _ => rfl) <|
      .defaulted h.typeParameters rfl <| .defaulted hparameters rfl <| .required h.type <|
      .defaulted h.statements rfl .nil)
      (.there <| .there <| .there <| .there <| .there <| .there <|
        .here h.type TypeExpr.depth_toJson_pos) fun _ => rfl
  case binding =>
    exact .of_record (.flat Json.boolean (fun _ => rfl) <|
      .flat Json.identifier (fun _ => rfl) <| .flat Json.string (fun _ => rfl) <|
      .optional h.typeOption rfl <| .required h.expr .nil) .zero fun _ => rfl

/-- A module fits if there is room for the two lists in it. -/
theorem fits_wholeModule {s : Standing} (hs : 1 < s.room) {v : Draft} {m : Module}
    (hok : d.wholeModule s v = .ok m) : m.toJson.Fits s.room := by
  obtain ⟨s', as, hroom, hgives, rfl⟩ := exists_of_record hok
  have hdefinitions : Decoder.Confined (list d.definition)
      fun definitions => .array (definitions.map Definition.toJson) :=
    h.definition.list rfl fun _ _ => rfl
  rw [hroom] at hs ⊢
  have hfits := Fields.Confined.fits (.defaulted hdefinitions rfl <|
    .defaulted h.statements rfl .nil) (Nat.le_of_lt_succ hs) hgives
  exact .object hfits

end Confined

/-- Decoders without layers return nothing. -/
theorem confined_exhausted : exhausted.Confined :=
  ⟨⟨nofun⟩, ⟨nofun⟩, ⟨nofun⟩⟩

/-- Every number of layers is confined. -/
theorem confined_layers (n : Nat) : (layers n).Confined := by
  induction n with
  | zero => exact confined_exhausted
  | succ n ih => exact ih.grow

end TreeDecoders

/-! ## Decoding what was decoded -/

/-- Whether the name of a type without type arguments stands as deep as the innermost array or
object may. -/
def Json.HasNameAtBottom (j : Json) : Prop :=
  ∃ name, StandsAt (unapplied name) Standing.outermost.room j

/-- A name at the bottom nests deeper than a reader goes. -/
theorem Json.HasNameAtBottom.lt_depth {j : Json} (h : j.HasNameAtBottom) :
    Standing.outermost.room < j.depth := by
  obtain ⟨name, hname⟩ := h
  have hdeep : Standing.outermost.room + 2 ≤ j.depth + 1 := hname.add_depth_le
  exact Nat.le_of_succ_le_succ hdeep

section

variable {α : Type} {decoder : Decoder α} {toJson : α → Json}

/-- The compact text of the JSON form of what is decoded from a text. -/
def renew (decoder : Decoder α) (toJson : α → Json) (text : String) : Except ReadFault String :=
  (decoder.runText text).map fun a => (toJson a).compact

/-- Whether decoded values are decoded again from the compact text of their JSON form, which is
then written again. If a name stands at the bottom, nothing is decoded from that text. -/
structure Renewable (decoder : Decoder α) (toJson : α → Json) : Prop where
  renews : ∀ {text a}, decoder.runText text = .ok a → ¬(toJson a).HasNameAtBottom →
    decoder.runText (toJson a).compact = .ok a ∧
      renew decoder toJson (toJson a).compact = .ok (toJson a).compact
  refuses : ∀ {text a}, decoder.runText text = .ok a → (toJson a).HasNameAtBottom →
    ∀ b, decoder.runText (toJson a).compact ≠ .ok b

/-- What is decoded from a text is decoded from the value in it. -/
theorem eq_ok_of_runText {text : String} {a : α} (h : decoder.runText text = .ok a) :
    decoder .outermost (Document.ofText text).value = .ok a := by
  obtain ⟨b, hb, h⟩ := exists_of_bind_eq_ok h
  split at h
  · contradiction
  · exact Except.ok.inj h ▸ hb

/-- A JSON form is renewable if it is lossless, decoded only where there is room for it, and fits
once it was decoded. -/
theorem Renewable.of_fits (hlossless : Lossless decoder toJson)
    (hroom : ∀ {a b}, decoder .outermost (toJson a).draft = .ok b → (toJson a).depth ≤ 127)
    (hfits : ∀ {v a}, decoder .outermost v = .ok a → (toJson a).Fits Standing.outermost.room) :
    Renewable decoder toJson := by
  refine ⟨fun {text a} hok hbottom => ?renews, fun {text a} hok hbottom b hagain => ?refuses⟩
  case renews =>
    have hdepth : (toJson a).depth ≤ 127 := by
      refine Nat.le_of_not_lt fun hdeep => hbottom ?_
      exact (hfits (eq_ok_of_runText hok)).exists_standsAt hdeep
    have hdecodes := hlossless.decodes a hdepth
    refine ⟨hdecodes, ?_⟩
    rw [renew, hdecodes]
    rfl
  case refuses =>
    have hdraft := eq_ok_of_runText hagain
    rw [Document.ofText_compact] at hdraft
    exact absurd (hroom hdraft) (Nat.not_le_of_lt hbottom.lt_depth)

end

/-! ## All kinds of trees -/

section Trees

open TreeDecoders (sound_layers confined_layers)

/-- Decoded values are renewed if every value is decoded from its JSON form, up to a depth. -/
theorem Renewable.of_decodes {α : Type} {decoder : Decoder α} {toJson : α → Json} {n : Nat}
    (hlossless : Lossless decoder toJson) (hdecodes : ∀ a, Decodes n decoder (toJson a) a)
    (hfits : ∀ {v a}, decoder .outermost v = .ok a → (toJson a).Fits Standing.outermost.room) :
    Renewable decoder toJson :=
  .of_fits hlossless (fun {a _} hok => Json.depth_draft (toJson a) ▸ (hdecodes a).depth_le hok)
    hfits

/-- Modules are decoded again from what is written of them. -/
theorem Module.renewable : Renewable Module.decoder Module.toJson :=
  .of_decodes Module.lossless (sound_layers 129).wholeModule
    ((confined_layers 129).fits_wholeModule (by decide))

/-- Definitions are decoded again from what is written of them. -/
theorem Definition.renewable : Renewable Definition.decoder Definition.toJson :=
  .of_decodes Definition.lossless (sound_layers 129).definition
    (confined_layers 129).definition.fits

/-- Statements are decoded again from what is written of them. -/
theorem Statement.renewable : Renewable Statement.decoder Statement.toJson :=
  .of_decodes Statement.lossless (sound_layers 129).statement (confined_layers 129).statement.fits

/-- Expressions are decoded again from what is written of them. -/
theorem Expr.renewable : Renewable Expr.decoder Expr.toJson :=
  .of_decodes Expr.lossless (sound_layers 129).expr (confined_layers 129).expr.fits

/-- Types are decoded again from what is written of them. -/
theorem TypeExpr.renewable : Renewable TypeExpr.decoder TypeExpr.toJson :=
  .of_decodes TypeExpr.lossless (sound_layers 129).type (confined_layers 129).type.fits

end Trees

/-! ## Types in unions -/

/-- The JSON form of a type inside of unions of one type each. -/
def Json.inUnions (j : Json) : Nat → Json
  | 0 => j
  | n + 1 => carrying "Union" (.array [j.inUnions n])

/-- A type inside of unions of one type each. -/
def TypeExpr.inUnions (t : TypeExpr) : Nat → TypeExpr
  | 0 => t
  | n + 1 => .union [t.inUnions n]

/-- The JSON form of a type in unions is that of the type, in the same unions. -/
theorem TypeExpr.toJson_inUnions (t : TypeExpr) (n : Nat) :
    (t.inUnions n).toJson = t.toJson.inUnions n := by
  induction n with
  | zero => rfl
  | succ n ih => rw [Json.inUnions, ← ih]; rfl

/-- Each union is an object and a list. -/
theorem Json.depth_inUnions (j : Json) (n : Nat) : (j.inUnions n).depth = j.depth + 2 * n := by
  induction n with
  | zero => rfl
  | succ n ih =>
      have hstep : (j.inUnions (n + 1)).depth = (j.inUnions n).depth + 2 := by
        simp [inUnions, carrying, depth, itemDepth, memberDepth]
      omega

/-- What stands in a value stands two deeper with each union around it. -/
theorem Json.StandsAt.inUnions {v j : Json} {m : Nat} (h : StandsAt v m j) (n : Nat) :
    StandsAt v (m + 2 * n) (j.inUnions n) := by
  induction n with
  | zero => exact h
  | succ n ih => exact .member (.tail _ (.head _)) (.item (.head _) ih)

/-- An object varies to one with those of its members that are not left out. -/
theorem Json.Varies.of_kept {members : List (String × Json)}
    {kept : List (Option String × Draft)}
    (h : KeptMembers (members.map Prod.fst) members kept) :
    (Json.object members).Varies (.object kept true) :=
  .object h (List.forall_mem_nil _) (.of_eq (List.append_nil _).symm)

/-- What varies in a value varies in the unions around it. -/
theorem Json.Varies.inUnions {j j' : Json} (h : j.Varies j'.draft) (n : Nat) :
    (j.inUnions n).Varies (j'.inUnions n).draft := by
  induction n with
  | zero => exact h
  | succ n ih =>
      have hvalue : (Json.array [j.inUnions n]).Varies (Json.array [j'.inUnions n]).draft :=
        .array (.cons ih .nil)
      exact .of_kept (.keep (.string _) (.keep hvalue .nil))

/-- A type is decoded from any shorter form of it, inside of as many unions as there is room. -/
theorem TypeExpr.runText_inUnions {t : TypeExpr} {short : Json} (h : t.toJson.Varies short.draft)
    {n : Nat} (hn : short.depth + 2 * n ≤ 127) :
    TypeExpr.decoder.runText (short.inUnions n).compact = .ok (t.inUnions n) := by
  have hdepth : (short.inUnions n).draft.depth ≤ 127 := by
    rw [Json.depth_draft, Json.depth_inUnions]
    exact hn
  have hvaries : (t.inUnions n).toJson.Varies (short.inUnions n).draft := by
    rw [toJson_inUnions]
    exact h.inUnions n
  have htakes := ((TreeDecoders.sound_layers 129).type (t.inUnions n)).takes _ hvaries (by omega)
  exact htakes.runText (short.inUnions n).hasText_compact hdepth

/-- The decoders of all trees are renewable. -/
theorem renewable_trees :
    Renewable Module.decoder Module.toJson ∧
      Renewable Definition.decoder Definition.toJson ∧
      Renewable Statement.decoder Statement.toJson ∧
      Renewable Expr.decoder Expr.toJson ∧
      Renewable TypeExpr.decoder TypeExpr.toJson :=
  ⟨Module.renewable, Definition.renewable, Statement.renewable, Expr.renewable,
    TypeExpr.renewable⟩

/-- The name of an imported type, without the list of its type arguments. -/
def Json.shortImport : Json :=
  carrying "ImportedType" (.object [("module_path", .string "m"),
    ("name_and_arguments", .object [("name", .string "T")])])

/-- The list of type arguments may be left out when there are none. -/
theorem Json.varies_shortImport :
    (TypeExpr.imported "m" (.ofString "T") []).toJson.Varies shortImport.draft := by
  have hname : identifier (.ofString "T") = .string "T" :=
    congrArg Json.string (show (Identifier.ofString "T").text = "T" by decide)
  have hshort :
      (Json.object [("name", identifier (.ofString "T")), ("arguments", .array [])]).Varies
        (Json.object [("name", .string "T")]).draft := by
    rw [hname]
    exact .of_kept (.keep (.string "T") (.leave rfl .nil))
  exact .of_kept (.keep (.string _) (.keep (.of_kept (.keep (.string "m") (.keep hshort .nil)))
    .nil))

/-- A name that stands one level above the bottom. -/
theorem renewable_trees_above_bottom :
    let t := (TypeExpr.imported "m" (.ofString "T") []).inUnions 61
    TypeExpr.decoder.runText (Json.shortImport.inUnions 61).compact = .ok t ∧
      TypeExpr.decoder.runText t.toJson.compact = .ok t ∧
      renew TypeExpr.decoder TypeExpr.toJson t.toJson.compact = .ok t.toJson.compact := by
  intro t
  have hok := TypeExpr.runText_inUnions Json.varies_shortImport (n := 61) (by decide)
  have hbottom : ¬t.toJson.HasNameAtBottom := by
    refine fun h => Nat.not_lt_of_le ?_ h.lt_depth
    rw [TypeExpr.toJson_inUnions, Json.depth_inUnions]
    decide
  exact ⟨hok, renewable_trees.2.2.2.2.renews hok hbottom⟩

/-- A name that stands at the bottom is decoded if its text leaves the empty list of type
arguments out. The text with that list is refused. -/
theorem not_renewed_at_bottom :
    let t := (TypeExpr.imported "m" (.ofString "T") []).inUnions 62
    TypeExpr.decoder.runText (Json.shortImport.inUnions 62).compact = .ok t ∧
      ∀ b, TypeExpr.decoder.runText t.toJson.compact ≠ .ok b := by
  intro t
  have hok := TypeExpr.runText_inUnions Json.varies_shortImport (n := 62) (by decide)
  have hbottom : t.toJson.HasNameAtBottom := by
    have hname : (Json.unapplied (.ofString "T")).StandsAt 3
        (TypeExpr.imported "m" (.ofString "T") []).toJson :=
      .member (.tail _ (.head _)) (.member (.tail _ (.head _)) .whole)
    exact ⟨_, TypeExpr.toJson_inUnions _ 62 ▸ hname.inUnions 62⟩
  exact ⟨hok, TypeExpr.renewable.refuses hok hbottom⟩

end EcmaWriter
