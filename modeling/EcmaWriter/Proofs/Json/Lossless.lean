import EcmaWriter.Proofs.Json.Trees
import EcmaWriter.Proofs.Tree.Equality

/-!
# EcmaWriter - The JSON form loses nothing

Compact text is read as the value it is the text of, and every tree is decoded from its
value, so a tree is decoded from the compact text of its JSON form.  A text may only nest so
deep, but there are decoders for trees of any depth: two trees whose texts are the same are
decoded from one draft by the decoders of enough layers, and so they are the same tree.

Main results:

- Definition `Lossless`: a JSON form that can be decoded and belongs to one value only.
- Theorem `lossless_and_same_iff`: the JSON forms of all kinds of trees are lossless, and
  the equality test on modules compares their texts.
-/

namespace EcmaWriter

open Decoder

namespace Json

mutual

/-- How deep arrays and objects nest in a value. -/
def depth : Json → Nat
  | .array items => itemDepth items + 1
  | .object members => memberDepth members + 1
  | _ => 0

/-- How deep arrays and objects nest in items. -/
def itemDepth : List Json → Nat
  | [] => 0
  | item :: items => max item.depth (itemDepth items)

/-- How deep arrays and objects nest in members. -/
def memberDepth : List (String × Json) → Nat
  | [] => 0
  | (_, value) :: members => max value.depth (memberDepth members)

end

mutual

/-- A draft nests as deep as its value. -/
theorem depth_draft (j : Json) : j.draft.depth = j.depth := by
  cases j with
  | array items => rw [draft, Draft.depth, depth, itemDepth_itemDrafts items]
  | object members => rw [draft, Draft.depth, depth, memberDepth_memberDrafts members]
  | _ => rfl

/-- Drafts of items nest as deep as the items. -/
theorem itemDepth_itemDrafts (items : List Json) :
    Draft.itemDepth (itemDrafts items) = itemDepth items := by
  cases items with
  | nil => rfl
  | cons item items =>
      rw [itemDrafts, Draft.itemDepth, itemDepth, depth_draft item, itemDepth_itemDrafts items]

/-- Drafts of members nest as deep as the members. -/
theorem memberDepth_memberDrafts (members : List (String × Json)) :
    Draft.memberDepth (memberDrafts members) = memberDepth members := by
  rcases members with _ | ⟨⟨key, value⟩, members⟩
  · rfl
  · rw [memberDrafts, Draft.memberDepth, memberDepth, depth_draft value,
      memberDepth_memberDrafts members]

end

end Json

/-- Whether values are decoded from the compact text of their JSON form, unless that nests
too deep for any text, and no two values have the same text. -/
structure Lossless {α : Type} (decoder : Decoder α) (toJson : α → Json) : Prop where
  decodes : ∀ a, (toJson a).depth ≤ 127 → decoder.runText (toJson a).compact = .ok a
  injective : ∀ a b, (toJson a).compact = (toJson b).compact → a = b

namespace Lossless

variable {α : Type} {toJson : α → Json}

/-- A JSON form is lossless if there are decoders for every depth, of which the decoder of
texts is one for depths that texts have. -/
theorem of_decodes (decoder : Nat → Decoder α) {n : Nat} (hn : 127 ≤ n)
    (h : ∀ n a, Decodes n (decoder n) (toJson a) a) : Lossless (decoder n) toJson := by
  refine ⟨?decodes, ?injective⟩
  case decodes =>
    intro a hdepth
    rw [← Json.depth_draft] at hdepth
    have htakes := (h n a).takes _ (toJson a).varies_draft (Nat.le_trans hdepth hn)
    exact htakes.runText (toJson a).hasText_compact hdepth
  case injective =>
    intro a b hsame
    have hdraft : (toJson a).draft = (toJson b).draft := by
      have hdocument := Document.ofText_compact (toJson a)
      rw [hsame, Document.ofText_compact] at hdocument
      exact (Document.mk.inj hdocument).1.symm
    have htakes : ∀ c, (decoder (toJson c).draft.depth).Takes (toJson c).draft c :=
      fun c => (h _ c).takes _ (toJson c).varies_draft (Nat.le_refl _)
    have ha := (htakes a).eq_ok ⟨_, false⟩ (Nat.le_refl _)
    have hb := (htakes b).eq_ok ⟨_, false⟩ (Nat.le_refl _)
    rw [hdraft, hb] at ha
    exact (Except.ok.inj ha).symm

end Lossless

/-! ## All kinds of trees -/

section Trees

open TreeDecoders (layers sound_layers)

/-- Modules are decoded from their JSON form. -/
theorem Module.lossless : Lossless Module.decoder Module.toJson :=
  .of_decodes (fun n => (layers n).wholeModule) (by decide) fun n => (sound_layers n).wholeModule

/-- Definitions are decoded from their JSON form. -/
theorem Definition.lossless : Lossless Definition.decoder Definition.toJson :=
  .of_decodes (fun n => (layers n).definition) (by decide)
    fun n a => ((sound_layers n).definition a).mono n.le_succ

/-- Statements are decoded from their JSON form. -/
theorem Statement.lossless : Lossless Statement.decoder Statement.toJson :=
  .of_decodes (fun n => (layers n).statement) (by decide) fun n => (sound_layers n).statement

/-- Expressions are decoded from their JSON form. -/
theorem Expr.lossless : Lossless Expr.decoder Expr.toJson :=
  .of_decodes (fun n => (layers n).expr) (by decide) fun n => (sound_layers n).expr

/-- Types are decoded from their JSON form. -/
theorem TypeExpr.lossless : Lossless TypeExpr.decoder TypeExpr.toJson :=
  .of_decodes (fun n => (layers n).type) (by decide) fun n => (sound_layers n).type

/-- Legal names are decoded from their JSON form. -/
theorem Identifier.lossless : Lossless Identifier.decoder Json.identifier :=
  .of_decodes (fun _ => Identifier.decoder) (Nat.le_refl 127) fun _ => decodes_identifier

/-- Dialects are decoded from their names. -/
theorem Dialect.lossless : Lossless Dialect.decoder Dialect.toJson :=
  .of_decodes (fun _ => Dialect.decoder) (Nat.le_refl 127)
    fun _ d => decodes_choice (lookup_nameIn_dialect d)

end Trees

/-- The JSON forms of all trees, of identifiers and of dialects are lossless, and two
modules are the same exactly if their JSON forms have the same text. -/
theorem lossless_and_same_iff :
    Lossless Module.decoder Module.toJson ∧
      Lossless Definition.decoder Definition.toJson ∧
      Lossless Statement.decoder Statement.toJson ∧
      Lossless Expr.decoder Expr.toJson ∧
      Lossless TypeExpr.decoder TypeExpr.toJson ∧
      Lossless Identifier.decoder Json.identifier ∧
      Lossless Dialect.decoder Dialect.toJson ∧
      ∀ a b : Module, a.same b = true ↔ a.toJson.compact = b.toJson.compact := by
  refine ⟨Module.lossless, Definition.lossless, Statement.lossless, Expr.lossless,
    TypeExpr.lossless, Identifier.lossless, Dialect.lossless, ?_⟩
  intro a b
  rw [Module.same_iff]
  constructor
  · intro h
    rw [h]
  · intro h
    exact Module.lossless.injective a b h

/-- A module with a string that needs escapes, an option that is left out and a list that
is empty. -/
theorem lossless_and_same_iff_escapes :
    let call : Expr := .call (.string "\"\\\x01é") []
    let m : Module := ⟨[.binding ⟨false, .ofString "a b", "", none, call⟩], []⟩
    m.toJson.depth ≤ 127 ∧ Module.decoder.runText m.toJson.compact = .ok m := by
  intro call m
  have hdepth : m.toJson.depth ≤ 127 := by decide
  exact ⟨hdepth, lossless_and_same_iff.1.decodes m hdepth⟩

end EcmaWriter
