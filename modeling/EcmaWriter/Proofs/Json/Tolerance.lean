import EcmaWriter.Proofs.Json.Trees

/-!
# EcmaWriter - Decoding does not depend on the layout

A tree is decoded from every text of every variation of its JSON form.  Each choice between
variants is read directly or held back, depending on the order of its members, and each record
from its members or its elements, and all the ways through a text lead to the tree.

Main results:

- Definition `Tolerant`: a decoder to which the layout makes no difference.
- Theorem `tolerant_trees`: the decoders of all kinds of trees are tolerant.
-/

namespace EcmaWriter

open Decoder

/-- Whether values are decoded from all texts of all variations of their JSON form that do not
nest too deep for any text. -/
def Tolerant {α : Type} (decoder : Decoder α) (toJson : α → Json) : Prop :=
  ∀ (a : α) (v : Draft) (text : String), (toJson a).Varies v → v.HasText text →
    v.depth ≤ 127 → decoder.runText text = .ok a

/-- Decoders of JSON forms that nest as deep as a text may are tolerant. -/
theorem Tolerant.of_decodes {α : Type} {decoder : Decoder α} {toJson : α → Json} {n : Nat}
    (hn : 127 ≤ n) (h : ∀ a, Decodes n decoder (toJson a) a) : Tolerant decoder toJson := by
  intro a v text hv htext hdepth
  exact ((h a).takes v hv (Nat.le_trans hdepth hn)).runText htext hdepth

section Trees

open TreeDecoders (sound_layers)

/-- The layout makes no difference to the decoders of all trees, of identifiers and of
dialects. -/
theorem tolerant_trees :
    Tolerant Module.decoder Module.toJson ∧
      Tolerant Definition.decoder Definition.toJson ∧
      Tolerant Statement.decoder Statement.toJson ∧
      Tolerant Expr.decoder Expr.toJson ∧
      Tolerant TypeExpr.decoder TypeExpr.toJson ∧
      Tolerant Identifier.decoder Json.identifier ∧
      Tolerant Dialect.decoder Dialect.toJson := by
  have hlayers := sound_layers 129
  have hdepth : 127 ≤ 129 := by decide
  refine ⟨.of_decodes hdepth hlayers.wholeModule,
    .of_decodes hdepth fun a => (hlayers.definition a).mono (Nat.le_succ _),
    .of_decodes hdepth hlayers.statement, .of_decodes hdepth hlayers.expr,
    .of_decodes hdepth hlayers.type, .of_decodes (Nat.le_refl _) decodes_identifier,
    .of_decodes (Nat.le_refl _) fun d => decodes_choice (lookup_nameIn_dialect d)⟩

/-- A type whose `value` comes before its `type`, with a field of its own before both, a
record in the form of an array, a default left out and an escaped character. -/
theorem tolerant_trees_held :
    let t : TypeExpr := .inFile (.ofString "T") []
    let v : Draft := .object [(some "x", .number (.integer 1)),
      (some "value", .array [.string (some "T")] true),
      (some "type", .string (some "ScopeInFile"))] true
    let text := "\x7b \"x\": 1, \"value\": [\"\\u0054\"], \"type\": \"ScopeInFile\"\x7d"
    t.toJson.Varies v ∧ v.HasText text ∧ v.depth ≤ 127 ∧ TypeExpr.decoder.runText text = .ok t := by
  intro t v text
  have hname : (Identifier.ofString "T").text = "T" := by decide
  have hvalue : (Json.object [("name", Json.identifier (.ofString "T")),
      ("arguments", .array [])]).Varies (.array [.string (some "T")] true) := by
    refine .record rfl (.keep ?_ (.leave ?_))
    · rw [Json.identifier, hname]
      exact .string "T"
    · simp only [List.forall_mem_cons, List.not_mem_nil, false_imp_iff, implies_true, and_true]
      rfl
  have hvaries : t.toJson.Varies v := by
    have hothers : ∀ member ∈ [(some "x", Draft.number (.integer 1))],
        Json.IsUnknown ["type", "value"] member := by
      rintro member hmember
      obtain rfl := List.mem_singleton.mp hmember
      exact ⟨"x", _, rfl, by decide, .number rfl⟩
    exact .object (.keep (.string "ScopeInFile") (.keep hvalue .nil)) hothers
      (List.reverse_perm [_, _, _])
  have htext : v.HasText text := by
    have hone : (Numeral.integer 1).HasText ['1'] := Numeral.hasText_toString 1
    have hescape : StringUnit.HaveText "T".toList "\\u0054".toList :=
      @StringUnit.HaveText.cons 'T' [] ['\\', 'u', '0', '0', '5', '4'] [] (.code rfl) .nil
    have htype := Token.HaveText.cons (Json.hasText_quote "type") <|
      .mark_cons (c := ':') rfl <| .blank (c := ' ') rfl <|
      .cons (Json.hasText_quote "ScopeInFile") <| .mark_cons (c := '\x7d') rfl .nil
    have hvalue := Token.HaveText.cons (Json.hasText_quote "value") <|
      .mark_cons (c := ':') rfl <| .blank (c := ' ') rfl <| .mark_cons (c := '[') rfl <|
      .cons (.quoted hescape) <| .mark_cons (c := ']') rfl <| .mark_cons (c := ',') rfl <|
      .blank (c := ' ') rfl htype
    have hall := Token.HaveText.mark_cons (c := '\x7b') rfl <| .blank (c := ' ') rfl <|
      .cons (Json.hasText_quote "x") <| .mark_cons (c := ':') rfl <| .blank (c := ' ') rfl <|
      .cons (.decimal hone) <| .mark_cons (c := ',') rfl <| .blank (c := ' ') rfl hvalue
    refine Eq.mp (congrArg (Token.HaveText v.tokens) ?_) hall
    decide
  have hdepth : v.depth ≤ 127 := by decide
  exact ⟨hvaries, htext, hdepth, tolerant_trees.2.2.2.2.1 t v text hvaries htext hdepth⟩

end Trees

end EcmaWriter
