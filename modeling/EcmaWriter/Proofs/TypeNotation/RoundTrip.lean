import EcmaWriter.Proofs.TypeNotation.Modifiers

/-!
# EcmaWriter - Written types read back

Text that is written of a type is cut into the tokens of its lexemes, documents aside.  If
no type parameter has the name of a modifier, these tokens derive one tree, which is the
tree of the type up to normal forms.  Otherwise they derive none.

Main results:

- Definition `TypeNotation.Reads`: text that is accepted in full as a type with a tree.
- Theorem `TypeExpr.type_reads_back`: what is written of a type reads back as the type,
  exactly if no type parameter has the name of a modifier.
-/

namespace EcmaWriter

/-! ## Reading text -/

namespace TypeNotation

/-- Text that is read as a type, to its end. -/
def Reads (text : String) (t : Tree) : Prop :=
  ∃ ts, scan text.toList = some ts ∧ Derives .type ts t

/-- A primary phrase is a type by itself. -/
theorem Derives.of_primary {ts : List Token} {t : Tree} (d : Derives .primary ts t) :
    Derives .type ts t := by
  have hsuffixed : Derives .suffixed ts t := .unit (by decide) d
  have hprefixed : Derives .prefixed ts t := .unit (by decide) hsuffixed
  have hintersection : Derives .intersection ts t := .unit (by decide) hprefixed
  have hunion : Derives .union ts t := .unit (by decide) hintersection
  exact .unit (by decide) hunion

/-- Text is read as at most one tree. -/
theorem Reads.unique {text : String} {t u : Tree} (ht : Reads text t) (hu : Reads text u) :
    t = u := by
  rcases ht with ⟨ts, hts, dt⟩
  rcases hu with ⟨us, hus, du⟩
  obtain rfl : ts = us := Option.some.inj (hts.symm.trans hus)
  exact dt.unique du

/-- Text in which a modifier stands before a bound is read as nothing. -/
theorem not_reads_of_showsModifier {text : String} {ts : List Token}
    (hscan : scan text.toList = some ts) (h : ShowsModifier ts) (w : Tree) : ¬ Reads text w := by
  rintro ⟨us, hus, d⟩
  obtain rfl : ts = us := Option.some.inj (hscan.symm.trans hus)
  exact h.not_derives .type w d

end TypeNotation

namespace TypeExpr

open TypeNotation

/-- What is written of a type that can be read back is a text with the tokens of its lexemes. -/
theorem exists_spelling (t : TypeExpr) {table : ImportTable} (p : Place)
    (h : t.isReadable table p.types = true) :
    ∃ text, spellAll table (t.layout p) = .ok text ∧
      scan text.toList = some (tokens table (t.layout p)) := by
  obtain ⟨u, hu⟩ := t.exists_tree h
  have hscanned := t.scanned_layout p hu
  refine ⟨_, spellAll_eq_ok hscanned.mapped, ?_⟩
  have happend := hscanned.scan_append [] [] rfl scan_nil
  rw [List.append_nil, List.append_nil] at happend
  rw [String.toList_join, List.flatMap_map]
  exact happend

/-- What is written of a type that can be read back is a text.  If no type parameter has the
name of a modifier, it reads back as one tree, and this is the tree of the type up to normal
forms.  If one has, the text reads back as nothing. -/
theorem type_reads_back (t : TypeExpr) (table : ImportTable) (p : Place)
    (h : t.isReadable table p.types = true) :
    ∃ u text, t.tree? table p.types = some u ∧ spellAll table (t.layout p) = .ok text ∧
      if t.bindsPlainly = true then ∃ v, (∀ w, Reads text w ↔ w = v) ∧ v.normal = u.normal
      else ∀ w, ¬ Reads text w := by
  obtain ⟨u, hu⟩ := t.exists_tree h
  obtain ⟨text, htext, hscan⟩ := t.exists_spelling p h
  refine ⟨u, text, hu, htext, ?_⟩
  split
  · rename_i hplain
    obtain ⟨v, dv, hv⟩ := (t.derives_layout p hplain hu).type_of_phrase
    have hreads : Reads text v := ⟨_, hscan, dv⟩
    refine ⟨v, ?_, hv⟩
    intro w
    constructor
    · intro hw
      exact hw.unique hreads
    · rintro rfl
      exact hreads
  · rename_i hplain
    exact not_reads_of_showsModifier hscan
      (t.showsModifier_layout p (Bool.eq_false_iff.mpr hplain))

/-- A function in a union, a union of one member in an intersection, a built-in type that is
hidden and a member with a document. -/
theorem type_reads_back_nested :
    ∃ text v, text =
        "(<T extends unknown>(a: T) => never) | (x.Shape<globalThis.Map<\"a\\nb\">>) & " ++
          "\x7b\n  /**\n   * Open.\n   */\n  readonly \"is open\"?: number;\n\x7d" ∧
      (∀ w, Reads text w ↔ w = v) ∧
        v.normal = .union
          [.function [⟨"T", some (.keyword "unknown")⟩] [.reference ["T"] []] (.keyword "never"),
            .intersection
              [.reference ["x", "Shape"] [.reference ["globalThis", "Map"] [.string "a\nb"]],
                .object [⟨"is open", true, true, .keyword "number"⟩]]] := by
  have hread := type_reads_back
    (.union
      [.function [⟨⟨"T", rfl⟩, none⟩] [.inFile ⟨"T", rfl⟩ []] (.union []),
        .intersection
          (.union [.imported "./shape" ⟨"Shape", rfl⟩
            [.global ⟨"Map", rfl⟩ [.stringLiteral "a\r\nb"]]])
          (.object [⟨.string "is open", false, true, .number, "Open."⟩])])
    ⟨[("./shape", ⟨"x", rfl⟩)]⟩ ⟨.typeScript, 0, .root [], .root [⟨"Map", rfl⟩]⟩ rfl
  rcases hread with ⟨u, text, hu, htext, hread⟩
  obtain rfl := Option.some.inj hu
  obtain ⟨v, hread, hnormal⟩ : ∃ v, (∀ w, Reads text w ↔ w = v) ∧ _ := hread
  have hspelled : (Except.ok text : Except Fault String).toOption = some (
      "(<T extends unknown>(a: T) => never) | (x.Shape<globalThis.Map<\"a\\nb\">>) & " ++
        "\x7b\n  /**\n   * Open.\n   */\n  readonly \"is open\"?: number;\n\x7d") := by
    rw [← htext]
    decide +kernel
  exact ⟨text, v, Option.some.inj hspelled, hread, hnormal⟩

/-- A function type with a type parameter of the name `out` is written so that it is read as no
type. Without the bound it would be read as the type. -/
theorem exists_type_not_read :
    ∃ (t : TypeExpr) (table : ImportTable) (p : Place) (u : Tree),
      t.isReadable table p.types = true ∧ t.tree? table p.types = some u ∧
        spellAll table (t.layout p) = .ok "<out extends unknown>(a: out) => void" ∧
          (∀ w, ¬ Reads "<out extends unknown>(a: out) => void" w) ∧
            Reads "<out>(a: out) => void" u := by
  have hreadable : (TypeExpr.function [⟨⟨"out", rfl⟩, none⟩] [.inFile ⟨"out", rfl⟩ []]
      .void).isReadable ⟨[]⟩ (.root []) = true := rfl
  obtain ⟨text, htext, hscan⟩ := exists_spelling _ ⟨.typeScript, 0, .root [], .root []⟩ hreadable
  have hspelled : (Except.ok text : Except Fault String).toOption =
      some "<out extends unknown>(a: out) => void" := by
    rw [← htext]
    decide +kernel
  obtain rfl := Option.some.inj hspelled
  have hunread := not_reads_of_showsModifier hscan (showsModifier_layout _ _ rfl)
  refine ⟨_, _, _, _, hreadable, rfl, htext, hunread, ?_⟩
  have hunbound : scan "<out>(a: out) => void".toList = some
      [.punctuator "<", .word "out", .punctuator ">", .punctuator "(", .word "a",
        .punctuator ":", .word "out", .punctuator ")", .punctuator "=>", .word "void"] := by
    decide +kernel
  have hparameter : Derives .type [.word "out"] (.reference ["out"] []) :=
    .of_primary (.reference [] [] (by decide) (by simp))
  have hresult : Derives .type [.word "void"] (.keyword "void") :=
    .of_primary (.keyword (by decide))
  exact ⟨_, hunbound, .function [⟨"out", none⟩] [⟨⟨[.word "out"], .reference ["out"] []⟩, "a"⟩]
    (by decide) (by decide) (by simp) (by simpa using hparameter) hresult⟩

end TypeExpr

end EcmaWriter
