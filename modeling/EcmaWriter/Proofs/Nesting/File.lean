import EcmaWriter.Generation
import EcmaWriter.Proofs.Nesting.Layout

/-!
# EcmaWriter - Nothing escapes its lexical context

A generated file is self-contained: a reader of it ends in code with no bracket open, and
no string in it goes over the end of a line.  This is so whatever the strings, paths, names,
documents and links are that are written into it.

Main results:

- Theorem `Module.nested_layout`: the layout of a module is nested.
- Theorem `Module.scan_generate`: a generated file is read to its end.
-/

namespace EcmaWriter

open Lexeme

namespace Layout

variable {table : ImportTable}

/-- A comment whose body does not end it is self-contained. -/
theorem nested_comment {body : String} (h : StaysInComment body.toList) :
    Nested table [comment body] := by
  have htext : [comment body].flatMap (fun l => (l.text table).toList) =
      "/*".toList ++ body.toList ++ "*/".toList := by
    rw [List.flatMap_singleton, text, spell, String.toList_append, String.toList_append]
  rw [Nested, htext]
  exact selfContained_comment h

/-- No link ends the comment at the top of a file. -/
theorem nested_banner (links : List String) : Nested table (banner links) := by
  have hlint : StaysInComment " eslint-disable ".toList := fun awaited =>
    ⟨.comment, Or.inl rfl, rfl⟩
  exact (nested_comment hlint).append
    (.cons rfl (nested_comment (staysInComment_bannerBody links)))

/-- The path of an import is a literal, so it does not matter what is in it. -/
theorem nested_importLine (path : String) (n : Identifier) :
    Nested table (importLine path n) := by
  refine .of_isPlain ?_
  simp only [importLine, List.all_cons, isPlain_name]
  rfl

/-- The lines of the imports, one after the other. -/
theorem nested_imports (entries : ImportTable) : Nested table (imports entries) := by
  refine .separated (.cons rfl .nil) ?_
  intro ls hls
  rcases List.mem_map.mp hls with ⟨⟨path, n⟩, -, rfl⟩
  exact nested_importLine path n

end Layout

namespace Module

variable {table : ImportTable}

/-- The section of the imports, which is missing if there are none. -/
theorem allNested_importSection (entries : ImportTable) :
    AllNested table (importSection entries) := by
  rw [importSection]
  split
  · exact allNested_nil
  · exact allNested_cons.mpr ⟨Layout.nested_imports entries, allNested_nil⟩

/-- The section of the statements, which is missing if there are none. -/
theorem allNested_statementSection (m : Module) (p : Place) :
    AllNested table (m.statementSection p) := by
  rw [statementSection]
  split
  · exact allNested_nil
  · exact allNested_cons.mpr
      ⟨Layout.nested_block p (Statement.allNested_layouts _ m.statements), allNested_nil⟩

/-- The layout of a module is nested. -/
theorem nested_layout (m : Module) (entries : ImportTable) (dialect : Dialect)
    (links : List String) : Nested table (m.layout entries dialect links) := by
  refine Nested.append (.separated (.cons rfl (.cons rfl .nil)) ?_) (.cons rfl .nil)
  intro ls hls
  rw [sections, List.mem_append, List.mem_append, List.mem_cons] at hls
  rcases hls with ((rfl | himport) | hdefinition) | hstatement
  · exact Layout.nested_banner links
  · exact allNested_importSection entries ls himport
  · rcases List.mem_filterMap.mp hdefinition with ⟨d, -, hd⟩
    exact Definition.nested_layout? _ hd
  · exact allNested_statementSection m _ ls hstatement

/-- A reader gets to the end of a generated file: it ends in code, with every bracket
closed by its counterpart and no string going over the end of a line. -/
theorem scan_generate (m : Module) (options : Options) {text : String}
    (h : m.generate options = .ok text) :
    Reader.start.scan text.toList = some Reader.start := by
  rw [generate] at h
  obtain ⟨c, -, hrender⟩ := exists_of_bind_eq_ok h
  have htext : text.toList = (m.layout (.ofCensus c) options.dialect options.links).flatMap
      fun l => (l.text (.ofCensus c)).toList := by
    rw [eq_join_of_spellAll hrender, String.toList_join, List.flatMap_map]
  rw [htext]
  exact nested_layout m (.ofCensus c) options.dialect options.links []

/-- A string, a label and a link that hold quotes, brackets and the ends of comments. -/
theorem scan_generate_hostile :
    let m : Module := ⟨[], [.switch (.string "\"*/ ]\n") [⟨"(\"", []⟩]]⟩
    ∃ text, m.generate ⟨.javaScript, ["*/ ["], .reject⟩ = .ok text ∧
      Reader.start.scan text.toList = some Reader.start := by
  intro m
  have h : ∃ text, m.generate ⟨.javaScript, ["*/ ["], .reject⟩ = .ok text := ⟨_, rfl⟩
  rcases h with ⟨text, htext⟩
  exact ⟨text, htext, scan_generate m _ htext⟩

end Module

end EcmaWriter
