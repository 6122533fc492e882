import EcmaWriter.Proofs.Layout.Assembly

/-!
# EcmaWriter - Where nodes stand in a file

A file is put together from fragments, and so is each of its parts.  Going from a part to its
own parts again and again, each node that is written has a place in the file: some text comes
before it and some after it.  Nodes that are written alike have places of their own.

Main results:

- Definition `Module.Stands`: the nodes of a file, each with all that comes after it.
- Theorems `Module.Stands.exists_layout_eq`, `Module.Stands.exists_generate_eq`: what stands in
  a file is in its text, before what comes after it.
- Theorem `Module.Stands.mem_writings`: only what is written of a module stands in its file.
-/

namespace EcmaWriter

open Lexeme (newline)
open Fragment

/-- A node with all that comes after it in a file. -/
structure Position where
  writing : Writing
  rest : List Lexeme

namespace Module

/-- The fragments of a file: banner, imports, definitions and statements, as far as there are
any. -/
def fragments (m : Module) (table : ImportTable) (dialect : Dialect) (links : List String) :
    List Fragment :=
  separated [newline, newline]
      ([own (Layout.banner links)] :: (importSection table).map (fun ls => [own ls])
        ++ (m.definitions.filter fun d => (d.layout? (m.place dialect)).isSome).map
          (fun d => [.part ⟨m.place dialect, false, .definition d⟩])
        ++ if m.statements.isEmpty then []
          else [[.part ⟨m.place dialect, false, .block [] m.statements⟩]])
    ++ [own [newline]]

variable {m : Module} {table : ImportTable} {dialect : Dialect} {links : List String}

theorem texts_fragments :
    texts (m.fragments table dialect links) = m.layout table dialect links := by
  have himports : (importSection table).map (texts ∘ fun ls => [own ls]) =
      importSection table := by
    rw [importSection]
    split <;> simp
  have hdefinitions : (m.definitions.filter fun d => (d.layout? (m.place dialect)).isSome).map
      (texts ∘ fun d => [.part ⟨m.place dialect, false, .definition d⟩]) =
        m.definitions.filterMap (Definition.layout? (m.place dialect)) := by
    induction m.definitions with
    | nil => rfl
    | cons d ds ih =>
        rw [List.filter_cons, List.filterMap_cons]
        cases hlayout : d.layout? (m.place dialect) with
        | none => exact ih
        | some ls =>
            rw [Option.isSome_some, if_pos rfl, List.map_cons, ih]
            simp [Writing.lexemes, hlayout]
  have hstatements : (if m.statements.isEmpty then []
      else [[Fragment.part ⟨m.place dialect, false, .block [] m.statements⟩]]).map texts =
        m.statementSection (m.place dialect) := by
    rw [statementSection]
    split <;> simp [Writing.lexemes]
  rw [fragments, layout, texts_append, texts_separated, sections, List.map_append,
    List.map_append, List.map_cons, List.map_map, List.map_map, himports, hdefinitions,
    hstatements]
  simp

/-- The parts of a file: the definitions that are written, and the statements if there are
any. -/
theorem writings_fragments :
    Fragment.writings (m.fragments table dialect links) =
      (m.definitions.filter fun d => (d.layout? (m.place dialect)).isSome).map
          (fun d => ⟨m.place dialect, false, .definition d⟩)
        ++ if m.statements.isEmpty then []
          else [⟨m.place dialect, false, .block [] m.statements⟩] := by
  have himports :
      ((importSection table).map fun ls => [own ls]).flatMap Fragment.writings = [] := by
    rw [List.flatMap_map]
    exact List.flatMap_eq_nil_iff.mpr fun ls _ => rfl
  have hdefinitions : ∀ ds : List Definition,
      (ds.map fun d => [Fragment.part ⟨m.place dialect, false, .definition d⟩]).flatMap
        Fragment.writings = ds.map fun d => ⟨m.place dialect, false, .definition d⟩ := by
    intro ds
    rw [List.flatMap_map, List.map_eq_flatMap]
    rfl
  rw [fragments, writings_append, writings_separated, List.flatMap_append, List.flatMap_append,
    List.flatMap_cons, himports, hdefinitions]
  split <;> simp

/-- The parts of a file are parts of its module. -/
theorem mem_writtenParts_of_fragments_eq {before after : List Fragment} {w : Writing}
    (h : m.fragments table dialect links = before ++ .part w :: after) :
    w ∈ m.writtenParts dialect := by
  have hmem : w ∈ Fragment.writings (m.fragments table dialect links) := by
    rw [h]
    exact List.mem_filterMap.mpr ⟨_, List.mem_append_right _ List.mem_cons_self, rfl⟩
  rw [writings_fragments, List.mem_append] at hmem
  refine List.mem_append.mpr (hmem.imp (fun hw => ?_) fun hw => ?_)
  · exact List.map_subset _ (List.filter_subset_self _) hw
  · split at hw
    · exact absurd hw List.not_mem_nil
    · exact hw

/-- Whether a node stands in a file. -/
inductive Stands (m : Module) (table : ImportTable) (dialect : Dialect) (links : List String) :
    Position → Prop
  | root {before after : List Fragment} {w : Writing}
    (h : m.fragments table dialect links = before ++ .part w :: after) :
    Stands m table dialect links ⟨w, texts after⟩
  | part {s : Position} {before after : List Fragment} {w : Writing}
    (hs : Stands m table dialect links s)
    (h : s.writing.fragments = before ++ .part w :: after) :
    Stands m table dialect links ⟨w, texts after ++ s.rest⟩

namespace Stands

variable {s : Position}

/-- What stands in a file is in its text, before all that comes after it. -/
theorem exists_layout_eq (h : m.Stands table dialect links s) :
    ∃ front, m.layout table dialect links = front ++ s.writing.lexemes ++ s.rest := by
  induction h with
  | @root before after w h =>
      refine ⟨texts before, ?_⟩
      rw [← texts_fragments, h, texts_append, texts_part, List.append_assoc]
  | @part s before after w hs h ih =>
      obtain ⟨front, hfront⟩ := ih
      refine ⟨front ++ texts before, ?_⟩
      rw [hfront, ← Writing.texts_fragments, h, texts_append, texts_part]
      simp only [List.append_assoc]

/-- What stands in a file is spelled in the text that is generated, before the spelling of all
that comes after it. -/
theorem exists_generate_eq {policy : UnresolvedPolicy} {c : Census}
    (h : m.Stands (.ofCensus c) dialect links s) (hcensus : m.census policy = .ok c) :
    ∃ before own after, m.generate ⟨dialect, links, policy⟩ = .ok (before ++ own ++ after) ∧
      spellAll (.ofCensus c) s.writing.lexemes = .ok own ∧
      spellAll (.ofCensus c) s.rest = .ok after := by
  obtain ⟨front, hlayout⟩ := h.exists_layout_eq
  obtain ⟨text, htext⟩ : ∃ text, m.generate ⟨dialect, links, policy⟩ = .ok text :=
    generate_eq_ok hcensus
  have hspelled : spellAll (.ofCensus c) (m.layout (.ofCensus c) dialect links) = .ok text := by
    rw [generate, hcensus] at htext
    exact htext
  rw [hlayout] at hspelled
  obtain ⟨start, after, hstart, hafter, rfl⟩ := spellAll_append_eq_ok_iff.mp hspelled
  obtain ⟨before, own, -, hown, rfl⟩ := spellAll_append_eq_ok_iff.mp hstart
  exact ⟨before, own, after, htext, hown, hafter⟩

/-- Only what is written of a module stands in its file. -/
theorem mem_writings (h : m.Stands table dialect links s) :
    s.writing ∈ m.writings dialect := by
  induction h with
  | @root before after w h =>
      exact mem_writings_of_mem (mem_writtenParts_of_fragments_eq h)
  | @part s before after w hs h ih =>
      refine mem_writings_of_mem_parts ih ?_
      rw [← Writing.writings_fragments, h]
      exact List.mem_filterMap.mpr ⟨_, List.mem_append_right _ List.mem_cons_self, rfl⟩

end Stands

end Module

end EcmaWriter
