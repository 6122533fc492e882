import EcmaWriter.Proofs.Census.Mentions
import EcmaWriter.Proofs.Scoping.Alignment

/-!
# EcmaWriter - Census and layout agree on scopes

A reference is resolved by the census, in the scope where the census meets it.  A built-in
value is qualified by the layout, if a name of the module hides it where it is written.  Both
find the same names in the same places, so that a built-in value is qualified exactly where
a name that the census sees there hides it.

Main results:

- Definition `Module.writings`: everything that a dialect writes of a module, each at its
  place.
- Theorem `Module.references_layout`: the references of a file are those of its writings.
- Theorem `Module.forall₂_terms`: the writings of a module and the occurrences that a
  dialect writes agree.
- Theorem `Module.scopes_agree`: built-in values are qualified where the census sees a name
  that hides them.
-/

namespace EcmaWriter

open Lexeme (references)

/-! ## Resolving -/

/-- The reference that a mention asks to be resolved, with the scope for that. -/
def Mention.reference? : Mention → Option (Scope × Identifier)
  | .reference s n => some (s, n)
  | _ => none

/-- The reference that a node is, with the scope in which it stands. -/
def Occurrence.reference? : Occurrence → Option (Scope × Identifier)
  | ⟨s, .expr (.reference n)⟩ => some (s, n)
  | _ => none

/-- What a node mentions by itself has at most one reference. -/
theorem Occurrence.filterMap_reference?_own (o : Occurrence) :
    o.own.filterMap Mention.reference? = o.reference?.toList := by
  rcases o with ⟨s, node⟩
  rcases node with (a | f | b) | ⟨bindings, body⟩ | statement | e | t
  · rfl
  · rfl
  · rfl
  · rfl
  · cases statement <;> rfl
  · cases e <;> rfl
  · cases t <;> rfl

/-- The census resolves a reference in the scope in which it stands. -/
theorem Module.filterMap_reference?_mentions (m : Module) :
    m.mentions.filterMap Mention.reference? = m.occurrences.filterMap Occurrence.reference? := by
  rw [Module.filterMap_mentions Mention.reference? (fun _ => rfl)]
  exact (List.flatMap_congr fun o _ => Occurrence.filterMap_reference?_own o).trans
    (List.filterMap_eq_flatMap_toList _ _).symm

/-! ## Names -/

/-- Reserved words are no names. -/
theorem Identifier.text_ne_of_mem_reservedWords (n : Identifier) {word : String}
    (h : word ∈ reservedWords) : n.text ≠ word := by
  intro htext
  have hbare := n.isBare
  rw [isBareName, Bool.and_eq_true, Bool.not_eq_true', htext, isReservedWord] at hbare
  exact absurd (List.contains_iff_mem.mpr h) (Bool.eq_false_iff.mp hbare.2)

/-! ## Modules -/

namespace Module

/-- What a module is made of, where it is written. -/
def writtenParts (m : Module) (dialect : Dialect) : List Writing :=
  m.definitions.map (fun d => ⟨m.place dialect, false, .definition d⟩)
    ++ [⟨m.place dialect, false, .block [] m.statements⟩]

/-- Everything that a dialect writes of a module, in the order in which it is written. -/
def writings (m : Module) (dialect : Dialect) : List Writing :=
  (m.writtenParts dialect).flatMap Writing.all

/-- What is written of a module by itself is among its writings. -/
theorem mem_writings_of_mem {m : Module} {dialect : Dialect} {w : Writing}
    (hw : w ∈ m.writtenParts dialect) : w ∈ m.writings dialect :=
  List.mem_flatMap.mpr ⟨w, hw, w.mem_all_self⟩

/-- So is everything in them. -/
theorem all_subset_writings {m : Module} {dialect : Dialect} {w : Writing}
    (hw : w ∈ m.writings dialect) : w.all ⊆ m.writings dialect := by
  rcases List.mem_flatMap.mp hw with ⟨root, hroot, hwroot⟩
  intro q hq
  exact List.mem_flatMap.mpr ⟨root, hroot, Writing.all_subset hwroot hq⟩

/-- Parts of a writing are writings. -/
theorem mem_writings_of_mem_parts {m : Module} {dialect : Dialect} {w q : Writing}
    (hw : w ∈ m.writings dialect) (hq : q ∈ w.parts) : q ∈ m.writings dialect :=
  all_subset_writings hw (Writing.mem_all_of_mem_parts hq)

/-- All of a module is written in one dialect. -/
theorem dialect_of_mem_writings {m : Module} {dialect : Dialect} {w : Writing}
    (hw : w ∈ m.writings dialect) : w.place.dialect = dialect := by
  rcases List.mem_flatMap.mp hw with ⟨root, hroot, hwroot⟩
  rw [Writing.dialect_of_mem_all hwroot]
  rcases List.mem_append.mp hroot with hroot | hroot
  · rcases List.mem_map.mp hroot with ⟨d, -, rfl⟩
    rfl
  · rw [List.mem_singleton.mp hroot]
    rfl

/-- The occurrences that a dialect writes. -/
def written (m : Module) (dialect : Dialect) : List Occurrence :=
  m.parts.flatMap (Occurrence.written dialect)

/-- With types every occurrence is written. -/
theorem written_typeScript (m : Module) : m.written .typeScript = m.occurrences :=
  List.flatMap_congr fun o _ => Occurrence.written_typeScript o

/-- What is written are occurrences of the module. -/
theorem written_subset (m : Module) (dialect : Dialect) :
    m.written dialect ⊆ m.occurrences := by
  intro q hq
  rcases List.mem_flatMap.mp hq with ⟨o, ho, hqo⟩
  exact List.mem_flatMap.mpr ⟨o, ho, Occurrence.written_subset dialect o hqo⟩

/-- The imports refer to nothing before them. -/
theorem references_importSection (table : ImportTable) :
    (importSection table).flatMap references = [] := by
  have hline : ∀ path n, references (Layout.importLine path n) = [] := by
    intro path n
    simp [Layout.importLine, Layout.name]
  rw [importSection]
  split
  · rfl
  · rw [List.flatMap_singleton, Layout.imports, Lexeme.references_separated rfl,
      List.flatMap_map]
    simp [hline]

/-- The statements of a module are a block. -/
theorem references_statementSection (m : Module) (dialect : Dialect) :
    (m.statementSection (m.place dialect)).flatMap references =
      references (Writing.lexemes ⟨m.place dialect, false, .block [] m.statements⟩) := by
  rw [statementSection, Writing.lexemes, Layout.references_block]
  split
  · simp_all [Statement.layouts]
  · rw [List.flatMap_singleton, Layout.references_block]

/-- Definitions that are not written have no references. -/
theorem references_definitions (p : Place) (ds : List Definition) :
    (ds.filterMap (Definition.layout? p)).flatMap references =
      ds.flatMap fun d => references (Writing.lexemes ⟨p, false, .definition d⟩) := by
  induction ds with
  | nil => rfl
  | cons d ds ih =>
      rw [List.filterMap_cons, List.flatMap_cons, ← ih, Writing.lexemes]
      cases d.layout? p <;> rfl

/-- The references of a file are those of its writings. The import lines have none. -/
theorem references_layout (m : Module) (table : ImportTable) (dialect : Dialect)
    (links : List String) :
    references (m.layout table dialect links) = (m.writings dialect).flatMap Writing.own := by
  have hparts : (m.writings dialect).flatMap Writing.own =
      (m.writtenParts dialect).flatMap fun w => references w.lexemes := by
    rw [writings, List.flatMap_assoc]
    exact List.flatMap_congr fun w _ => (Writing.references_lexemes w).symm
  rw [hparts, layout, Lexeme.references_append, Lexeme.references_separated rfl, sections,
    List.flatMap_append, List.flatMap_append, List.flatMap_cons, references_importSection,
    references_definitions, references_statementSection, writtenParts, List.flatMap_append,
    List.flatMap_map, List.flatMap_singleton]
  simp [Layout.banner]

/-- What a module is made of is aligned with what is written of it. -/
theorem aligned_writtenParts (m : Module) (dialect : Dialect) :
    List.Forall₂ (Writing.Aligned dialect) (m.writtenParts dialect) m.parts := by
  have hplace : false = false → (m.place dialect).values.SameNames m.scope := fun _ _ => rfl
  rw [writtenParts, parts]
  refine List.rel_append ?_ (.cons (Writing.aligned_block (p := m.place dialect) hplace [] _)
    .nil)
  rw [List.forall₂_map_left_iff, List.forall₂_map_right_iff, List.forall₂_same]
  exact fun d _ => .node (by simp) rfl ⟨rfl, hplace⟩

/-- The expressions and types that a dialect writes, in the layout and in the census: one
with the other they are the same, and see the same values outside heads of functions. -/
theorem forall₂_terms (m : Module) (dialect : Dialect) :
    List.Forall₂ Writing.Agrees ((m.writings dialect).filter fun w => w.node.isTerm)
      ((m.written dialect).filter fun o => o.node.isTerm) := by
  have hwritten : ∀ o ∈ m.parts, o.isWritten dialect = true := by
    intro o ho
    rcases List.mem_append.mp ho with ho | ho
    · rcases List.mem_map.mp ho with ⟨d, -, rfl⟩
      rfl
    · rw [List.mem_singleton.mp ho]
      rfl
  rw [writings, written, List.filter_flatMap, List.filter_flatMap]
  exact forall₂_flatMap (m.aligned_writtenParts dialect) fun w o ho h => h.terms (hwritten o ho)

/-- The layout sees the values that the census sees: a reference is resolved where it
stands, and outside heads of functions what is written where it stands sees the same values.
So a built-in value is qualified exactly if a value that is visible there has its name.
What is visible comes from the module and the constructs around a node alone, and no name
takes the place of what a qualified or an undefined value is written with. -/
theorem scopes_agree (m : Module) :
    m.mentions.filterMap Mention.reference? = m.occurrences.filterMap Occurrence.reference? ∧
      (∀ dialect,
        m.written dialect ⊆ m.occurrences ∧
        (∀ table links,
          references (m.layout table dialect links) =
            (m.writings dialect).flatMap Writing.own) ∧
        List.Forall₂
          (fun w o => w.node = o.node ∧
            (w.inHead = false →
              (∀ text, w.place.values.contains text = o.scope.contains text) ∧
              ∀ g table, w.node = .expr (.global g) →
                (g ∈ o.scope.names → spellAll table w.lexemes = .ok ("globalThis." ++ g.text)) ∧
                (g ∉ o.scope.names → spellAll table w.lexemes = .ok g.text)))
          ((m.writings dialect).filter fun w => w.node.isTerm)
          ((m.written dialect).filter fun o => o.node.isTerm)) ∧
      (∀ o ∈ m.parts, o.scope = .root m.valueNames) ∧
      (∀ o ∈ m.occurrences, ∀ q ∈ o.parts,
        q.scope = o.scope ∨ q.scope = o.scope.push o.node.binds) ∧
      ∀ n : Identifier, n.text ≠ "globalThis" ∧ n.text ≠ "undefined" := by
  refine ⟨m.filterMap_reference?_mentions, ?_, ?_, ?_, ?_⟩
  · intro dialect
    refine ⟨m.written_subset dialect, fun table links => m.references_layout table dialect links,
      (m.forall₂_terms dialect).imp ?_⟩
    intro w o h
    refine ⟨h.node, ?_⟩
    intro hhead
    refine ⟨h.values hhead, ?_⟩
    intro g table hg
    have hspell : spellAll table w.lexemes =
        .ok (Lexeme.qualified (w.place.values.contains g.text) g) := by
      rcases w with ⟨p, inHead, node⟩
      have hnode : node = .expr (.global g) := hg
      subst hnode
      exact spellAll_singleton rfl
    have hvisible : w.place.values.contains g.text = true ↔ g ∈ o.scope.names := by
      rw [h.values hhead g.text, Scope.contains_text_iff]
    constructor
    · intro hmem
      rw [hspell, hvisible.mpr hmem]
      rfl
    · intro hmem
      rw [hspell, Bool.eq_false_iff.mpr (hvisible.not.mpr hmem)]
      rfl
  · intro o ho
    rcases List.mem_append.mp ho with ho | ho
    · rcases List.mem_map.mp ho with ⟨d, -, rfl⟩
      rfl
    · rw [List.mem_singleton.mp ho]
      rfl
  · intro o _ q hq
    exact Occurrence.scope_of_mem_parts hq
  · intro n
    exact ⟨n.text_ne_of_mem_reservedWords (by decide), n.text_ne_of_mem_reservedWords (by decide)⟩

end Module

end EcmaWriter
