import EcmaWriter.Generation
import EcmaWriter.Proofs.Census.Stock
import EcmaWriter.Proofs.Comment.Closing
import EcmaWriter.Proofs.Lexeme.Spelling
import EcmaWriter.Proofs.Scoping.Agreement

/-!
# EcmaWriter - Census and layout agree on imports

The census decides which modules are imported and the layout which namespaces are
looked up, each in a recursion of its own.  Both go over the same references: JavaScript
leaves types out, and what is inside them with them.

Main results:

- Definition `Module.references`: the paths that a module refers to, in document
  order.
- Theorem `Module.census_paths`: the census has the references without repeats.
- Theorem `Module.paths_layout_typeScript`: TypeScript looks up the references.
- Definition `Module.importTexts`: the text of the imports under given names.
- Theorem `Module.exists_generate_eq`: where they stand in the text that is generated.
- Theorem `Module.imports_agree`: nothing is looked up that is not imported, nothing
  is imported that TypeScript does not look up, and no lookup fails.
-/

namespace EcmaWriter

open Lexeme (paths)

/-! ## References -/

/-- The path that a node refers to by itself. -/
def Node.path? : Node → Option String
  | .expr (.imported path _) => some path
  | .type (.imported path _ _) => some path
  | _ => none

/-- Only expressions and types refer to paths. -/
theorem Node.path?_of_not_isTerm {node : Node} (h : node.isTerm = false) : node.path? = none := by
  cases node with
  | expr e => exact nomatch h
  | type t => exact nomatch h
  | _ => rfl

theorem filterMap_path?_filter_isTerm (nodes : List Node) :
    (nodes.filter Node.isTerm).filterMap Node.path? = nodes.filterMap Node.path? := by
  rw [List.filterMap_filter]
  congr 1
  funext node
  cases h : node.isTerm with
  | false => exact (Node.path?_of_not_isTerm h).symm
  | true => rfl

/-- The namespace of a path is looked up where it is referred to. -/
theorem Writing.filterMap_path?_own (w : Writing) :
    w.own.filterMap Lexeme.path? = w.node.path?.toList := by
  rcases w with ⟨p, inHead, node⟩
  cases node with
  | expr e => cases e <;> rfl
  | type t => cases t <;> rfl
  | _ => rfl

/-- A path is mentioned where it is referred to. -/
theorem Occurrence.filterMap_path?_own (o : Occurrence) :
    o.own.filterMap Mention.path? = o.node.path?.toList := by
  rcases o with ⟨s, node⟩
  rcases node with (a | f | b) | ⟨bindings, body⟩ | statement | e | t
  · rfl
  · rfl
  · rfl
  · rfl
  · cases statement <;> rfl
  · cases e <;> rfl
  · cases t <;> rfl

namespace Module

/-- The paths that a module refers to, in document order. -/
def references (m : Module) : List String :=
  m.occurrences.filterMap fun o => o.node.path?

/-- The census has the references without repeats. -/
theorem census_paths {policy : UnresolvedPolicy} {m : Module} {c : Census}
    (h : m.census policy = .ok c) : c.paths = OrderedSet.ofList m.references := by
  rcases census_eq_ok_iff.mp h with ⟨-, rfl⟩
  have hmentions : m.mentions.filterMap Mention.path? = m.references := by
    rw [filterMap_mentions Mention.path? (fun _ => rfl)]
    exact (List.flatMap_congr fun o _ => Occurrence.filterMap_path?_own o).trans
      (List.filterMap_eq_flatMap_toList _ _).symm
  rw [← hmentions]
  rfl

/-! ## Lookups -/

/-- What a file looks up are the paths of the occurrences that are written. The import lines
look up nothing. -/
theorem paths_layout (m : Module) (table : ImportTable) (dialect : Dialect)
    (links : List String) :
    paths (m.layout table dialect links) =
      (m.written dialect).filterMap fun o => o.node.path? := by
  have hwritings : paths (m.layout table dialect links) =
      ((m.writings dialect).map Writing.node).filterMap Node.path? := by
    rw [Lexeme.paths_eq, references_layout, List.filterMap_flatMap,
      List.flatMap_congr fun w _ => w.filterMap_path?_own, ← List.filterMap_eq_flatMap_toList,
      List.filterMap_map]
    rfl
  have hnodes : ((m.writings dialect).map Writing.node).filter Node.isTerm =
      ((m.written dialect).map Occurrence.node).filter Node.isTerm := by
    have hterms := (m.forall₂_terms dialect).imp fun _ _ h => h.node
    rw [List.filter_map, List.filter_map, ← List.forall₂_eq_eq_eq, List.forall₂_map_left_iff,
      List.forall₂_map_right_iff]
    exact hterms
  rw [hwritings, ← filterMap_path?_filter_isTerm, hnodes, filterMap_path?_filter_isTerm,
    List.filterMap_map]
  rfl

/-- TypeScript looks up the references. -/
theorem paths_layout_typeScript (m : Module) (table : ImportTable) (links : List String) :
    paths (m.layout table .typeScript links) = m.references := by
  rw [paths_layout, written_typeScript, references]

/-- No dialect looks up anything else. -/
theorem paths_layout_subset (m : Module) (table : ImportTable) (dialect : Dialect)
    (links : List String) : paths (m.layout table dialect links) ⊆ m.references := by
  intro path hpath
  rw [paths_layout] at hpath
  rcases List.mem_filterMap.mp hpath with ⟨o, ho, hopath⟩
  exact List.mem_filterMap.mpr ⟨o, m.written_subset dialect ho, hopath⟩

/-! ## Generating -/

/-- Every path of a census has a namespace. -/
theorem exists_find?_ofCensus {c : Census} {path : String} (h : path ∈ c.paths.toList) :
    ∃ n, (ImportTable.ofCensus c).find? path = some n := by
  rw [← ImportTable.paths_ofCensus, List.mem_map] at h
  rcases h with ⟨entry, hentry, rfl⟩
  rw [← Option.isSome_iff_exists, ImportTable.find?, List.lookup_isSome_iff]
  exact ⟨entry, hentry, beq_self_eq_true _⟩

/-- Everything that is written of a module can be spelled if its census succeeds. -/
theorem exists_spellAll_lexemes {policy : UnresolvedPolicy} {m : Module} {c : Census}
    {dialect : Dialect} {w : Writing} (h : m.census policy = .ok c) (hw : w ∈ m.writings dialect) :
    ∃ text, spellAll (.ofCensus c) w.lexemes = .ok text := by
  refine ⟨_, spellAll_eq_ok ?_⟩
  intro path hpath
  have hlayout : path ∈ paths (m.layout (.ofCensus c) dialect []) := by
    rw [Lexeme.paths_eq, Writing.references_lexemes, List.mem_filterMap] at hpath
    rcases hpath with ⟨l, hl, hlpath⟩
    rcases List.mem_flatMap.mp hl with ⟨q, hq, hlq⟩
    rw [Lexeme.paths_eq, references_layout, List.mem_filterMap]
    exact ⟨l, List.mem_flatMap.mpr ⟨q, all_subset_writings hw hq, hlq⟩, hlpath⟩
  refine exists_find?_ofCensus ?_
  rw [census_paths h, OrderedSet.mem_toList_ofList]
  exact paths_layout_subset m _ _ _ hlayout

/-- A module is generated if its census succeeds. -/
theorem generate_eq_ok {m : Module} {options : Options} {c : Census}
    (h : m.census options.unresolved = .ok c) : ∃ text, m.generate options = .ok text := by
  have hfound : ∀ path ∈ paths (m.layout (.ofCensus c) options.dialect options.links),
      ∃ n, (ImportTable.ofCensus c).find? path = some n := by
    intro path hpath
    refine exists_find?_ofCensus ?_
    rw [census_paths h, OrderedSet.mem_toList_ofList]
    exact paths_layout_subset m _ _ _ hpath
  rw [generate, h]
  exact ⟨_, spellAll_eq_ok hfound⟩

/-- No fault of the census is about a path. -/
theorem census_ne_unknownModule (m : Module) (policy : UnresolvedPolicy) (path : String) :
    m.census policy ≠ .error (.unknownModule path) := by
  intro h
  rw [census_eq_error_iff] at h
  rcases List.mem_filterMap.mp (List.mem_of_mem_head? h) with ⟨x, -, hx⟩
  cases x with
  | distinct declared => simp [Mention.fault?] at hx
  | name n => simp [Mention.fault?] at hx
  | path p => simp [Mention.fault?] at hx
  | reference scope n =>
      by_cases hcontains : scope.contains n.text = true
      · simp [Mention.fault?, hcontains] at hx
      · cases policy <;> simp [Mention.fault?, hcontains] at hx

/-- The fault of an unknown module never comes up. -/
theorem generate_ne_unknownModule (m : Module) (options : Options) (path : String) :
    m.generate options ≠ .error (.unknownModule path) := by
  cases h : m.census options.unresolved with
  | ok c =>
      rcases generate_eq_ok h with ⟨text, htext⟩
      rw [htext]
      simp
  | error f =>
      intro hgenerate
      rw [generate, h] at hgenerate
      have hf : f = .unknownModule path := Except.error.inj hgenerate
      exact census_ne_unknownModule m options.unresolved path (hf ▸ h)

/-! ## The text of the imports -/

/-- The statement that imports a module under a name. -/
def importStatement (path : String) (n : Identifier) : String :=
  "import * as " ++ n.text ++ " from " ++ stringLiteral path ++ ";"

/-- The section of the imports under given names, unless a module refers to no path: one line
for each path, in the order of the first references. -/
def importTexts (m : Module) (names : List Identifier) : List String :=
  if m.references = [] then []
  else ["\n".intercalate
    (List.zipWith importStatement (OrderedSet.ofList m.references).toList names)]

theorem spellAll_importLine (table : ImportTable) (path : String) (n : Identifier) :
    spellAll table (Layout.importLine path n) = .ok (importStatement path n) := by
  have hjoin : String.join ["import", " ", "*", " ", "as", " ", n.text, " ", "from", " ",
      stringLiteral path, ";"] = importStatement path n := by
    rw [← String.toList_inj, String.toList_join]
    simp [importStatement]
  rw [← hjoin]
  rfl

/-- Every path of a census is found under the name beside it. -/
theorem map_find?_ofCensus (c : Census) :
    c.paths.toList.map (ImportTable.ofCensus c).find? =
      ((ImportTable.ofCensus c).entries.map Prod.snd).map some := by
  have hpaths := ImportTable.paths_ofCensus c
  have hnodup := c.paths.nodup
  rw [← hpaths] at hnodup ⊢
  rw [List.map_map, List.map_map]
  refine List.map_congr_left ?_
  rintro ⟨path, n⟩ hentry
  obtain ⟨before, after, hentries⟩ := List.append_of_mem hentry
  refine List.lookup_eq_some_iff.mpr ⟨before, after, hentries, ?_⟩
  rintro ⟨other, k⟩ hother
  rw [hentries, List.map_append, List.nodup_append] at hnodup
  have hne := hnodup.2.2 other (List.mem_map_of_mem hother) path (by simp)
  simpa using hne.symm

/-- The section of the imports is spelled as its lines. -/
theorem map_spellAll_importSection {policy : UnresolvedPolicy} {m : Module} {c : Census}
    (h : m.census policy = .ok c) (table : ImportTable) :
    (importSection (.ofCensus c)).map (spellAll table) =
      (m.importTexts ((ImportTable.ofCensus c).entries.map Prod.snd)).map .ok := by
  have hpaths := ImportTable.paths_ofCensus c
  rw [census_paths h] at hpaths
  have hempty : (ImportTable.ofCensus c).entries.isEmpty = true ↔ m.references = [] := by
    rw [List.isEmpty_iff, ← List.map_eq_nil_iff, hpaths, List.eq_nil_iff_forall_not_mem,
      List.eq_nil_iff_forall_not_mem]
    simp
  rw [importSection, importTexts]
  by_cases hreferences : m.references = []
  · rw [if_pos (hempty.mpr hreferences), if_pos hreferences]
    rfl
  · have hlines : spellAll table (Layout.imports (.ofCensus c)) = .ok ("\n".intercalate
        (List.zipWith importStatement (OrderedSet.ofList m.references).toList
          ((ImportTable.ofCensus c).entries.map Prod.snd))) := by
      refine (spellAll_separated_eq_ok_iff (spellAll_singleton rfl)).mpr ⟨_, ?_, rfl⟩
      rw [← hpaths, List.zipWith_map, List.zipWith_self, List.map_map, List.map_map]
      exact List.map_congr_left fun entry _ => spellAll_importLine table entry.1 entry.2
    rw [if_neg (hempty.not.mpr hreferences), if_neg hreferences, List.map_singleton, hlines]
    rfl

/-- The text of a module whose census succeeds: the banner, a line for each import, and what is
written of the definitions and the statements. -/
theorem exists_generate_eq {m : Module} {options : Options} {c : Census}
    (h : m.census options.unresolved = .ok c) :
    ∃ (names : List Identifier) (sections : List String),
      (OrderedSet.ofList m.references).toList.map (ImportTable.ofCensus c).find? =
          names.map some ∧
        (m.definitions.filterMap (Definition.layout? (m.place options.dialect))
            ++ m.statementSection (m.place options.dialect)).map (spellAll (.ofCensus c)) =
          sections.map .ok ∧
        m.generate options = .ok ("\n\n".intercalate
          (("/* eslint-disable */\n/*" ++ bannerBody options.links ++ "*/")
            :: (m.importTexts names ++ sections)) ++ "\n") := by
  obtain ⟨text, htext⟩ := generate_eq_ok h
  have hfile : spellAll (.ofCensus c) (m.layout (.ofCensus c) options.dialect options.links) =
      .ok text := by
    rw [generate, h] at htext
    exact htext
  obtain ⟨body, last, hbody, hlast, rfl⟩ := spellAll_append_eq_ok_iff.mp hfile
  obtain rfl := Except.ok.inj (hlast.symm.trans (spellAll_singleton rfl))
  have hgap : spellAll (.ofCensus c) [.newline, .newline] = .ok "\n\n" := rfl
  obtain ⟨texts, htexts, rfl⟩ := (spellAll_separated_eq_ok_iff hgap).mp hbody
  rw [Module.sections, List.append_assoc, List.cons_append] at htexts
  obtain ⟨banner, rest, rfl, hbanner, hrest⟩ := List.map_eq_cons_iff.mp htexts.symm
  have hcredits : banner = "/* eslint-disable */\n/*" ++ bannerBody options.links ++ "*/" := by
    rw [spellAll_banner] at hbanner
    rw [Except.ok.inj hbanner, ← String.toList_inj]
    simp [commentEnd]
  subst hcredits
  rw [List.map_append, map_spellAll_importSection h] at hrest
  obtain ⟨imports, sections, rfl, himports, hsections⟩ := List.map_eq_append_iff.mp hrest
  obtain rfl := (List.map_inj_right fun _ _ => Except.ok.inj).mp himports
  refine ⟨_, sections, ?_, hsections.symm, htext⟩
  rw [← census_paths h]
  exact map_find?_ofCensus c

/-- Rendering fails at the first path that is looked up and has no namespace. -/
theorem render_eq_unknownModule_iff {m : Module} {table : ImportTable} {dialect : Dialect}
    {links : List String} {path : String} :
    m.render table dialect links = .error (.unknownModule path) ↔
      (paths (m.layout table dialect links)).find? (fun path => (table.find? path).isNone) =
        some path := by
  rw [render, spellAll_eq_error_iff]
  constructor
  · rintro ⟨own, hown, heq⟩
    rw [Fault.unknownModule.inj heq]
    exact hown
  · intro hpath
    exact ⟨path, hpath, rfl⟩

/-- Census and layout agree.  What is looked up is what rendering with any namespaces needs, in
the order in which it is written: TypeScript looks up the imports in their order and all of
them, JavaScript only imports.  The text that is generated has after the banner one line for each
path referred to, under the name by which the path is looked up, and then what is written of the
definitions and the statements.  Generating a module never finds a path without an import. -/
theorem imports_agree (m : Module) :
    (∀ table dialect links path,
        m.render table dialect links = .error (.unknownModule path) ↔
          (paths (m.layout table dialect links)).find? (fun path => (table.find? path).isNone) =
            some path) ∧
      (∀ policy c, m.census policy = .ok c →
        (∀ table links,
          OrderedSet.ofList (paths (m.layout table .typeScript links)) = c.paths) ∧
        (∀ table links, paths (m.layout table .javaScript links) ⊆ c.paths.toList) ∧
        ∀ entry ∈ (ImportTable.ofCensus c).entries, ∀ links,
          entry.1 ∈ paths (m.layout (.ofCensus c) .typeScript links)) ∧
      (∀ options c, m.census options.unresolved = .ok c →
        ∃ (names : List Identifier) (sections : List String),
          (OrderedSet.ofList m.references).toList.map (ImportTable.ofCensus c).find? =
              names.map some ∧
            (m.definitions.filterMap (Definition.layout? (m.place options.dialect))
                ++ m.statementSection (m.place options.dialect)).map (spellAll (.ofCensus c)) =
              sections.map .ok ∧
            m.generate options = .ok ("\n\n".intercalate
              (("/* eslint-disable */\n/*" ++ bannerBody options.links ++ "*/")
                :: (m.importTexts names ++ sections)) ++ "\n")) ∧
      ∀ options path, m.generate options ≠ .error (.unknownModule path) := by
  refine ⟨fun _ _ _ _ => render_eq_unknownModule_iff, ?_,
    fun _ _ h => exists_generate_eq h, generate_ne_unknownModule m⟩
  intro policy c h
  have hpaths := census_paths h
  refine ⟨?_, ?_, ?_⟩
  · intro table links
    rw [paths_layout_typeScript, hpaths]
  · intro table links path hpath
    rw [hpaths, OrderedSet.mem_toList_ofList]
    exact paths_layout_subset m table .javaScript links hpath
  · intro entry hentry links
    have hmem : entry.1 ∈ (ImportTable.ofCensus c).entries.map Prod.fst :=
      List.mem_map_of_mem hentry
    rw [ImportTable.paths_ofCensus, hpaths, OrderedSet.mem_toList_ofList] at hmem
    rwa [paths_layout_typeScript]

/-- A module whose only statement calls up an export of another one imports it. -/
theorem imports_agree_single :
    let m : Module := ⟨[], [.evaluate (.imported "a.js" "x")]⟩
    ∃ c, m.census .reject = .ok c ∧
      OrderedSet.ofList (paths (m.layout (.ofCensus c) .typeScript [])) = c.paths ∧
      m.generate .standard = .ok (
        "/* eslint-disable */\n/* generated by gen-js. Do not edit! */\n\n" ++
          "import * as a from \"a.js\";\n\n\x7b\n  a.x;\n\x7d\n") := by
  intro m
  obtain ⟨-, hcensus, htexts, -⟩ := imports_agree m
  obtain ⟨names, sections, hnames, hsections, htext⟩ := htexts .standard _ rfl
  have hname : [⟨"a", rfl⟩] = names := by
    refine (List.map_inj_right fun _ _ => Option.some.inj).mp (Eq.trans ?_ hnames)
    decide +kernel
  obtain ⟨block, rest, rfl, hblock, hrest⟩ := List.map_eq_cons_iff.mp hsections.symm
  obtain rfl := List.map_eq_nil_iff.mp hrest
  have hsection : (Except.ok block : Except Fault String).toOption =
      some "\x7b\n  a.x;\n\x7d" := by
    rw [hblock]
    decide +kernel
  obtain rfl := Option.some.inj hsection
  subst hname
  refine ⟨_, rfl, (hcensus .reject _ rfl).1 _ [], htext.trans ?_⟩
  decide +kernel

end Module

end EcmaWriter
