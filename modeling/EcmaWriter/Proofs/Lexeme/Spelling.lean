import EcmaWriter.Lexeme
import EcmaWriter.Proofs.Except

/-!
# EcmaWriter - Spelling lists of lexemes

Only a path without a namespace keeps lexemes from being spelled.  Where every path
has one, the text of a list is the text of each lexeme, one after the other.

Main results:

- Definition `Lexeme.paths`: the paths whose namespaces a list of lexemes needs.
- Definition `Lexeme.characters`: the characters of a list of lexemes.
- Theorem `spellAll_eq_ok`: the text of a list whose paths have namespaces.
- Theorem `spellAll_eq_error_iff`: otherwise the first path without one is the fault.
- Theorem `spellAll_separated_eq_ok_iff`: the text of pieces with a separator between them.
-/

namespace EcmaWriter

/-! ## Paths -/

namespace Lexeme

/-- The paths whose namespaces lexemes need, in the order in which they stand. -/
def paths (ls : List Lexeme) : List String :=
  ls.filterMap path?

@[simp] theorem paths_cons (l : Lexeme) (ls : List Lexeme) :
    paths (l :: ls) = l.path?.toList ++ paths ls := by
  rw [paths, List.filterMap_cons]
  cases l.path? <;> rfl

/-! ## Texts -/

/-- The text of a lexeme, empty for a path without a namespace. -/
def text (table : ImportTable) (l : Lexeme) : String :=
  match l.spell table with
  | .ok text => text
  | .error _ => ""

/-- A lexeme is spelled if its path has a namespace. -/
theorem spell_eq_ok {table : ImportTable} {l : Lexeme}
    (h : ∀ path, l.path? = some path → ∃ n, table.find? path = some n) :
    l.spell table = .ok (l.text table) := by
  cases l with
  | importOf path =>
      rcases h path rfl with ⟨n, hn⟩
      simp [text, spell, hn]
  | _ => rfl

/-! ## Characters -/

/-- The characters of lexemes. -/
def characters (table : ImportTable) (ls : List Lexeme) : List Char :=
  ls.flatMap fun l => (l.text table).toList

@[simp] theorem characters_nil (table : ImportTable) : characters table [] = [] := rfl

@[simp] theorem characters_cons (table : ImportTable) (l : Lexeme) (ls : List Lexeme) :
    characters table (l :: ls) = (l.text table).toList ++ characters table ls := rfl

@[simp] theorem characters_append (table : ImportTable) (ls ms : List Lexeme) :
    characters table (ls ++ ms) = characters table ls ++ characters table ms :=
  List.flatMap_append

end Lexeme

/-- One lexeme is spelled as it is. -/
theorem spellAll_singleton {table : ImportTable} {l : Lexeme} {text : String}
    (h : l.spell table = .ok text) : spellAll table [l] = .ok text := by
  have hjoin : String.join [text] = text := by simp [String.join]
  rw [spellAll, List.mapM_cons, h]
  exact congrArg Except.ok hjoin

/-- A list of lexemes is spelled if its paths have namespaces. -/
theorem spellAll_eq_ok {table : ImportTable} {ls : List Lexeme}
    (h : ∀ path ∈ Lexeme.paths ls, ∃ n, table.find? path = some n) :
    spellAll table ls = .ok (String.join (ls.map (Lexeme.text table))) := by
  have hmap : ls.mapM (Lexeme.spell table) = .ok (ls.map (Lexeme.text table)) := by
    induction ls with
    | nil => rfl
    | cons l ls ih =>
        have hhead : l.spell table = .ok (l.text table) := by
          refine Lexeme.spell_eq_ok ?_
          intro path hpath
          exact h path (by simp [hpath])
        have htail : ls.mapM (Lexeme.spell table) = .ok (ls.map (Lexeme.text table)) := by
          refine ih ?_
          intro path hpath
          exact h path (by simp [hpath])
        rw [List.mapM_cons, hhead, htail]
        rfl
  rw [spellAll, hmap]
  rfl

/-- What is spelled is the text of the lexemes, one after the other. -/
theorem eq_join_of_spellAll {table : ImportTable} {ls : List Lexeme} {text : String}
    (h : spellAll table ls = .ok text) : text = String.join (ls.map (Lexeme.text table)) := by
  have hmap : ∀ (ls : List Lexeme) (pieces : List String),
      ls.mapM (Lexeme.spell table) = .ok pieces → pieces = ls.map (Lexeme.text table) := by
    intro ls
    induction ls with
    | nil =>
        intro pieces hpieces
        exact (Except.ok.inj hpieces).symm
    | cons l ls ih =>
        intro pieces hpieces
        rw [List.mapM_cons] at hpieces
        obtain ⟨piece, hl, hpieces⟩ := exists_of_bind_eq_ok hpieces
        obtain ⟨rest, hls, hpieces⟩ := exists_of_bind_eq_ok hpieces
        have htext : l.text table = piece := by rw [Lexeme.text, hl]
        rw [List.map_cons, htext, ← ih rest hls]
        exact (Except.ok.inj hpieces).symm
  obtain ⟨pieces, hls, htext⟩ := exists_of_bind_eq_ok h
  rw [← hmap ls pieces hls]
  exact (Except.ok.inj htext).symm

/-- Only a list whose paths have namespaces is spelled. -/
theorem exists_find?_of_spellAll {table : ImportTable} {ls : List Lexeme} {text : String}
    (h : spellAll table ls = .ok text) {path : String} (hpath : path ∈ Lexeme.paths ls) :
    ∃ n, table.find? path = some n := by
  obtain ⟨pieces, hls, -⟩ := exists_of_bind_eq_ok h
  clear h
  induction ls generalizing pieces with
  | nil => exact absurd hpath List.not_mem_nil
  | cons l ls ih =>
      rw [List.mapM_cons] at hls
      obtain ⟨piece, hl, hls⟩ := exists_of_bind_eq_ok hls
      obtain ⟨rest, hrest, -⟩ := exists_of_bind_eq_ok hls
      rw [Lexeme.paths_cons, List.mem_append, Option.mem_toList] at hpath
      rcases hpath with hpath | hpath
      · cases l with
        | importOf own =>
            obtain rfl := Option.some.inj hpath
            rw [Lexeme.spell] at hl
            cases hfind : table.find? own with
            | some n => exact ⟨n, rfl⟩
            | none =>
                rw [hfind] at hl
                exact nomatch hl
        | _ => exact nomatch hpath
      · exact ih hpath rest hrest

/-- A list of lexemes fails at the first path without a namespace. -/
theorem spellAll_eq_error_iff {table : ImportTable} {ls : List Lexeme} {f : Fault} :
    spellAll table ls = .error f ↔
      ∃ path, (Lexeme.paths ls).find? (fun path => (table.find? path).isNone) = some path ∧
        f = .unknownModule path := by
  induction ls with
  | nil =>
      constructor
      · intro h
        exact nomatch h
      · rintro ⟨path, hpath, -⟩
        exact nomatch hpath
  | cons l ls ih =>
      have hstep : spellAll table (l :: ls) =
          l.spell table >>= fun first => spellAll table ls >>= fun rest => .ok (first ++ rest) := by
        rw [spellAll, spellAll, List.mapM_cons]
        cases l.spell table with
        | error f => rfl
        | ok first =>
            cases ls.mapM (Lexeme.spell table) with
            | error f => rfl
            | ok rest => exact congrArg Except.ok String.join_cons
      have hlater : ∀ {first : String}, l.spell table = .ok first →
          (spellAll table (l :: ls) = .error f ↔ spellAll table ls = .error f) := by
        intro first hfirst
        rw [hstep, hfirst]
        cases spellAll table ls with
        | error other => exact Iff.rfl
        | ok rest =>
            constructor
            · intro h
              exact nomatch h
            · intro h
              exact nomatch h
      cases l with
      | importOf own =>
          rw [Lexeme.paths_cons, Lexeme.path?, Option.toList_some, List.singleton_append]
          cases hfind : table.find? own with
          | some n =>
              have hown : (Lexeme.importOf own).spell table = .ok n.text := by
                rw [Lexeme.spell, hfind]
              rw [hlater hown, ih, List.find?_cons_of_neg (by simp [hfind])]
          | none =>
              have hown : (Lexeme.importOf own).spell table = .error (.unknownModule own) := by
                rw [Lexeme.spell, hfind]
              rw [hstep, hown, List.find?_cons_of_pos (by simp [hfind])]
              constructor
              · intro h
                exact ⟨own, rfl, (Except.error.inj h).symm⟩
              · rintro ⟨path, hpath, rfl⟩
                rw [Option.some.inj hpath]
                rfl
      | _ => exact (hlater rfl).trans ih
/-- What is spelled has the characters of the lexemes. -/
theorem toList_of_spellAll {table : ImportTable} {ls : List Lexeme} {text : String}
    (h : spellAll table ls = .ok text) : text.toList = Lexeme.characters table ls := by
  rw [eq_join_of_spellAll h, String.toList_join, List.flatMap_map]
  rfl

/-- Lists of lexemes are spelled one after the other. -/
theorem spellAll_append_eq_ok_iff {table : ImportTable} {ls ms : List Lexeme} {text : String} :
    spellAll table (ls ++ ms) = .ok text ↔
      ∃ first second, spellAll table ls = .ok first ∧ spellAll table ms = .ok second ∧
        text = first ++ second := by
  simp only [spellAll, List.mapM_append]
  constructor
  · intro h
    obtain ⟨pieces, hpieces, hjoin⟩ := exists_of_bind_eq_ok h
    obtain ⟨front, hls, hback⟩ := exists_of_bind_eq_ok hpieces
    obtain ⟨back, hms, hall⟩ := exists_of_bind_eq_ok hback
    obtain rfl := Except.ok.inj hall
    obtain rfl := Except.ok.inj hjoin
    exact ⟨_, _, by rw [hls]; rfl, by rw [hms]; rfl, String.join_append⟩
  · rintro ⟨first, second, hls, hms, rfl⟩
    obtain ⟨front, hfront, hfirst⟩ := exists_of_bind_eq_ok hls
    obtain ⟨back, hback, hsecond⟩ := exists_of_bind_eq_ok hms
    obtain rfl := Except.ok.inj hfirst
    obtain rfl := Except.ok.inj hsecond
    rw [hfront, hback, ← String.join_append]
    rfl

/-- Pieces with a separator between them are spelled one by one, with its text between them. -/
theorem spellAll_separated_eq_ok_iff {table : ImportTable} {separator : List Lexeme}
    {mark text : String} {pieces : List (List Lexeme)}
    (hseparator : spellAll table separator = .ok mark) :
    spellAll table (Lexeme.separated separator pieces) = .ok text ↔
      ∃ texts : List String, pieces.map (spellAll table) = texts.map .ok ∧
        text = mark.intercalate texts := by
  induction pieces generalizing text with
  | nil =>
      constructor
      · intro h
        exact ⟨[], rfl, (Except.ok.inj h).symm⟩
      · rintro ⟨texts, htexts, rfl⟩
        obtain rfl := List.map_eq_nil_iff.mp htexts.symm
        rfl
  | cons ls pieces ih =>
      cases pieces with
      | nil =>
          constructor
          · intro h
            exact ⟨[text], congrArg (fun result => [result]) h, by simp⟩
          · rintro ⟨texts, htexts, rfl⟩
            obtain ⟨first, rest, rfl, hfirst, hrest⟩ := List.map_eq_cons_iff.mp htexts.symm
            obtain rfl := List.map_eq_nil_iff.mp hrest
            rw [String.intercalate_singleton]
            exact hfirst.symm
      | cons next pieces =>
          have hstep : Lexeme.separated separator (ls :: next :: pieces) =
              ls ++ (separator ++ Lexeme.separated separator (next :: pieces)) := by
            simp [Lexeme.separated]
          have hmore : ∀ {rest : List String},
              (next :: pieces).map (spellAll table) = rest.map .ok → rest ≠ [] := by
            rintro rest hrest rfl
            exact absurd hrest (by simp)
          rw [hstep, spellAll_append_eq_ok_iff]
          constructor
          · rintro ⟨first, after, hfirst, hafter, rfl⟩
            obtain ⟨gap, last, hgap, hlast, rfl⟩ := spellAll_append_eq_ok_iff.mp hafter
            obtain rfl := Except.ok.inj (hseparator.symm.trans hgap)
            obtain ⟨rest, hrest, rfl⟩ := ih.mp hlast
            refine ⟨first :: rest, ?_, ?_⟩
            · rw [List.map_cons, hfirst, hrest, List.map_cons]
            · rw [String.intercalate_cons_of_ne_nil (hmore hrest), String.append_assoc]
          · rintro ⟨texts, htexts, rfl⟩
            obtain ⟨first, rest, rfl, hfirst, hrest⟩ := List.map_eq_cons_iff.mp htexts.symm
            have hlast := ih.mpr ⟨rest, hrest.symm, rfl⟩
            refine ⟨first, _, hfirst.symm,
              spellAll_append_eq_ok_iff.mpr ⟨mark, _, hseparator, hlast, rfl⟩, ?_⟩
            rw [String.intercalate_cons_of_ne_nil (hmore hrest.symm), String.append_assoc]

end EcmaWriter
