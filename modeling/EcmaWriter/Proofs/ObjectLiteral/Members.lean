import EcmaWriter.Proofs.ObjectLiteral.Layout
import EcmaWriter.Proofs.Script.Derivation
import EcmaWriter.Proofs.Tree.Occurrence

/-!
# EcmaWriter - The properties of object literals

What is written of an object literal is read back member by member.  A member with a computed
key and a spread are read as what they are, and so is a property with a known name, whether it
is written as a shorthand, with a bare name or with a quoted one.  There is one exception: the
name `__proto__` before a colon sets the prototype, and twice of that is refused.  So a literal
defines the properties of its tree exactly if no member has that name and another value than
the variable of that name.

Main results:

- Definitions `Member.intended`, `Member.written`: what a member is to do, and what it does.
- Theorem `Expr.object_reads_back`: what an object literal is read as, and when this is what
  its tree says.
- Theorem `Expr.object_sets_prototype`: a property that is not defined.
-/

namespace EcmaWriter

open Lexeme Script

/-- A name that is read back as one without a line feed is that name. -/
theorem Lexeme.eq_of_readBack_eq {key name : String} (h : readBack key = name)
    (hname : '\n' ∉ name.toList) : key = name := by
  have hjoin : ∀ cs, '\n' ∉ joinLineBreaks cs → joinLineBreaks cs = cs := by
    intro cs hcs
    fun_induction joinLineBreaks cs with
    | case1 => rfl
    | case2 cs ih => exact absurd (List.mem_cons_self) hcs
    | case3 c cs _ ih => rw [ih fun hmem => hcs (List.mem_cons_of_mem c hmem)]
  have htext : joinLineBreaks key.toList = name.toList := by
    rw [← h, readBack, String.toList_ofList]
  rw [← htext] at hname
  rw [hjoin key.toList hname] at htext
  exact String.toList_inj.mp htext

/-- Whether an expression is the variable with a name. -/
def Expr.isVariable (name : String) : Expr → Bool
  | .reference n => n.text = name
  | _ => false

/-- A key that is the name of its variable can stand bare. -/
theorem Expr.isBareName_of_isVariable {name : String} {e : Expr} (h : e.isVariable name = true) :
    isBareName name = true := by
  cases e with
  | reference n => exact of_decide_eq_true h ▸ n.isBare
  | _ => exact absurd h Bool.false_ne_true

/-- A property with a known name is written as a shorthand for the variable of that name. -/
theorem Layout.keyValue_string (key : String) (value : Expr) (ls ms : List Lexeme) :
    Layout.keyValue (.string key) value ls ms =
      if value.isVariable key then [word key]
      else Layout.propertyKey key :: [mark ":", space] ++ ms := by
  cases value with
  | reference n =>
      have hbare : (isBareName key && decide (n.text = key)) = decide (n.text = key) := by
        by_cases hsame : n.text = key
        · rw [← hsame, n.isBare, Bool.true_and]
        · rw [decide_eq_false hsame, Bool.and_false]
      rw [Layout.keyValue, hbare, Expr.isVariable]
  | _ => rfl

namespace Member

variable (table : ImportTable) (p : Place)

/-- The lexemes of a member. -/
def layout : Member → List Lexeme
  | .keyValue key value => Layout.keyValue key value (key.layout p) (value.layout p)
  | .spread e => mark "..." :: e.layout p

/-- An expression as it stands in a text. -/
def exprText (e : Expr) : List Char :=
  ObjectLiteral.trim (characters table (e.layout p))

/-- What a member is to do. A name is meant up to line breaks. -/
def intended : Member → MemberReading
  | .keyValue (.string key) value => .own (readBack key) (exprText table p value)
  | .keyValue key value => .computed (exprText table p key) (exprText table p value)
  | .spread e => .spread (exprText table p e)

/-- What a member sets the prototype to. The variable of that name is written as a shorthand,
which does not set it. -/
def prototype? : Member → Option Expr
  | .keyValue (.string key) value =>
    if key = "__proto__" ∧ value.isVariable key = false then some value else none
  | _ => none

/-- What a member does. -/
def written (m : Member) : MemberReading :=
  match m.prototype? with
  | some value => .prototype (exprText table p value)
  | none => m.intended table p

/-- Members are written one by one. -/
theorem layouts_eq_map (members : List Member) :
    Member.layouts p members = members.map (layout p) := by
  induction members with
  | nil => rfl
  | cons m members ih =>
      cases m with
      | spread e => rw [Member.layouts, ih, List.map_cons, layout]
      | keyValue key value => rw [Member.layouts, ih, List.map_cons, layout]

/-! ## Single members -/

variable {table p}

/-- What is written of a member sets the prototype if the member does. -/
theorem isPrototype_written (m : Member) :
    (m.written table p).isPrototype = m.prototype?.isSome := by
  rw [written]
  cases m.prototype? with
  | some value => rfl
  | none => cases m with
    | spread e => rfl
    | keyValue key value => cases key <;> rfl

/-- A member is read as it is meant unless its key is the prototype. -/
theorem written_eq_intended_iff (m : Member) :
    m.written table p = m.intended table p ↔ m.prototype? = none := by
  constructor
  · intro h
    have hnone : (m.intended table p).isPrototype = false := by
      cases m with
      | spread e => rfl
      | keyValue key value => cases key <;> rfl
    rw [← h, isPrototype_written, Option.isSome_eq_false_iff] at hnone
    exact Option.isNone_iff_eq_none.mp hnone
  · intro h
    rw [written, h]

/-- A property that is written with a colon. -/
theorem written_string (key : String) (value : Expr) (h : value.isVariable key = false) :
    written table p (.keyValue (.string key) value) =
      ObjectLiteral.named (readBack key) (exprText table p value) := by
  have hname : readBack key = "__proto__" ↔ key = "__proto__" := by
    constructor
    · exact fun h => eq_of_readBack_eq h (by decide)
    · rintro rfl
      decide
  rw [written, prototype?, ObjectLiteral.named]
  by_cases hkey : key = "__proto__"
  · rw [if_pos ⟨hkey, h⟩, if_pos (hname.mpr hkey)]
  · rw [if_neg fun hboth => hkey hboth.1, if_neg (hkey ∘ hname.mp)]
    rfl

/-- A property that is written as a shorthand. -/
theorem written_variable (key : String) (value : Expr) (h : value.isVariable key = true) :
    written table p (.keyValue (.string key) value) = .own key key.toList := by
  cases value with
  | reference n =>
      obtain rfl : n.text = key := of_decide_eq_true h
      have hspace : ∀ c ∈ n.text.toList, ObjectLiteral.isSpace c = false := by
        intro c hc
        rw [Bool.eq_false_iff]
        intro hspace
        have hquiet := List.all_eq_true.mp (all_isQuiet_of_isPropertyName n.isPropertyName) c hc
        exact absurd (of_decide_eq_true hspace ▸ hquiet) (by decide)
      have htext : exprText table p (.reference n) = n.text.toList := by
        rw [exprText, Expr.layout, characters_singleton]
        exact ObjectLiteral.trim_eq_self hspace
      rw [written, prototype?, if_neg fun hboth => Bool.false_ne_true (hboth.2.symm.trans h),
        intended, htext, readBack_of_isPropertyName n.isPropertyName]
  | _ => exact absurd h Bool.false_ne_true

/-- A key that is no text is read as an expression. -/
theorem written_computed {key : Expr} (value : Expr) (h : ∀ text, key ≠ .string text) :
    written table p (.keyValue key value) =
      .computed (exprText table p key) (exprText table p value) := by
  cases key with
  | string text => exact absurd rfl (h text)
  | _ => rfl

/-! ## The text of single members -/

/-- The characters of a spread. -/
theorem characters_spread (e : Expr) :
    characters table (layout p (.spread e)) =
      '.' :: '.' :: '.' :: characters table (e.layout p) := by
  simp [layout, Lexeme.text, spell]

/-- A key that is no text is written in square brackets. -/
theorem layout_computed {key value : Expr} (h : ∀ text, key ≠ .string text) :
    layout p (.keyValue key value) =
      mark "[" :: key.layout p ++ [mark "]", mark ":", space] ++ value.layout p := by
  cases key with
  | string text => exact absurd rfl (h text)
  | _ => rfl

/-- The characters of a member with such a key. -/
theorem characters_computed {key value : Expr} (h : ∀ text, key ≠ .string text) :
    characters table (layout p (.keyValue key value)) =
      '[' :: (characters table (key.layout p) ++
        ']' :: ':' :: ' ' :: characters table (value.layout p)) := by
  simp [layout_computed h, Lexeme.text, spell]

/-- The characters of a member whose key is a text. -/
theorem characters_string {key : String} {value : Expr} (h : value.isVariable key = false) :
    characters table (layout p (.keyValue (.string key) value)) =
      ((Layout.propertyKey key).text table).toList ++
        ':' :: ' ' :: characters table (value.layout p) := by
  simp [layout, Layout.keyValue_string, h, Lexeme.text, spell]

/-- The characters of a member in the short form. -/
theorem characters_variable {key : String} {value : Expr} (h : value.isVariable key = true) :
    characters table (layout p (.keyValue (.string key) value)) = key.toList := by
  simp [layout, Layout.keyValue_string, h, Lexeme.text, spell]

/-- A member is gone over as a whole. -/
theorem undivided_layout (m : Member) : Undivided (characters table (m.layout p)) := by
  have hcolon : Undivided [':', ' '] := rfl
  cases m with
  | spread e =>
      have hpoints : Undivided ['.', '.', '.'] := rfl
      rw [characters_spread]
      exact hpoints.append (e.undivided_layout p)
  | keyValue key value =>
      have hvalue : Undivided ([':', ' '] ++ characters table (value.layout p)) :=
        hcolon.append (value.undivided_layout p)
      by_cases hkey : ∃ text, key = .string text
      · obtain ⟨text, rfl⟩ := hkey
        cases hvariable : value.isVariable text with
        | true =>
            have hbare := Expr.isBareName_of_isVariable hvariable
            rw [characters_variable hvariable]
            exact (Fluent.propertyName (Bool.and_eq_true_iff.mp hbare).1).undivided
        | false =>
            have hname : Fluent ((Layout.propertyKey text).text table).toList := by
              rw [Layout.propertyKey]
              split
              · exact .propertyName ‹_›
              · exact .stringLiteral text
            rw [characters_string hvariable]
            exact hname.undivided.append hvalue
      · have hne : ∀ text, key ≠ .string text := fun text heq => hkey ⟨text, heq⟩
        have hbrackets : Fluent ('[' :: (characters table (key.layout p) ++ [']'])) :=
          .bracketed rfl (key.nested_layout p)
        have htext : characters table (layout p (.keyValue key value)) =
            '[' :: (characters table (key.layout p) ++ [']']) ++
              ([':', ' '] ++ characters table (value.layout p)) := by
          rw [characters_computed hne]
          simp
        rw [htext]
        exact hbrackets.undivided.append hvalue

/-- A member is read as what it does, with or without a space after it. -/
theorem readMember_layout (m : Member) {after : List Char}
    (h : after.all ObjectLiteral.isSpace = true) :
    ObjectLiteral.readMember (characters table (m.layout p) ++ after) =
      some (m.written table p) := by
  cases m with
  | spread e =>
      rw [characters_spread]
      exact ObjectLiteral.readMember_spread _ h
  | keyValue key value =>
      by_cases hkey : ∃ text, key = .string text
      · obtain ⟨text, rfl⟩ := hkey
        cases hvariable : value.isVariable text with
        | true =>
            have hbare := Expr.isBareName_of_isVariable hvariable
            rw [characters_variable hvariable, written_variable text value hvariable]
            exact ObjectLiteral.readMember_shorthand (Bool.and_eq_true_iff.mp hbare).1
              (Expr.isReference_of_isBareName hbare) h
        | false =>
            rw [characters_string hvariable, written_string text value hvariable,
              Layout.propertyKey]
            split
            · rename_i hname
              rw [readBack_of_isPropertyName hname, List.append_assoc]
              exact ObjectLiteral.readMember_bare hname _ h
            · rw [List.append_assoc]
              exact ObjectLiteral.readMember_quoted text _ h
      · have hne : ∀ text, key ≠ .string text := fun text heq => hkey ⟨text, heq⟩
        rw [characters_computed hne, written_computed value hne]
        have hnested : SelfContained (characters table (key.layout p)) := key.nested_layout p
        have hread := ObjectLiteral.readMember_computed hnested
          (characters table (value.layout p)) h
        simpa [exprText] using hread

/-- There is a character in a member that is no space. -/
theorem all_isSpace_layout (m : Member) :
    (characters table (m.layout p)).all ObjectLiteral.isSpace = false := by
  rw [Bool.eq_false_iff]
  intro hblank
  have hread : ObjectLiteral.readMember (characters table (m.layout p) ++ []) =
      some (m.written table p) := m.readMember_layout rfl
  rw [List.append_nil, ObjectLiteral.readMember_of_all_isSpace hblank] at hread
  exact absurd hread (Option.some_ne_none _).symm

/-! ## All members -/

/-- There is a character in what stands in the braces that is no space. -/
theorem all_isSpace_separated (m : Member) (members : List Member) :
    (' ' :: (characters table (separated [mark ",", space] ((m :: members).map (layout p))) ++
      [' '])).all ObjectLiteral.isSpace = false := by
  have hm : (characters table (m.layout p)).all ObjectLiteral.isSpace = false :=
    m.all_isSpace_layout
  cases members with
  | nil => simp [separated, hm]
  | cons next members => simp [separated, hm]

/-- What stands in the braces is cut into the members. -/
theorem exists_split (m : Member) (members : List Member) :
    ∃ pieces, Cursor.start.split (' ' :: (characters table
        (separated [mark ",", space] ((m :: members).map (layout p))) ++ [' '])) = some pieces ∧
      pieces.mapM ObjectLiteral.readMember = some ((m :: members).map (written table p)) := by
  have hspace : Undivided [' '] := rfl
  have hm : Undivided (' ' :: characters table (m.layout p)) := hspace.append m.undivided_layout
  induction members generalizing m with
  | nil =>
      have hread : ObjectLiteral.readMember (characters table (m.layout p) ++ [' ']) =
          some (m.written table p) := m.readMember_layout rfl
      refine ⟨[' ' :: (characters table (m.layout p) ++ [' '])], ?_, ?_⟩
      · exact Cursor.split_of_run (hm.append hspace)
      · rw [List.mapM_cons, ObjectLiteral.readMember_space, hread]
        rfl
  | cons next members ih =>
      obtain ⟨pieces, hsplit, hpieces⟩ := ih next (hspace.append next.undivided_layout)
      have hread : ObjectLiteral.readMember (characters table (m.layout p) ++ []) =
          some (m.written table p) := m.readMember_layout rfl
      rw [List.append_nil] at hread
      have htext : ' ' :: (characters table
          (separated [mark ",", space] ((m :: next :: members).map (layout p))) ++ [' ']) =
            ' ' :: characters table (m.layout p) ++ ',' :: ' ' :: (characters table
              (separated [mark ",", space] ((next :: members).map (layout p))) ++ [' ']) := by
        simp [separated, Lexeme.text, spell]
      refine ⟨(' ' :: characters table (m.layout p)) :: pieces, ?_, ?_⟩
      · rw [htext, Cursor.split_append_comma hm, hsplit]
        rfl
      · rw [List.mapM_cons, ObjectLiteral.readMember_space, hread, hpieces]
        rfl

end Member

namespace ObjectLiteral

/-- Reading what stands between the braces. -/
theorem read_braced {inside : List Char} (hblank : inside.all isSpace = false)
    {pieces : List (List Char)} (hsplit : Cursor.start.split inside = some pieces)
    {members : List MemberReading} (hmembers : pieces.mapM readMember = some members) :
    read ('\x7b' :: (inside ++ ['\x7d'])) =
      if (members.filter MemberReading.isPrototype).length ≤ 1 then some members else none := by
  rw [read, if_pos List.getLast?_concat, List.dropLast_concat, hblank, if_neg Bool.false_ne_true,
    hsplit]
  simp only [Option.bind_eq_bind, Option.bind_some, hmembers]

/-- What is written of an object literal is read as its members, unless the prototype is set
more than once. -/
theorem read_layout (table : ImportTable) (p : Place) (members : List Member) :
    read (characters table ((Expr.object members).layout p)) =
      if (members.filter fun m => m.prototype?.isSome).length ≤ 1
      then some (members.map (Member.written table p)) else none := by
  have hprototypes : ((members.map (Member.written table p)).filter
      MemberReading.isPrototype).length = (members.filter fun m => m.prototype?.isSome).length := by
    rw [List.filter_map, List.length_map]
    exact congrArg (fun q => (members.filter q).length) (funext Member.isPrototype_written)
  rw [Expr.layout, Member.layouts_eq_map]
  cases members with
  | nil =>
      have htext : characters table (Layout.braced [mark ",", space] []) = ['\x7b', '\x7d'] := by
        simp [Layout.braced, Lexeme.text, spell]
      rw [List.map_nil, htext]
      rfl
  | cons m members =>
      obtain ⟨pieces, hsplit, hpieces⟩ := Member.exists_split m members
      have htext : characters table
          (Layout.braced [mark ",", space] ((m :: members).map (Member.layout p))) =
            '\x7b' :: (' ' :: (characters table
              (separated [mark ",", space] ((m :: members).map (Member.layout p))) ++ [' ']) ++
                ['\x7d']) := by
        simp [Layout.braced, Lexeme.text, spell]
      rw [htext, read_braced (Member.all_isSpace_separated m members) hsplit hpieces, hprototypes]

end ObjectLiteral

/-! ## The expressions of members -/

/-- A separator is written between two pieces. -/
theorem Lexeme.separated_cons (separator ls next : List Lexeme) (pieces : List (List Lexeme)) :
    separated separator (ls :: next :: pieces) =
      ls ++ separator ++ separated separator (next :: pieces) := by
  rw [separated]
  exact fun h => absurd h (List.cons_ne_nil next pieces)

/-- Fewer lexemes have no more paths. -/
theorem Lexeme.paths_subset_of_sublist {ls ms : List Lexeme} (h : ls.Sublist ms) :
    paths ls ⊆ paths ms :=
  (h.filterMap path?).subset

/-- A piece stands in the list of pieces. -/
theorem Lexeme.sublist_separated {ls separator : List Lexeme} {pieces : List (List Lexeme)}
    (h : ls ∈ pieces) : ls.Sublist (separated separator pieces) := by
  induction pieces with
  | nil => exact absurd h List.not_mem_nil
  | cons ms pieces ih =>
      cases pieces with
      | nil => exact List.mem_singleton.mp h ▸ List.Sublist.refl ls
      | cons next pieces =>
          rw [separated_cons, List.append_assoc]
          rcases List.mem_cons.mp h with rfl | h
          · exact List.sublist_append_left _ _
          · exact ((ih h).trans (List.sublist_append_right _ _)).trans
              (List.sublist_append_right _ _)

/-- A member needs the namespaces of its expressions. -/
theorem Member.paths_subset {p : Place} {m : Member} {e : Expr} (h : e ∈ m.exprs) :
    paths (e.layout p) ⊆ paths (m.layout p) := by
  cases m with
  | spread own =>
      obtain rfl := List.mem_singleton.mp h
      exact paths_subset_of_sublist (List.sublist_cons_self _ _)
  | keyValue key value =>
      by_cases hkey : ∃ text, key = .string text
      · obtain ⟨text, rfl⟩ := hkey
        rcases List.mem_cons.mp h with rfl | h
        · exact List.nil_subset _
        obtain rfl := List.mem_singleton.mp h
        cases hvariable : e.isVariable text with
        | true =>
            cases e with
            | reference n => exact List.nil_subset _
            | _ => exact absurd hvariable Bool.false_ne_true
        | false =>
            rw [Member.layout, Layout.keyValue_string, hvariable]
            exact paths_subset_of_sublist (List.sublist_append_right _ _)
      · rw [Member.layout_computed fun text heq => hkey ⟨text, heq⟩]
        rcases List.mem_cons.mp h with rfl | h
        · rw [List.append_assoc]
          exact paths_subset_of_sublist
            ((List.sublist_append_left _ _).trans (List.sublist_cons_self _ _))
        · obtain rfl := List.mem_singleton.mp h
          exact paths_subset_of_sublist (List.sublist_append_right _ _)

/-- The expressions in an object literal are spelled as they stand in its text. -/
theorem Expr.spellAll_of_object {table : ImportTable} {p : Place} {members : List Member}
    {text : String} (h : spellAll table ((Expr.object members).layout p) = .ok text) {e : Expr}
    (he : e ∈ members.flatMap Member.exprs) :
    spellAll table (e.layout p) = .ok (String.ofList (characters table (e.layout p))) := by
  obtain ⟨m, hm, he⟩ := List.mem_flatMap.mp he
  have hobject : paths (m.layout p) ⊆ paths ((Expr.object members).layout p) := by
    have hpiece : (m.layout p).Sublist
        (separated [mark ",", space] (members.map (Member.layout p))) :=
      sublist_separated (List.mem_map_of_mem hm)
    have hnone : (members.map (Member.layout p)).isEmpty = false :=
      List.isEmpty_eq_false_iff.mpr (List.ne_nil_of_mem (List.mem_map_of_mem hm))
    rw [Expr.layout, Member.layouts_eq_map, Layout.braced, hnone]
    exact paths_subset_of_sublist ((hpiece.trans (List.sublist_append_right _ _)).trans
      (List.sublist_append_left _ _))
  have hpaths : ∀ path ∈ paths (e.layout p), ∃ n, table.find? path = some n :=
    fun path hpath => exists_find?_of_spellAll h (hobject (Member.paths_subset he hpath))
  have hspelled := spellAll_eq_ok hpaths
  rw [hspelled, ← toList_of_spellAll hspelled, String.ofList_toList]

/-- An object literal is read as its members, unless the prototype is set more than once. This
is what the tree says exactly if no member sets the prototype. -/
theorem Expr.object_reads_back (table : ImportTable) (p : Place) (members : List Member)
    (text : String) (h : spellAll table ((Expr.object members).layout p) = .ok text) :
    (ObjectLiteral.read text.toList =
      if (members.filter fun m => m.prototype?.isSome).length ≤ 1
      then some (members.map (Member.written table p)) else none) ∧
    (ObjectLiteral.read text.toList = some (members.map (Member.intended table p)) ↔
      ∀ m ∈ members, m.prototype? = none) ∧
    ∀ e ∈ members.flatMap Member.exprs,
      spellAll table (e.layout p) = .ok (String.ofList (characters table (e.layout p))) := by
  have hread := ObjectLiteral.read_layout table p members
  rw [← toList_of_spellAll h] at hread
  refine ⟨hread, ?_, fun e he => Expr.spellAll_of_object h he⟩
  constructor
  · intro hintended
    rw [hread] at hintended
    split at hintended
    · have hmap := Option.some.inj hintended
      intro m hm
      exact m.written_eq_intended_iff.mp (List.map_inj_left.mp hmap m hm)
    · exact absurd hintended (Option.some_ne_none _).symm
  · intro hnone
    have hfilter : (members.filter fun m => m.prototype?.isSome) = [] := by
      rw [List.filter_eq_nil_iff]
      intro m hm
      simp [hnone m hm]
    rw [hread, hfilter, if_pos (by decide)]
    exact congrArg some (List.map_congr_left fun m hm => m.written_eq_intended_iff.mpr (hnone m hm))

/-- A shorthand, a type list with a comma, a quoted name, a computed key and a spread. -/
theorem Expr.object_reads_back_all_forms :
    let members : List Member := [.keyValue (.string "a") (.reference ⟨"a", rfl⟩),
      .keyValue (.string "b") (.instantiation (.global ⟨"f", rfl⟩) [.string, .number]),
      .keyValue (.string "is open\r\n") (.boolean true),
      .keyValue (.reference ⟨"a", rfl⟩) (.number (-1)), .spread (.reference ⟨"a", rfl⟩)]
    let text := "\x7b a, b: f<string, number>, \"is open\\n\": true, [a]: -1, ...a \x7d"
    spellAll ⟨[]⟩ ((Expr.object members).layout ⟨.typeScript, 0, .root [], .root []⟩) = .ok text ∧
      ObjectLiteral.read text.toList = some
        [.own "a" "a".toList, .own "b" "f<string, number>".toList,
          .own "is open\n" "true".toList, .computed "a".toList "-1".toList,
          .spread "a".toList] := by
  intro members text
  have hpaths : paths ((Expr.object members).layout ⟨.typeScript, 0, .root [], .root []⟩) = [] := by
    decide +kernel +revert
  have hspelled : spellAll ⟨[]⟩
      ((Expr.object members).layout ⟨.typeScript, 0, .root [], .root []⟩) = .ok text := by
    rw [spellAll_eq_ok fun path hpath => absurd (hpaths ▸ hpath) List.not_mem_nil]
    decide +kernel +revert
  have hread := (Expr.object_reads_back _ _ _ _ hspelled).2.1.mpr (by decide +kernel +revert)
  refine ⟨hspelled, hread.trans ?_⟩
  decide +kernel +revert

/-- The name of the prototype before a colon sets it and defines no property, and the literal
is refused if it stands there twice. -/
theorem Expr.object_sets_prototype :
    let m : Member := .keyValue (.string "__proto__") .null
    let p : Place := ⟨.javaScript, 0, .root [], .root []⟩
    spellAll ⟨[]⟩ ((Expr.object [m]).layout p) = .ok "\x7b __proto__: null \x7d" ∧
      ObjectLiteral.read "\x7b __proto__: null \x7d".toList = some [.prototype "null".toList] ∧
      [m].map (Member.intended ⟨[]⟩ p) = [.own "__proto__" "null".toList] ∧
      spellAll ⟨[]⟩ ((Expr.object [m, m]).layout p) =
        .ok "\x7b __proto__: null, __proto__: null \x7d" ∧
      ObjectLiteral.read "\x7b __proto__: null, __proto__: null \x7d".toList = none := by
  intro m p
  have hone : paths ((Expr.object [m]).layout p) = [] := by decide +kernel +revert
  have htwo : paths ((Expr.object [m, m]).layout p) = [] := by decide +kernel +revert
  refine ⟨?_, by decide +kernel, by decide +kernel +revert, ?_, by decide +kernel⟩
  · rw [spellAll_eq_ok fun path hpath => absurd (hone ▸ hpath) List.not_mem_nil]
    decide +kernel +revert
  · rw [spellAll_eq_ok fun path hpath => absurd (htwo ▸ hpath) List.not_mem_nil]
    decide +kernel +revert

end EcmaWriter
