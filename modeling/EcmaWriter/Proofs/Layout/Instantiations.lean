import EcmaWriter.Proofs.Layout.Following
import EcmaWriter.Proofs.Layout.Position
import Mathlib.Logic.Relation

/-!
# EcmaWriter - Tokens after type arguments

An instantiation is never put in parentheses for its strength, so what comes after it is what
comes after the node that it ends.  Going up from the instantiation, this is decided by the
first node that does not end there.

No instantiation stands before a point or a bracket: a member access has it in parentheses.
In TypeScript it does stand before `<`, `+`, `-`, `>>` and `>>>`, where the operator of a binary
operation or another list of type arguments comes after it.

Main results:

- Definition `Module.Exposed`: nodes at the end of what such a node starts with.
- Theorem `Module.exposed_or_isClosed`: where a refused token can come after an expression.
- Theorem `Module.isRefused_rest_iff`: after an instantiation it comes only there.
- Theorem `Module.refused_after_instantiation_iff`: after an instantiation comes a refused token
  exactly if it is exposed.
-/

namespace EcmaWriter

open Lexeme (mark space newline indent)
open Fragment

/-! ## Instantiations in a file -/

namespace Position

/-- A node starts with another one, as it is. -/
def Leads (s t : Position) : Prop :=
  ∃ after, s.writing.fragments = .part t.writing :: after ∧ t.rest = texts after ++ s.rest

/-- A node ends with another one, as it is. -/
def Ends (s t : Position) : Prop :=
  ∃ before, s.writing.fragments = before ++ [.part t.writing] ∧ t.rest = s.rest

theorem rest_eq_of_ends {s t : Position} (h : Relation.ReflTransGen Ends s t) :
    t.rest = s.rest := by
  induction h with
  | refl => rfl
  | tail _ hends ih =>
      obtain ⟨-, -, hrest⟩ := hends
      rw [hrest, ih]

end Position

namespace Module

variable {m : Module} {table : ImportTable} {links : List String} {s : Position}

/-- Whether a node stands at the end of what a binary operation or an instantiation starts
with, and this writes a token that is refused right after it. -/
def Exposed (m : Module) (table : ImportTable) (links : List String) (s : Position) : Prop :=
  ∃ u v, m.Stands table .typeScript links u ∧ u.writing.node.refuses = true ∧ u.Leads v ∧
    Relation.ReflTransGen Position.Ends v s

/-- What is exposed has a refused token after it, but none of a member access. -/
theorem Exposed.exists_refused (h : m.Exposed table links s) :
    ∃ l ∈ refused, nextToken? s.rest = some l ∧ l ≠ mark "." ∧ l ≠ mark "[" := by
  obtain ⟨u, v, hu, hrefuses, ⟨after, hfragments, hrest⟩, hends⟩ := h
  rw [Position.rest_eq_of_ends hends, hrest]
  have hp := dialect_of_mem_writings hu.mem_writings
  exact Writing.exists_refused_of_refuses hp hrefuses hfragments _

/-- After an expression comes a refused token only if it is exposed, or if it is the base of a
member access, which is closed. -/
theorem exposed_or_isClosed (h : m.Stands table .typeScript links s)
    (hexpr : s.writing.node.isExpr = true) (hrefused : isRefused s.rest = true) :
    m.Exposed table links s ∨ s.writing.IsClosed := by
  -- by induction on the way down from the file: a node that ends another one has the same text
  -- after it, and nothing ends what is closed
  induction h with
  | @root before after w h =>
      have hmem : w ∈ m.writtenParts .typeScript := mem_writtenParts_of_fragments_eq h
      rcases List.mem_append.mp hmem with hmem | hmem
      · rcases List.mem_map.mp hmem with ⟨d, -, rfl⟩
        exact absurd hexpr Bool.false_ne_true
      · obtain rfl := List.mem_singleton.mp hmem
        exact absurd hexpr Bool.false_ne_true
  | @part s before after w hs hsplit ih =>
      have hp := dialect_of_mem_writings hs.mem_writings
      rcases Writing.accepted_or_last_or_first hp hsplit hexpr with
        haccepted | ⟨hlast, rfl⟩ | ⟨rfl, hfirst⟩
      · rw [isRefused_eq_false_of_isAccepted (isAccepted_append haccepted _)] at hrefused
        exact absurd hrefused Bool.false_ne_true
      · rcases ih hlast hrefused with ⟨u, v, hu, hrefuses, hleads, hends⟩ | hclosed
        · exact Or.inl ⟨u, v, hu, hrefuses, hleads, hends.tail ⟨before, hsplit, rfl⟩⟩
        · obtain ⟨front, last, hlast, hpart⟩ := hclosed.last
          rw [hsplit] at hlast
          obtain ⟨-, hsame⟩ := List.append_inj' hlast rfl
          obtain rfl := (List.cons.inj hsame).1
          exact nomatch hpart
      · have hleads : s.Leads ⟨w, texts after ++ s.rest⟩ := ⟨after, hsplit, rfl⟩
        exact hfirst.imp_left fun hrefuses => ⟨s, _, hs, hrefuses, hleads, .refl⟩

/-- After an instantiation comes a refused token exactly if it is exposed. -/
theorem isRefused_rest_iff (h : m.Stands table .typeScript links s)
    (hinstantiation : s.writing.node.isInstantiation = true) :
    isRefused s.rest = true ↔ m.Exposed table links s := by
  constructor
  · intro hrefused
    have hexpr := Node.isExpr_of_isInstantiation hinstantiation
    rcases exposed_or_isClosed h hexpr hrefused with hexposed | hclosed
    · exact hexposed
    · exact absurd (hclosed.isInstantiation.symm.trans hinstantiation) Bool.false_ne_true
  · intro hexposed
    obtain ⟨l, hl, hnext, -⟩ := hexposed.exists_refused
    rw [isRefused, hnext, Option.any_some]
    exact List.contains_iff_mem.mpr hl

/-- After an instantiation comes no token of a member access. -/
theorem nextToken?_rest_ne (h : m.Stands table .typeScript links s)
    (hinstantiation : s.writing.node.isInstantiation = true) {symbol : String}
    (hsymbol : symbol = "." ∨ symbol = "[") : nextToken? s.rest ≠ some (mark symbol) := by
  intro hnext
  have hrefused : isRefused s.rest = true := by
    rw [isRefused, hnext]
    rcases hsymbol with rfl | rfl <;> rfl
  have hexposed := (isRefused_rest_iff h hinstantiation).mp hrefused
  obtain ⟨l, -, hnext', hdot, hindex⟩ := hexposed.exists_refused
  obtain rfl := Option.some.inj (hnext.symm.trans hnext')
  rcases hsymbol with rfl | rfl
  · exact hdot rfl
  · exact hindex rfl

theorem guarded_fragments : Guarded true (m.fragments table .typeScript links) := by
  refine Guarded.close (.separated (Or.inl rfl) ?_) (Or.inl rfl)
  intro fs hfs
  simp only [List.mem_append, List.mem_cons, List.mem_map] at hfs
  rcases hfs with ((rfl | ⟨ls, -, rfl⟩) | ⟨d, -, rfl⟩) | hstatements
  · trivial
  · trivial
  · exact Guarded.cons_part trivial rfl
  · split at hstatements
    · exact absurd hstatements List.not_mem_nil
    · rw [List.mem_singleton.mp hstatements]
      exact Guarded.cons_part trivial rfl

/-- What TypeScript writes of a module stands in the file, except for leaves that are left
out or replaced. -/
theorem exists_stands {w : Writing} (hw : w ∈ m.writings .typeScript) :
    (∃ rest, m.Stands table .typeScript links ⟨w, rest⟩) ∨
      w.parts = [] ∧ w.node.isInstantiation = false := by
  have hroots : ∀ root ∈ m.writtenParts .typeScript,
      (∃ rest, m.Stands table .typeScript links ⟨root, rest⟩) ∨
        root.parts = [] ∧ root.node.isInstantiation = false := by
    intro root hroot
    have hmem : root ∈ Fragment.writings (m.fragments table .typeScript links) ∨
        root.parts = [] ∧ root.node.isInstantiation = false := by
      rw [writings_fragments, List.mem_append]
      rcases List.mem_append.mp hroot with hroot | hroot
      · rcases List.mem_map.mp hroot with ⟨d, hd, rfl⟩
        have hwritten : (d.layout? (m.place .typeScript)).isSome = true := by cases d <;> rfl
        exact Or.inl (Or.inl (List.mem_map.mpr ⟨d, List.mem_filter.mpr ⟨hd, hwritten⟩, rfl⟩))
      · obtain rfl := List.mem_singleton.mp hroot
        split
        · rename_i hempty
          rw [List.isEmpty_iff.mp hempty]
          exact Or.inr ⟨rfl, rfl⟩
        · exact Or.inl (Or.inr List.mem_cons_self)
    rcases hmem with hmem | hleaf
    · rcases exists_split_or_instead hmem with ⟨before, after, hsplit⟩ | ⟨ls, hinstead⟩
      · exact Or.inl ⟨_, .root hsplit⟩
      · exact Or.inr (guarded_fragments.of_mem_instead hinstead)
    · exact Or.inr hleaf
  rcases List.mem_flatMap.mp hw with ⟨root, hroot, hwroot⟩
  have hall : ∀ v ∈ root.all, (∃ rest, m.Stands table .typeScript links ⟨v, rest⟩) ∨
      v.parts = [] ∧ v.node.isInstantiation = false := by
    refine Writing.all_induction (hroots root hroot) ?_
    intro v hv q hq
    rcases hv with ⟨rest, hstands⟩ | ⟨hnone, -⟩
    · have hp := dialect_of_mem_writings hstands.mem_writings
      rw [← v.writings_fragments] at hq
      rcases exists_split_or_instead hq with ⟨before, after, hsplit⟩ | ⟨ls, hinstead⟩
      · exact Or.inl ⟨_, hstands.part hsplit⟩
      · exact Or.inr (Writing.of_mem_instead hp hinstead)
    · rw [hnone] at hq
      exact absurd hq List.not_mem_nil
  exact hall w hwroot

/-- The last lexeme of an instantiation closes its type arguments. -/
theorem exists_lexemes_eq_of_instantiation {w : Writing} {e : Expr} {arguments : List TypeExpr}
    (hw : w ∈ m.writings .typeScript) (hnode : w.node = .expr (.instantiation e arguments))
    (harguments : arguments ≠ []) : ∃ front, w.lexemes = front ++ [mark ">"] := by
  have htypes : w.place.hasTypes = true := decide_eq_true (dialect_of_mem_writings hw)
  rcases w with ⟨p, inHead, node⟩
  obtain rfl : node = .expr (.instantiation e arguments) := hnode
  cases arguments with
  | nil => exact absurd rfl harguments
  | cons t ts =>
      rw [Writing.lexemes, Expr.layout, if_pos htypes]
      exact ⟨_, (List.append_assoc _ (_ :: _) [_]).symm⟩

/-- In TypeScript an instantiation stands before a token that is refused there exactly if it is
exposed: if it ends what a binary operation or another instantiation starts with.  It never
stands before a token of a member access. -/
theorem refused_after_instantiation_iff {policy : UnresolvedPolicy} {c : Census} {w : Writing}
    {e : Expr} {arguments : List TypeExpr} (links : List String) (h : m.census policy = .ok c)
    (hw : w ∈ m.writings .typeScript) (hnode : w.node = .expr (.instantiation e arguments))
    (harguments : arguments ≠ []) :
    (∃ rest, m.Stands (.ofCensus c) .typeScript links ⟨w, rest⟩) ∧
      ∀ rest, m.Stands (.ofCensus c) .typeScript links ⟨w, rest⟩ →
        (∃ before own after,
          m.generate ⟨.typeScript, links, policy⟩ = .ok (before ++ (own ++ ">") ++ after) ∧
            spellAll (.ofCensus c) w.lexemes = .ok (own ++ ">") ∧
            spellAll (.ofCensus c) rest = .ok after) ∧
          nextToken? rest ≠ some (mark ".") ∧ nextToken? rest ≠ some (mark "[") ∧
          (isRefused rest = true ↔ m.Exposed (.ofCensus c) links ⟨w, rest⟩) := by
  obtain ⟨front, hfront⟩ := exists_lexemes_eq_of_instantiation hw hnode harguments
  have hinstantiation : w.node.isInstantiation = true := by
    rw [hnode]
    rfl
  constructor
  · refine (exists_stands hw).resolve_right fun hleaf => ?_
    exact absurd (hleaf.2.symm.trans hinstantiation) Bool.false_ne_true
  · intro rest hstands
    refine ⟨?_, ?_, ?_, isRefused_rest_iff hstands hinstantiation⟩
    · obtain ⟨before, own, after, htext, hown, hafter⟩ := hstands.exists_generate_eq h
      have hclosing := hown
      rw [hfront] at hclosing
      obtain ⟨inner, closing, -, hmark, rfl⟩ := spellAll_append_eq_ok_iff.mp hclosing
      obtain rfl : ">" = closing := Except.ok.inj hmark
      exact ⟨before, inner, after, htext, hown, hafter⟩
    · exact nextToken?_rest_ne hstands hinstantiation (Or.inl rfl)
    · exact nextToken?_rest_ne hstands hinstantiation (Or.inr rfl)

/-- An instantiation at the end of what a subtraction starts with. -/
theorem refused_after_instantiation_iff_subtraction :
    let e := Expr.instantiation (.global (.ofString "f")) [.number]
    let m : Module := ⟨[], [.evaluate (.binary .subtraction (.unary .await e) (.number 1))]⟩
    let w : Writing := ⟨(m.place .typeScript).enterBlock [] m.statements, false, .expr e⟩
    ∃ c, m.census .reject = .ok c ∧ ∃ rest, m.Stands (.ofCensus c) .typeScript [] ⟨w, rest⟩ ∧
      nextToken? rest ≠ some (mark ".") ∧ nextToken? rest ≠ some (mark "[") ∧
      (isRefused rest = true ↔ m.Exposed (.ofCensus c) [] ⟨w, rest⟩) := by
  intro e m w
  have hblock : ⟨m.place .typeScript, false, .block [] m.statements⟩ ∈ m.writings .typeScript :=
    mem_writings_of_mem List.mem_cons_self
  have hstatement := mem_writings_of_mem_parts hblock List.mem_cons_self
  have hsubtraction := mem_writings_of_mem_parts hstatement List.mem_cons_self
  have hunary := mem_writings_of_mem_parts hsubtraction List.mem_cons_self
  have hw : w ∈ m.writings .typeScript := mem_writings_of_mem_parts hunary List.mem_cons_self
  have hcensus : m.census .reject = .ok _ := rfl
  obtain ⟨⟨rest, hstands⟩, hall⟩ :=
    refused_after_instantiation_iff [] hcensus hw rfl (List.cons_ne_nil _ _)
  exact ⟨_, hcensus, rest, hstands, (hall rest hstands).2⟩

/-- A sum that starts with an instantiation has it without parentheses, before the plus sign. -/
theorem exists_refused_after_instantiation :
    let e := Expr.instantiation (.global (.ofString "f")) [.number]
    let m : Module := ⟨[], [.evaluate (.binary .addition e (.number 1))]⟩
    let w : Writing := ⟨(m.place .typeScript).enterBlock [] m.statements, false, .expr e⟩
    (∃ rest, m.Stands ⟨[]⟩ .typeScript [] ⟨w, rest⟩ ∧ nextToken? rest = some (mark "+")) ∧
      m.generate Options.standard = .ok ("/* eslint-disable */\n"
        ++ "/* generated by gen-js. Do not edit! */\n\n\x7b\n  f<number> + 1;\n\x7d\n") := by
  intro e m w
  refine ⟨?_, by decide +kernel⟩
  have hfile : m.fragments ⟨[]⟩ .typeScript [] =
      [.own (Layout.banner []), .own [newline, newline]]
        ++ .part ⟨m.place .typeScript, false, .block [] m.statements⟩ :: [.own [newline]] := rfl
  have hblock : Writing.fragments ⟨m.place .typeScript, false, .block [] m.statements⟩ =
      [.own [mark "\x7b", newline], .own [indent 1]]
        ++ .part ⟨w.place, false, .statement (.evaluate (.binary .addition e (.number 1)))⟩
          :: [.own [newline], .own [indent 0, mark "\x7d"]] := rfl
  have hstatement : Writing.fragments
      ⟨w.place, false, .statement (.evaluate (.binary .addition e (.number 1)))⟩ =
        [] ++ ofExpr w.place false (.binary .addition e (.number 1)) :: [.own [mark ";"]] := rfl
  have haddition : Writing.fragments
      ⟨w.place, false, .expr (.binary .addition e (.number 1))⟩ =
        [] ++ .part w :: [.own [space, mark "+", space], ofExpr w.place false (.number 1)] := rfl
  exact ⟨_, (((Stands.root hfile).part hblock).part hstatement).part haddition, rfl⟩

end Module

end EcmaWriter
