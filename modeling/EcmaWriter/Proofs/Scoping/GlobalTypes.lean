import EcmaWriter.Proofs.Census.Acceptance
import EcmaWriter.Proofs.Imports.Agreement
import EcmaWriter.Proofs.Imports.Hygiene

/-!
# EcmaWriter - Built-in types

A built-in type is written with its own name, and after `globalThis` where a type of the
module has this name.  Types are named by the type aliases of a module and by type
parameters, and a type parameter counts inside the construct that has it and nowhere else.

The layout keeps the names of types in the place of a node and enters a scope at each list
of type parameters.  Here the names are read off the tree: a node is listed with the nodes
around it, from the closest one outwards.

Main results:

- Definition `Module.surrounded`: everything in a module with the nodes around it.
- Theorem `Writing.names_types_of_mem_parts`: the types that a part sees.
- Theorem `Module.forall₂_surrounded`: everywhere in a module the layout sees the types of the
  module and the type parameters of the nodes around.
- Theorem `Module.global_types_qualified`: a built-in type is qualified exactly if one of
  these has its name.
-/

namespace EcmaWriter

/-! ## Nodes around a node -/

/-- An occurrence with the nodes around it, the closest one first. -/
structure Surrounded where
  around : List Node
  occurrence : Occurrence

namespace Occurrence

/-- A node and everything inside it, in document order, each with the nodes around it. -/
def within (around : List Node) (o : Occurrence) : List Surrounded :=
  ⟨around, o⟩ :: o.parts.attach.flatMap fun ⟨q, _⟩ => q.within (o.node :: around)
termination_by o.extent
decreasing_by exact extent_lt_of_mem_parts ‹_›

/-- An occurrence has its parts around itself, with one node more. -/
theorem within_eq (around : List Node) (o : Occurrence) :
    o.within around = ⟨around, o⟩ :: o.parts.flatMap (within (o.node :: around)) := by
  rw [within]
  simp

/-- Nothing is left out, and nothing is listed twice. -/
theorem map_occurrence_within (around : List Node) (o : Occurrence) :
    (o.within around).map Surrounded.occurrence = o.all := by
  induction o using induction_on generalizing around with
  | step o ih =>
      rw [within_eq, all_eq, List.map_cons, List.map_flatMap]
      exact congrArg _ (List.flatMap_congr fun q hq => ih q hq _)

end Occurrence

/-- Everything in a module, in document order, each with the nodes around it. -/
def Module.surrounded (m : Module) : List Surrounded :=
  m.parts.flatMap (Occurrence.within [])

/-- Without what is around them these are the occurrences. -/
theorem Module.map_occurrence_surrounded (m : Module) :
    m.surrounded.map Surrounded.occurrence = m.occurrences := by
  rw [surrounded, occurrences, List.map_flatMap]
  exact List.flatMap_congr fun o _ => o.map_occurrence_within []

/-! ## Types in sight -/

namespace Writing

/-! ### One step -/

section Step

variable {p : Place} {inHead : Bool} {w : Writing}

/-- Expressions in a node see the types that the node sees. -/
theorem types_of_mem_ofExprs {es : List Expr} (h : w ∈ ofExprs p inHead es) :
    w.place.types = p.types := by
  rcases List.mem_map.mp h with ⟨e, -, rfl⟩
  rfl

/-- Types in a node see the types that the node sees. -/
theorem types_of_mem_ofTypes {ts : List TypeExpr} (h : w ∈ ofTypes p inHead ts) :
    w.place.types = p.types := by
  rcases List.mem_map.mp h with ⟨t, -, rfl⟩
  rfl

/-- So do types that are only written with types. -/
theorem types_of_mem_annotations {ts : List TypeExpr} (h : w ∈ annotations p inHead ts) :
    w.place.types = p.types := by
  rw [annotations] at h
  split at h
  · exact types_of_mem_ofTypes h
  · exact absurd h List.not_mem_nil

/-- So do the parts of a function, at the place where it binds its names. -/
theorem types_of_mem_ofFunction {typeParameters : List TypeParameter}
    {parameters : List Parameter} {result : List TypeExpr} {body : List Statement}
    (h : w ∈ ofFunction p inHead typeParameters parameters result body) :
    w.place.types = p.types := by
  rcases List.mem_append.mp h with h | h
  · exact types_of_mem_annotations h
  · rw [List.mem_singleton.mp h]
    unfold ofBody
    split <;> rfl

/-- The members of an object type see the same types, on one line and on lines of their
own. -/
theorem types_of_mem_memberWritings {members : List MemberType}
    (h : w ∈ MemberType.writings p inHead members) : w.place.types = p.types := by
  rcases List.mem_flatMap.mp h with ⟨m, -, h⟩
  rcases List.mem_append.mp h with h | h
  · exact types_of_mem_ofExprs h
  · exact types_of_mem_ofTypes h

/-- Parts of an expression see its type parameters first. -/
theorem names_types_of_mem_exprWritings {e : Expr} (h : w ∈ e.writings p inHead) :
    w.place.types.names = (Node.expr e).typeParameterNames ++ p.types.names := by
  cases e
  case lambda isAsync typeParameters parameters returnType body =>
    rw [types_of_mem_ofFunction h]
    rfl
  all_goals
    have hsame : w.place.types = p.types := by
      simp only [Expr.writings, List.mem_append, List.not_mem_nil] at h <;>
        grind [types_of_mem_ofExprs, types_of_mem_annotations]
    rw [hsame]
    rfl

/-- Parts of a type see its type parameters first. -/
theorem names_types_of_mem_typeWritings {t : TypeExpr} (h : w ∈ t.writings p inHead) :
    w.place.types.names = (Node.type t).typeParameterNames ++ p.types.names := by
  cases t
  case function typeParameters parameters result =>
    rw [types_of_mem_ofTypes h]
    rfl
  case object members =>
    rw [types_of_mem_memberWritings h]
    split <;> rfl
  all_goals
    have hsame : w.place.types = p.types := by
      simp only [TypeExpr.writings, List.not_mem_nil] at h <;> exact types_of_mem_ofTypes h
    rw [hsame]
    rfl

/-- Parts of a statement see its type parameters first. -/
theorem names_types_of_mem_statementWritings {statement : Statement}
    (h : w ∈ statement.writings p inHead) :
    w.place.types.names = (Node.statement statement).typeParameterNames ++ p.types.names := by
  cases statement
  case function isAsync name typeParameters parameters returnType body =>
    rw [types_of_mem_ofFunction h]
    rfl
  case forCount counter bound body =>
    rcases List.mem_append.mp h with h | h
    · rw [types_of_mem_ofExprs h]
      rfl
    · rw [List.mem_singleton.mp h]
      rfl
  all_goals
    have hsame : w.place.types = p.types := by
      simp only [Statement.writings, List.mem_append, List.mem_cons, List.mem_map,
          List.not_mem_nil] at h <;>
        grind [types_of_mem_ofExprs, types_of_mem_annotations, Place.deeper]
    rw [hsame]
    rfl

/-- Parts of a definition see its type parameters first. -/
theorem names_types_of_mem_definitionWritings {d : Definition} (h : w ∈ d.writings p inHead) :
    w.place.types.names = (Node.definition d).typeParameterNames ++ p.types.names := by
  cases d with
  | typeAlias a =>
      rw [types_of_mem_annotations h]
      rfl
  | function f =>
      rw [types_of_mem_ofFunction h]
      rfl
  | binding b =>
      rcases List.mem_append.mp h with h | h
      · rw [types_of_mem_annotations h]
        rfl
      · rw [types_of_mem_ofExprs h]
        rfl

end Step

/-- A part sees the types that the node sees, and the type parameters of the node. No other
construct enters a scope of types. -/
theorem names_types_of_mem_parts {w q : Writing} (hq : q ∈ w.parts) :
    q.place.types.names = w.node.typeParameterNames ++ w.place.types.names := by
  rcases w with ⟨p, inHead, node⟩
  cases node with
  | definition d => exact names_types_of_mem_definitionWritings hq
  | block bindings body =>
      rcases List.mem_map.mp hq with ⟨statement, -, rfl⟩
      rfl
  | statement statement => exact names_types_of_mem_statementWritings hq
  | expr e => exact names_types_of_mem_exprWritings hq
  | type t => exact names_types_of_mem_typeWritings hq

/-! ### All steps -/

variable {roots : List Identifier}

/-- A writing of a surrounded node that sees some types and the type parameters of the nodes
around. -/
structure Sees (roots : List Identifier) (w : Writing) (s : Surrounded) : Prop where
  node : w.node = s.occurrence.node
  types : w.place.types.names = s.around.flatMap Node.typeParameterNames ++ roots

/-- The invariant of going down both trees: all expressions and types in a node see what is
in sight at the node and the type parameters of the nodes in between. -/
theorem Aligned.sees {w : Writing} {o : Occurrence} {around : List Node}
    (h : Aligned .typeScript w o)
    (htypes : w.place.types.names = around.flatMap Node.typeParameterNames ++ roots) :
    List.Forall₂ (Sees roots) (w.all.filter fun q => q.node.isTerm)
      ((o.within around).filter fun s => s.occurrence.node.isTerm) := by
  induction o using Occurrence.induction_on generalizing w around with
  | step o ih =>
      have hrest : ∀ {ws : List Writing},
          List.Forall₂ (Aligned .typeScript) ws
              (o.parts.filter (Occurrence.isWritten .typeScript)) →
            (∀ q ∈ ws, q.place.types.names =
              (o.node :: around).flatMap Node.typeParameterNames ++ roots) →
            List.Forall₂ (Sees roots) ((ws.flatMap all).filter fun q => q.node.isTerm)
              ((o.parts.flatMap (Occurrence.within (o.node :: around))).filter fun s =>
                s.occurrence.node.isTerm) := by
        intro ws hws htypes
        rw [List.filter_eq_self.mpr fun q _ => Occurrence.isWritten_typeScript q] at hws
        rw [List.filter_flatMap, List.filter_flatMap]
        refine forall₂_flatMap ((List.forall₂_and_left _ _).mpr ⟨htypes, hws⟩) ?_
        rintro q o' ho' ⟨hq, haligned⟩
        exact ih o' ho' haligned hq
      have hparts : ∀ {node : Node} {q v : Writing}, q ∈ v.parts → v.node = node →
          v.place.types.names = around.flatMap Node.typeParameterNames ++ roots →
          q.place.types.names =
            (node :: around).flatMap Node.typeParameterNames ++ roots := by
        rintro node q v hq rfl hv
        rw [names_types_of_mem_parts hq, hv, List.flatMap_cons, List.append_assoc]
      cases h with
      | node hblock hdialect h =>
          have haligned := h.aligned_parts hblock (hdialect ▸ o.isWritten_typeScript)
          have hall := hrest (hdialect ▸ haligned) fun q hq => hparts hq h.node htypes
          rw [all_eq, Occurrence.within_eq, List.filter_cons, List.filter_cons, h.node]
          split
          · exact .cons ⟨h.node, htypes⟩ hall
          · exact hall
      | @block p inHead s bindings bindings' body hdialect h =>
          have haligned := aligned_statements h body
          rw [hdialect, ← Occurrence.filter_isWritten_statements] at haligned
          rw [all_eq, Occurrence.within_eq]
          refine hrest haligned ?_
          intro q hq
          have hsame := hparts hq rfl htypes
          exact hsame
      | @concise p inHead s bindings e hdialect h =>
          -- A block of one statement is written in place of the expression.
          have hstatement : Aligned .typeScript ⟨p, inHead, .statement (.returnValue e)⟩
              ⟨s.push (bindings ++ []), .statement (.returnValue e)⟩ := by
            refine .node (by simp) hdialect ⟨rfl, ?_⟩
            rw [List.append_nil]
            exact h
          have hall : all ⟨p, inHead, .statement (.returnValue e)⟩ =
              ⟨p, inHead, .statement (.returnValue e)⟩ :: all ⟨p, inHead, .expr e⟩ := by
            rw [all_eq]
            exact congrArg _ (List.flatMap_singleton _ _)
          have hbody := hrest (.cons hstatement .nil)
            fun q hq => List.mem_singleton.mp hq ▸ htypes
          rw [List.flatMap_singleton, hall] at hbody
          rw [Occurrence.within_eq]
          exact hbody

end Writing

namespace Module

/-- Everywhere in a module the types of the module are in sight, and the type parameters of the
nodes around. -/
theorem forall₂_surrounded (m : Module) :
    List.Forall₂ (Writing.Sees m.typeNames)
      ((m.writings .typeScript).filter fun w => w.node.isTerm)
      (m.surrounded.filter fun s => s.occurrence.node.isTerm) := by
  have hroots : ∀ w ∈ m.writtenParts .typeScript, w.place.types.names =
      ([] : List Node).flatMap Node.typeParameterNames ++ m.typeNames := by
    intro w hw
    rcases List.mem_append.mp hw with hw | hw
    · rcases List.mem_map.mp hw with ⟨d, -, rfl⟩
      rfl
    · rw [List.mem_singleton.mp hw]
      rfl
  rw [writings, surrounded, List.filter_flatMap, List.filter_flatMap]
  refine forall₂_flatMap
    ((List.forall₂_and_left _ _).mpr ⟨hroots, m.aligned_writtenParts .typeScript⟩) ?_
  rintro w o - ⟨htypes, haligned⟩
  exact haligned.sees htypes

end Module

/-! ## Built-in types -/

namespace Surrounded

/-- Whether a type has a name where a node stands: a type of the module, or a type parameter
of a construct around the node. -/
def Hides (m : Module) (s : Surrounded) (n : Identifier) : Prop :=
  n ∈ m.typeNames ∨ ∃ a ∈ s.around, n ∈ a.typeParameterNames

instance (m : Module) (s : Surrounded) (n : Identifier) : Decidable (s.Hides m n) :=
  inferInstanceAs (Decidable (_ ∨ _))

/-- The built-in type that a node is, and whether it is hidden there. -/
def globalType? (m : Module) (s : Surrounded) : Option (Bool × Identifier) :=
  match s.occurrence.node with
  | .type (.global n _) => some (decide (s.Hides m n), n)
  | _ => none

end Surrounded

/-- The built-in type that a lexeme is, and whether it is qualified. -/
def Lexeme.globalType? : Lexeme → Option (Bool × Identifier)
  | globalType hidden n => some (hidden, n)
  | _ => none

namespace Writing

/-- What is in sight where a node is written is in sight where it stands. -/
theorem Sees.contains_iff {m : Module} {w : Writing} {s : Surrounded}
    (h : w.Sees m.typeNames s) (n : Identifier) :
    w.place.types.contains n.text = true ↔ s.Hides m n := by
  rw [Scope.contains_text_iff, h.types, List.mem_append, List.mem_flatMap, or_comm,
    Surrounded.Hides]

/-- A type name is visible at a place if something around it binds the name. -/
theorem Sees.contains_eq {m : Module} {w : Writing} {s : Surrounded}
    (h : w.Sees m.typeNames s) (n : Identifier) :
    w.place.types.contains n.text = decide (s.Hides m n) := by
  rw [Bool.eq_iff_iff, h.contains_iff n, decide_eq_true_iff]

/-- The built-in type that a writing is, and whether it is qualified. -/
def globalType? (w : Writing) : Option (Bool × Identifier) :=
  match w.node with
  | .type (.global n _) => some (w.place.types.contains n.text, n)
  | _ => none

/-- A writing has at most one built-in type of its own. -/
theorem filterMap_globalType?_own (w : Writing) :
    w.own.filterMap Lexeme.globalType? = w.globalType?.toList := by
  rcases w with ⟨p, inHead, node⟩
  cases node with
  | expr e => cases e <;> rfl
  | type t => cases t <;> rfl
  | _ => rfl

/-- The built-in type is hidden if something around it binds its name. -/
theorem Sees.globalType?_eq {m : Module} {w : Writing} {s : Surrounded}
    (h : w.Sees m.typeNames s) : w.globalType? = s.globalType? m := by
  rw [globalType?, Surrounded.globalType?, h.node]
  split
  · rw [h.contains_eq]
  · rfl

end Writing

/-- What is read off related lists is the same if it is for related items. -/
theorem filterMap_eq_of_forall₂ {α β γ : Type} {R : α → β → Prop} {f : α → Option γ}
    {g : β → Option γ} {l : List α} {u : List β} (h : List.Forall₂ R l u)
    (hfg : ∀ a b, R a b → f a = g b) : l.filterMap f = u.filterMap g := by
  induction h with
  | nil => rfl
  | cons hab _ ih => rw [List.filterMap_cons, List.filterMap_cons, hfg _ _ hab, ih]

/-- A qualified name is another text than the bare one. -/
theorem Lexeme.qualified_append_eq_iff {hidden : Bool} {n : Identifier} {inner : String} :
    (qualified hidden n ++ inner = "globalThis." ++ n.text ++ inner ↔ hidden = true) ∧
      (qualified hidden n ++ inner = n.text ++ inner ↔ hidden = false) := by
  have hne : "globalThis." ++ n.text ++ inner ≠ n.text ++ inner := by
    intro h
    have hlength := congrArg String.length h
    have hprefix : "globalThis.".length = 11 := rfl
    simp only [String.length_append, hprefix] at hlength
    omega
  cases hidden with
  | false => exact ⟨iff_of_false hne.symm Bool.false_ne_true, iff_of_true rfl rfl⟩
  | true => exact ⟨iff_of_true rfl rfl, iff_of_false hne (Bool.noConfusion)⟩

namespace Module

/-- The built-in types in a file are those of the module, in document order, and each of them
is qualified exactly if it is hidden where it stands. -/
theorem globalTypes_layout (m : Module) (table : ImportTable) (links : List String) :
    (m.layout table .typeScript links).filterMap Lexeme.globalType? =
      m.surrounded.filterMap (Surrounded.globalType? m) := by
  have hreferences : (m.layout table .typeScript links).filterMap Lexeme.globalType? =
      (Lexeme.references (m.layout table .typeScript links)).filterMap Lexeme.globalType? := by
    rw [Lexeme.references, List.filterMap_filterMap]
    congr 1
    funext l
    cases l <;> rfl
  have hwritings : ((m.writings .typeScript).filter fun w => w.node.isTerm).filterMap
      Writing.globalType? = (m.writings .typeScript).filterMap Writing.globalType? := by
    rw [List.filterMap_filter]
    congr 1
    funext w
    rcases w with ⟨p, inHead, node⟩
    cases node <;> rfl
  have hsurrounded : (m.surrounded.filter fun s => s.occurrence.node.isTerm).filterMap
      (Surrounded.globalType? m) = m.surrounded.filterMap (Surrounded.globalType? m) := by
    rw [List.filterMap_filter]
    congr 1
    funext s
    rcases s with ⟨around, ⟨scope, node⟩⟩
    cases node <;> rfl
  rw [hreferences, references_layout, List.filterMap_flatMap,
    List.flatMap_congr fun w _ => w.filterMap_globalType?_own,
    ← List.filterMap_eq_flatMap_toList, ← hwritings, ← hsurrounded]
  exact filterMap_eq_of_forall₂ m.forall₂_surrounded fun _ _ h => h.globalType?_eq

/-- A built-in type is written with its name, qualified if it is hidden, and its type
arguments. -/
theorem exists_text_globalType {policy : UnresolvedPolicy} {m : Module} {c : Census}
    {w : Writing} {s : Surrounded} {n : Identifier} {arguments : List TypeExpr}
    (h : m.census policy = .ok c) (hw : w ∈ m.writings .typeScript) (hs : w.Sees m.typeNames s)
    (hnode : w.node = .type (.global n arguments)) :
    ∃ inner, spellAll (.ofCensus c) (Lexeme.angled (TypeExpr.layouts w.place arguments)) =
        .ok inner ∧
      spellAll (.ofCensus c) w.lexemes =
        .ok (Lexeme.qualified (decide (s.Hides m n)) n ++ inner) := by
  obtain ⟨text, htext⟩ := exists_spellAll_lexemes h hw
  have hlexemes : w.lexemes = [.globalType (decide (s.Hides m n)) n]
      ++ Lexeme.angled (TypeExpr.layouts w.place arguments) := by
    rw [← hs.contains_eq n]
    rcases w with ⟨p, inHead, node⟩
    obtain rfl : node = .type (.global n arguments) := hnode
    rfl
  rw [hlexemes] at htext ⊢
  obtain ⟨first, inner, hfirst, hinner, rfl⟩ := spellAll_append_eq_ok_iff.mp htext
  obtain rfl := Except.ok.inj ((spellAll_singleton rfl).symm.trans hfirst)
  exact ⟨inner, hinner, htext⟩

/-- A built-in type in a module, wherever it stands, is written after `globalThis` if and only
if a type of the module has its name or a type parameter of a construct around it.  These are
all the built-in types in the file, in document order.  No import namespace has the name of a
built-in type, so a bare one is not captured. -/
theorem global_types_qualified {policy : UnresolvedPolicy} {m : Module} {c : Census}
    (h : m.census policy = .ok c) :
    m.surrounded.map Surrounded.occurrence = m.occurrences ∧
      (∀ links, ∃ text, m.generate ⟨.typeScript, links, policy⟩ = .ok text ∧
        spellAll (.ofCensus c) (m.layout (.ofCensus c) .typeScript links) = .ok text ∧
        (m.layout (.ofCensus c) .typeScript links).filterMap Lexeme.globalType? =
          m.surrounded.filterMap (Surrounded.globalType? m)) ∧
      List.Forall₂
        (fun w s => w.node = s.occurrence.node ∧
          ∀ n arguments, w.node = .type (.global n arguments) →
            ∃ inner, spellAll (.ofCensus c)
                (Lexeme.angled (TypeExpr.layouts w.place arguments)) = .ok inner ∧
              (spellAll (.ofCensus c) w.lexemes = .ok ("globalThis." ++ n.text ++ inner) ↔
                s.Hides m n) ∧
              (spellAll (.ofCensus c) w.lexemes = .ok (n.text ++ inner) ↔ ¬ s.Hides m n))
        ((m.writings .typeScript).filter fun w => w.node.isTerm)
        (m.surrounded.filter fun s => s.occurrence.node.isTerm) ∧
      (Candidate.SearchEnds c.names.toList .first →
        ∀ s ∈ m.surrounded, ∀ n arguments, s.occurrence.node = .type (.global n arguments) →
          ∀ entry ∈ (ImportTable.ofCensus c).entries, entry.2 ≠ n) := by
  refine ⟨m.map_occurrence_surrounded, ?_, ?_, ?_⟩
  · intro links
    obtain ⟨text, htext⟩ : ∃ text, m.generate ⟨.typeScript, links, policy⟩ = .ok text :=
      generate_eq_ok h
    refine ⟨text, htext, ?_, m.globalTypes_layout _ links⟩
    rw [generate, h] at htext
    exact htext
  · have hwritings : ∀ w ∈ (m.writings .typeScript).filter fun w => w.node.isTerm,
        w ∈ m.writings .typeScript := fun w hw => List.mem_of_mem_filter hw
    refine ((List.forall₂_and_left _ _).mpr ⟨hwritings, m.forall₂_surrounded⟩).imp ?_
    rintro w s ⟨hw, hs⟩
    refine ⟨hs.node, ?_⟩
    intro n arguments hnode
    obtain ⟨inner, hinner, htext⟩ := exists_text_globalType h hw hs hnode
    refine ⟨inner, hinner, ?_, ?_⟩
    · rw [htext, Except.ok.injEq, Lexeme.qualified_append_eq_iff.1, decide_eq_true_iff]
    · rw [htext, Except.ok.injEq, Lexeme.qualified_append_eq_iff.2, decide_eq_false_iff_not]
  · intro hends s hs n arguments hnode entry hentry hname
    have hoccurrence : s.occurrence ∈ m.occurrences := by
      rw [← map_occurrence_surrounded]
      exact List.mem_map_of_mem hs
    refine ((import_names_differ m policy h hends entry hentry).2.2.1 _ hoccurrence).1 ?_
    rw [hnode, hname]
    exact List.mem_singleton_self n

/-- An alias hides built-in types of its own name everywhere and of its type parameter inside
itself. -/
theorem global_types_qualified_alias :
    let t := Identifier.ofString "T"
    let u := Identifier.ofString "U"
    let m : Module :=
      ⟨[.typeAlias ⟨false, t, [⟨u, none⟩], "", .intersection (.global t []) (.global u [])⟩],
        [.evaluate (.assertion (.imported "a.js" "x") (.global u []))]⟩
    ∃ c, m.census .reject = .ok c ∧ Candidate.SearchEnds c.names.toList .first ∧
      (ImportTable.ofCensus c).entries.length = 1 ∧
      m.surrounded.filterMap (Surrounded.globalType? m) = [(true, t), (true, u), (false, u)] ∧
      ∀ s ∈ m.surrounded, ∀ n arguments, s.occurrence.node = .type (.global n arguments) →
        ∀ entry ∈ (ImportTable.ofCensus c).entries, entry.2 ≠ n := by
  intro t u m
  have hcensus : m.census .reject = .ok _ := rfl
  have hends : Candidate.SearchEnds [t, u, .ofString "x"] .first :=
    Candidate.searchEnds_of_length_lt _ (by decide)
  obtain ⟨-, hfile, -, hnamespaces⟩ := global_types_qualified hcensus
  obtain ⟨text, -, -, htypes⟩ := hfile []
  refine ⟨_, hcensus, hends, rfl, htypes.symm.trans ?_, hnamespaces hends⟩
  decide +kernel

end Module

end EcmaWriter
