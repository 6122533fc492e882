import EcmaWriter.Proofs.Layout.Writing

/-!
# EcmaWriter - Scopes of occurrences and of writings

The census and the layout go through a tree in two recursions of their own, and they enter
scopes at different points.  The census sees the parameters of a function and the
declarations in its body as one frame, the layout as two, and as one only if the body is a
returned expression; the layout also enters the head of a function.

A writing and an occurrence are aligned if they stand for the same node and the same values
are visible there, apart from heads of functions.  Blocks are aligned by what is visible
inside them.  The parts of what is aligned are aligned again, so that going through both
trees gives the same nodes with the same values visible.

Main results:

- Definition `Occurrence.written`: everything that a dialect writes of a tree.
- Definition `Writing.all`: a writing and everything inside it.
- Theorem `Writing.references_lexemes`: the references of a tree.
- Theorem `Writing.Aligned.terms`: aligned trees have the same expressions and types, and
  the same values are visible where they stand.
-/

namespace EcmaWriter

open Lexeme (references)

/-! ## What a dialect writes -/

/-- Whether a dialect writes a node. JavaScript leaves types out. -/
def Occurrence.isWritten (dialect : Dialect) (o : Occurrence) : Bool :=
  match o.node with
  | .type _ => dialect = .typeScript
  | _ => true

/-- What a dialect writes of a node and of everything inside it, in document order. -/
def Occurrence.written (dialect : Dialect) (o : Occurrence) : List Occurrence :=
  o :: (o.parts.filter (Occurrence.isWritten dialect)).attach.flatMap fun ⟨q, _⟩ =>
    q.written dialect
termination_by o.extent
decreasing_by exact extent_lt_of_mem_parts (List.mem_of_mem_filter ‹_›)

namespace Occurrence

/-- With types everything is written. -/
theorem isWritten_typeScript (o : Occurrence) : o.isWritten .typeScript = true := by
  rcases o with ⟨s, node⟩
  cases node <;> rfl

/-- What is written of an occurrence is the occurrence and what is written of its parts. -/
theorem written_eq (dialect : Dialect) (o : Occurrence) :
    o.written dialect =
      o :: (o.parts.filter (isWritten dialect)).flatMap (written dialect) := by
  rw [written]
  simp

/-- TypeScript writes everything. -/
theorem written_typeScript (o : Occurrence) : o.written .typeScript = o.all := by
  induction o using induction_on with
  | step o ih =>
      rw [written_eq, all_eq, List.filter_eq_self.mpr fun q _ => isWritten_typeScript q,
        List.flatMap_congr ih]

/-- What is written stands in the tree. -/
theorem written_subset (dialect : Dialect) (o : Occurrence) : o.written dialect ⊆ o.all := by
  induction o using induction_on with
  | step o ih =>
      rw [written_eq, all_eq]
      refine List.cons_subset_cons o ?_
      intro x hx
      rcases List.mem_flatMap.mp hx with ⟨q, hq, hxq⟩
      have hparts := List.mem_of_mem_filter hq
      exact List.mem_flatMap.mpr ⟨q, hparts, ih q hparts hxq⟩

/-- Expressions are written in both dialects. -/
@[simp] theorem filter_isWritten_ofExprs (dialect : Dialect) (s : Scope) (es : List Expr) :
    (ofExprs s es).filter (isWritten dialect) = ofExprs s es := by
  rw [List.filter_eq_self]
  intro q hq
  rcases List.mem_map.mp hq with ⟨e, -, rfl⟩
  rfl

/-- Statements are written in both dialects. -/
theorem filter_isWritten_statements (dialect : Dialect) (s : Scope) (bindings : List Identifier)
    (body : List Statement) :
    (parts ⟨s, .block bindings body⟩).filter (isWritten dialect) =
      parts ⟨s, .block bindings body⟩ := by
  rw [List.filter_eq_self]
  intro q hq
  rcases List.mem_map.mp hq with ⟨statement, -, rfl⟩
  rfl

/-- Types are written in one dialect only. -/
@[simp] theorem filter_isWritten_ofTypes (dialect : Dialect) (s : Scope) (ts : List TypeExpr) :
    (ofTypes s ts).filter (isWritten dialect) =
      if dialect = .typeScript then ofTypes s ts else [] := by
  split
  · rename_i hts
    rw [List.filter_eq_self]
    intro q hq
    rcases List.mem_map.mp hq with ⟨t, -, rfl⟩
    simp [isWritten, hts]
  · rename_i hjs
    rw [List.filter_eq_nil_iff]
    intro q hq
    rcases List.mem_map.mp hq with ⟨t, -, rfl⟩
    simp [isWritten, hjs]

end Occurrence

/-! ## Alignment -/

/-- The same values are visible in two scopes. -/
def Scope.SameNames (s t : Scope) : Prop :=
  ∀ text, s.contains text = t.contains text

namespace Scope.SameNames

variable {s t : Scope}

/-- The same names stay the same when more are bound. -/
theorem push (h : s.SameNames t) (names : List Identifier) :
    (s.push names).SameNames (t.push names) := by
  intro text
  rw [contains_push, contains_push, h text]

/-- Names that are bound in one frame are visible like those bound in two. -/
theorem push_append {names names' : List Identifier} (h : (s.push names).SameNames (t.push names'))
    (more : List Identifier) :
    (s.push (names ++ more)).SameNames (t.push (names' ++ more)) := by
  have hsplit : ∀ (s : Scope) (names : List Identifier) (text : String),
      (s.push (names ++ more)).contains text =
        (frameHas more text || (s.push names).contains text) := by
    intro s names text
    simp only [contains_push, frameHas, List.any_append]
    cases names.any fun n => n.text == text <;> simp
  intro text
  rw [hsplit, hsplit, h text]

/-- An empty frame hides nothing. -/
theorem push_nil (s : Scope) : (s.push []).SameNames s :=
  fun _ => rfl

end Scope.SameNames

/-- Nodes that are expressions or types. -/
def Node.isTerm : Node → Bool
  | .expr _ => true
  | .type _ => true
  | _ => false

/-! ### Lists that go together -/

/-- What is in one of two related lists is related to something in the other. -/
theorem exists_of_forall₂ {α β : Type} {R : α → β → Prop} {l : List α} {m : List β}
    (h : List.Forall₂ R l m) {a : α} (ha : a ∈ l) : ∃ b ∈ m, R a b := by
  induction h with
  | nil => exact absurd ha List.not_mem_nil
  | cons hhead _ ih =>
      rcases List.mem_cons.mp ha with rfl | ha
      · exact ⟨_, List.mem_cons_self, hhead⟩
      · rcases ih ha with ⟨b, hb, hab⟩
        exact ⟨b, List.mem_cons_of_mem _ hb, hab⟩

/-- Related lists of related items are related. -/
theorem forall₂_flatMap {α β γ δ : Type} {R : α → β → Prop} {S : γ → δ → Prop} {l : List α}
    {m : List β} {f : α → List γ} {g : β → List δ} (h : List.Forall₂ R l m)
    (hfg : ∀ a, ∀ b ∈ m, R a b → List.Forall₂ S (f a) (g b)) :
    List.Forall₂ S (l.flatMap f) (m.flatMap g) := by
  induction h with
  | nil => exact .nil
  | cons hhead _ ih =>
      refine List.rel_append (hfg _ _ List.mem_cons_self hhead) (ih ?_)
      intro a b hb
      exact hfg a b (List.mem_cons_of_mem _ hb)

namespace Writing

/-- A writing and an occurrence of the same node with the same values visible, unless it is
in the head of a function. -/
structure Agrees (w : Writing) (o : Occurrence) : Prop where
  node : w.node = o.node
  values : w.inHead = false → w.place.values.SameNames o.scope

/-- A writing and an occurrence of the same part of a tree. -/
inductive Aligned (dialect : Dialect) : Writing → Occurrence → Prop
  | node {w : Writing} {o : Occurrence} (hblock : ∀ bindings body, o.node ≠ .block bindings body)
    (hdialect : w.place.dialect = dialect) (h : w.Agrees o) : Aligned dialect w o
  | block {p : Place} {inHead : Bool} {s : Scope} {bindings bindings' : List Identifier}
    {body : List Statement} (hdialect : p.dialect = dialect)
    (h : inHead = false → (p.values.push bindings).SameNames (s.push bindings')) :
    Aligned dialect ⟨p, inHead, .block bindings body⟩ ⟨s, .block bindings' body⟩
  /-- The body of a function that is written as an expression. -/
  | concise {p : Place} {inHead : Bool} {s : Scope} {bindings : List Identifier} {e : Expr}
    (hdialect : p.dialect = dialect) (h : inHead = false → p.values.SameNames (s.push bindings)) :
    Aligned dialect ⟨p, inHead, .expr e⟩ ⟨s, .block bindings [.returnValue e]⟩

/-! ### Parts of aligned nodes -/

section Parts

variable {p : Place} {s : Scope} {inHead : Bool}

/-- An expression at a place with the names of a scope. -/
theorem aligned_expr (h : inHead = false → p.values.SameNames s) (e : Expr) :
    Aligned p.dialect ⟨p, inHead, .expr e⟩ ⟨s, .expr e⟩ :=
  .node (by simp) rfl ⟨rfl, h⟩

/-- Expressions, one by one. -/
theorem aligned_ofExprs (h : inHead = false → p.values.SameNames s) (es : List Expr) :
    List.Forall₂ (Aligned p.dialect) (ofExprs p inHead es) (Occurrence.ofExprs s es) := by
  rw [ofExprs, Occurrence.ofExprs, List.forall₂_map_left_iff, List.forall₂_map_right_iff,
    List.forall₂_same]
  exact fun e _ => aligned_expr h e

/-- Types, one by one. -/
theorem aligned_ofTypes (h : inHead = false → p.values.SameNames s) (ts : List TypeExpr) :
    List.Forall₂ (Aligned p.dialect) (ofTypes p inHead ts) (Occurrence.ofTypes s ts) := by
  rw [ofTypes, Occurrence.ofTypes, List.forall₂_map_left_iff, List.forall₂_map_right_iff,
    List.forall₂_same]
  exact fun t _ => .node (by simp) rfl ⟨rfl, h⟩

/-- Types that are only written with types. -/
theorem aligned_annotations (h : inHead = false → p.values.SameNames s) (ts : List TypeExpr) :
    List.Forall₂ (Aligned p.dialect) (annotations p inHead ts)
      ((Occurrence.ofTypes s ts).filter (Occurrence.isWritten p.dialect)) := by
  rw [Occurrence.filter_isWritten_ofTypes, annotations, Place.hasTypes]
  by_cases hts : p.dialect = .typeScript
  · simpa [hts] using aligned_ofTypes h ts
  · simp [hts]

/-- The layout enters a block where the census does. -/
theorem aligned_block (h : inHead = false → p.values.SameNames s) (bindings : List Identifier)
    (body : List Statement) :
    Aligned p.dialect ⟨p, inHead, .block bindings body⟩ ⟨s, .block bindings body⟩ :=
  .block rfl fun hhead => (h hhead).push bindings

/-- The body of a function sees the parameters, whichever form it has. -/
theorem aligned_ofBody (h : inHead = false → p.values.SameNames s) (names : List Identifier)
    {q : Place} (hdialect : q.dialect = p.dialect) (hvalues : q.values = p.values.push names)
    (body : List Statement) : Aligned p.dialect (ofBody q inHead body) ⟨s, .block names body⟩ := by
  have hpush : inHead = false → q.values.SameNames (s.push names) := fun hhead =>
    hvalues ▸ (h hhead).push names
  by_cases hconcise : ∃ e, body = [.returnValue e]
  · rcases hconcise with ⟨e, rfl⟩
    exact .concise hdialect hpush
  · rw [ofBody_eq_block fun e he => hconcise ⟨e, he⟩]
    exact .block hdialect fun hhead text =>
      (Scope.SameNames.push_nil _ text).trans (hpush hhead text)

/-- Nothing is said about the values that the head of a function sees. -/
theorem aligned_ofFunction (h : inHead = false → p.values.SameNames s)
    (typeParameters : List TypeParameter) (parameters : List Parameter) (result : List TypeExpr)
    (body : List Statement) :
    List.Forall₂ (Aligned p.dialect)
      (ofFunction (p.bindFunction typeParameters parameters) inHead typeParameters parameters
        result body)
      ((Occurrence.ofTypes s (signatureTypes typeParameters parameters result)
        ++ [Occurrence.mk s (.block (parameters.map Parameter.name) body)]).filter
          (Occurrence.isWritten p.dialect)) := by
  have hbody : Aligned p.dialect (ofBody (p.bindFunction typeParameters parameters) inHead body)
      ⟨s, .block (parameters.map Parameter.name) body⟩ :=
    aligned_ofBody h _ (q := p.bindFunction typeParameters parameters) rfl rfl body
  rw [List.filter_append, ofFunction]
  refine List.rel_append (aligned_annotations (p := p.bindFunction typeParameters parameters)
    (fun hhead => absurd hhead Bool.noConfusion) _) ?_
  exact .cons hbody .nil

/-- The parts of an expression, one by one. -/
theorem aligned_exprWritings (h : inHead = false → p.values.SameNames s) (e : Expr) :
    List.Forall₂ (Aligned p.dialect) (e.writings p inHead)
      ((e.parts s).filter (Occurrence.isWritten p.dialect)) := by
  cases e with
  | lambda isAsync typeParameters parameters returnType body =>
      exact aligned_ofFunction h typeParameters parameters returnType.toList body
  | assertion e type =>
      rw [Expr.parts, List.filter_append, Occurrence.filter_isWritten_ofExprs]
      exact List.rel_append (aligned_ofExprs h [e]) (aligned_annotations h [type])
  | instantiation e arguments =>
      rw [Expr.parts, List.filter_append, Occurrence.filter_isWritten_ofExprs]
      exact List.rel_append (aligned_ofExprs h [e]) (aligned_annotations h arguments)
  | _ =>
      first
        | exact .nil
        | rw [Expr.parts, Occurrence.filter_isWritten_ofExprs]
          exact aligned_ofExprs h _

/-- The blocks of cases, one by one. -/
theorem aligned_caseBlocks (h : inHead = false → p.values.SameNames s) (cases : List SwitchCase) :
    List.Forall₂ (Aligned p.dialect) (cases.map fun c => ⟨p.deeper, inHead, .block [] c.body⟩)
      ((cases.map fun c => (⟨s, .block [] c.body⟩ : Occurrence)).filter
        (Occurrence.isWritten p.dialect)) := by
  induction cases with
  | nil => exact .nil
  | cons c cases ih => exact .cons (aligned_block (p := p.deeper) h [] c.body) ih

/-- The parts of a statement; in the head of a loop the names may differ. -/
theorem aligned_statementWritings (h : inHead = false → p.values.SameNames s)
    (statement : Statement) :
    List.Forall₂ (Aligned p.dialect) (statement.writings p inHead)
      ((statement.parts s).filter (Occurrence.isWritten p.dialect)) := by
  cases statement with
  | ifElse condition thenBody elseBody =>
      exact .cons (aligned_expr h condition)
        (.cons (aligned_block h [] thenBody) (.cons (aligned_block h [] elseBody) .nil))
  | binding isConst name type value =>
      rw [Statement.parts, List.filter_append, Occurrence.filter_isWritten_ofExprs]
      exact List.rel_append (aligned_annotations h type.toList) (aligned_ofExprs h [value])
  | function isAsync name typeParameters parameters returnType body =>
      exact aligned_ofFunction h typeParameters parameters [returnType] body
  | forCount counter bound body =>
      have hcounter : inHead = false →
          (p.bindValues [counter]).values.SameNames (s.push [counter]) := fun hhead =>
        (h hhead).push [counter]
      exact .cons (aligned_expr hcounter bound) (.cons (aligned_block h [counter] body) .nil)
  | forOf element iterable body =>
      exact .cons (aligned_expr h iterable) (.cons (aligned_block h [element] body) .nil)
  | whileTrue body => exact .cons (aligned_block h [] body) .nil
  | switch subject cases => exact .cons (aligned_expr h subject) (aligned_caseBlocks h cases)
  | tryCatch body parameter handler =>
      exact .cons (aligned_block h [] body) (.cons (aligned_block h [parameter] handler) .nil)
  | _ =>
      first
        | exact .nil
        | rw [Statement.parts, Occurrence.filter_isWritten_ofExprs]
          exact aligned_ofExprs h _

/-- The parts of members of an object type. -/
theorem aligned_memberWritings (h : inHead = false → p.values.SameNames s)
    (members : List MemberType) :
    List.Forall₂ (Aligned p.dialect) (MemberType.writings p inHead members)
      (TypeExpr.parts s (.object members)) := by
  rw [MemberType.writings, TypeExpr.parts]
  refine forall₂_flatMap (List.forall₂_same.mpr fun _ _ => rfl) ?_
  rintro m _ _ rfl
  exact List.rel_append (aligned_ofExprs h m.name.exprs) (aligned_ofTypes h [m.type])

/-- A type that is written is written with all its parts. -/
theorem aligned_typeWritings (h : inHead = false → p.values.SameNames s) (t : TypeExpr) :
    List.Forall₂ (Aligned p.dialect) (t.writings p inHead) (t.parts s) := by
  cases t with
  | object members =>
      rw [TypeExpr.writings]
      split
      · exact aligned_memberWritings h members
      · exact aligned_memberWritings (p := p.deeper) h members
  | function typeParameters parameters result =>
      exact aligned_ofTypes (p := p.bindTypes typeParameters) h _
  | _ =>
      first
        | exact .nil
        | exact aligned_ofTypes h _

/-- The parts of a definition, one by one. -/
theorem aligned_definitionWritings (h : inHead = false → p.values.SameNames s)
    (d : Definition) :
    List.Forall₂ (Aligned p.dialect) (d.writings p inHead)
      ((d.parts s).filter (Occurrence.isWritten p.dialect)) := by
  cases d with
  | typeAlias a => exact aligned_annotations (p := p.bindTypes a.typeParameters) h _
  | function f =>
      have hnames : (f.parameters.map DocumentedParameter.toParameter).map Parameter.name =
          f.parameters.map DocumentedParameter.name := List.map_map
      rw [Definition.parts, ← hnames]
      exact aligned_ofFunction h f.typeParameters
        (f.parameters.map DocumentedParameter.toParameter) [f.returnType] f.body
  | binding b =>
      rw [Definition.parts, List.filter_append, Occurrence.filter_isWritten_ofExprs]
      exact List.rel_append (aligned_annotations h b.type.toList) (aligned_ofExprs h [b.value])

/-- Blocks that see the same values are made of statements that do. -/
theorem aligned_statements {bindings bindings' : List Identifier}
    (h : inHead = false → (p.values.push bindings).SameNames (s.push bindings'))
    (body : List Statement) :
    List.Forall₂ (Aligned p.dialect) (parts ⟨p, inHead, .block bindings body⟩)
      (Occurrence.parts ⟨s, .block bindings' body⟩) := by
  rw [parts, Occurrence.parts, List.forall₂_map_left_iff, List.forall₂_map_right_iff,
    List.forall₂_same]
  exact fun statement _ => .node (by simp) rfl ⟨rfl, fun hhead => (h hhead).push_append _⟩

end Parts

/-! ### Everything inside aligned nodes -/

/-- The parts of a node and the parts of an occurrence of it that its dialect writes. -/
theorem Agrees.aligned_parts {w : Writing} {o : Occurrence}
    (hblock : ∀ bindings body, o.node ≠ .block bindings body) (h : w.Agrees o)
    (hwritten : o.isWritten w.place.dialect = true) :
    List.Forall₂ (Aligned w.place.dialect) w.parts
      (o.parts.filter (Occurrence.isWritten w.place.dialect)) := by
  rcases w with ⟨p, inHead, node⟩
  rcases o with ⟨s, node'⟩
  rcases h with ⟨hnode, hvalues⟩
  have hnode : node = node' := hnode
  subst hnode
  cases node with
  | definition d => exact aligned_definitionWritings hvalues d
  | block bindings body => exact absurd rfl (hblock bindings body)
  | statement statement => exact aligned_statementWritings hvalues statement
  | expr e => exact aligned_exprWritings hvalues e
  | type t =>
      have hts : p.dialect = .typeScript := by simpa [Occurrence.isWritten] using hwritten
      rw [List.filter_eq_self.mpr fun q _ => hts ▸ Occurrence.isWritten_typeScript q]
      exact aligned_typeWritings hvalues t

/-- Size of a node, as of an occurrence. -/
noncomputable def extent (w : Writing) : Nat :=
  Occurrence.extent ⟨w.place.values, w.node⟩

/-- What is written has no more extent than the occurrence. -/
theorem Aligned.extent_le {dialect : Dialect} {w : Writing} {o : Occurrence}
    (h : Aligned dialect w o) : w.extent ≤ o.extent := by
  cases h with
  | node _ _ h =>
      rw [extent, h.node]
      exact Nat.le_refl _
  | block => exact Nat.le_refl _
  | concise =>
      simp only [extent, Occurrence.extent, List.cons.sizeOf_spec,
        Statement.returnValue.sizeOf_spec]
      omega

/-- The parts of a writing are parts of the tree. -/
theorem exists_aligned_of_mem_parts {w q : Writing} (hq : q ∈ w.parts) :
    ∃ o ∈ Occurrence.parts ⟨w.place.values, w.node⟩, Aligned w.place.dialect q o := by
  rcases w with ⟨p, inHead, node⟩
  have hsame : inHead = false → p.values.SameNames p.values := fun _ _ => rfl
  have hfiltered : ∀ {ws : List Writing} {os : List Occurrence}, q ∈ ws →
      List.Forall₂ (Aligned p.dialect) ws (os.filter (Occurrence.isWritten p.dialect)) →
        ∃ o ∈ os, Aligned p.dialect q o := by
    intro ws os hws hall
    rcases exists_of_forall₂ hall hws with ⟨o, ho, hqo⟩
    exact ⟨o, List.mem_of_mem_filter ho, hqo⟩
  cases node with
  | definition d => exact hfiltered hq (aligned_definitionWritings hsame d)
  | block bindings body =>
      exact exists_of_forall₂ (aligned_statements (fun _ _ => rfl) body) hq
  | statement statement => exact hfiltered hq (aligned_statementWritings hsame statement)
  | expr e => exact hfiltered hq (aligned_exprWritings hsame e)
  | type t => exact exists_of_forall₂ (aligned_typeWritings hsame t) hq

/-- A node is larger than the parts that are written. -/
theorem extent_lt_of_mem_parts {w q : Writing} (h : q ∈ w.parts) : q.extent < w.extent := by
  rcases exists_aligned_of_mem_parts h with ⟨o, ho, hqo⟩
  exact Nat.lt_of_le_of_lt hqo.extent_le (Occurrence.extent_lt_of_mem_parts ho)

/-- A writing and everything that is written inside it, in the order in which it is
written. -/
def all (w : Writing) : List Writing :=
  w :: w.parts.attach.flatMap fun ⟨q, _⟩ => q.all
termination_by w.extent
decreasing_by exact extent_lt_of_mem_parts ‹_›

/-- All of a writing is the writing and all of its parts. -/
theorem all_eq (w : Writing) : w.all = w :: w.parts.flatMap all := by
  rw [all]
  simp

/-- What holds of a writing whenever it holds of its parts holds of all writings. -/
theorem induction_on {P : Writing → Prop} (w : Writing)
    (step : ∀ w : Writing, (∀ q ∈ w.parts, P q) → P w) : P w := by
  induction hn : w.extent using Nat.strongRecOn generalizing w with
  | ind n ih =>
      refine step w ?_
      intro q hq
      exact ih q.extent (hn ▸ extent_lt_of_mem_parts hq) q rfl

/-- What holds of a writing and passes on to parts holds of everything inside it. -/
theorem all_induction {P : Writing → Prop} {root : Writing} (hroot : P root)
    (step : ∀ w, P w → ∀ q ∈ w.parts, P q) : ∀ q ∈ root.all, P q := by
  induction root using induction_on with
  | step w ih =>
      intro q hq
      rw [all_eq, List.mem_cons, List.mem_flatMap] at hq
      rcases hq with rfl | ⟨r, hr, hqr⟩
      · exact hroot
      · exact ih r hr (step w hroot r hr) q hqr

/-- A writing is in all of itself. -/
theorem mem_all_self (w : Writing) : w ∈ w.all := by
  rw [all_eq]
  exact List.mem_cons_self

/-- What is inside something that is inside a writing is inside the writing. -/
theorem all_subset {root w : Writing} (hw : w ∈ root.all) : w.all ⊆ root.all := by
  induction root using induction_on with
  | step root ih =>
      rw [all_eq root, List.mem_cons, List.mem_flatMap] at hw
      rcases hw with rfl | ⟨r, hr, hwr⟩
      · exact List.Subset.refl _
      · intro q hq
        rw [all_eq root]
        exact List.mem_cons_of_mem root (List.mem_flatMap.mpr ⟨r, hr, ih r hr hwr hq⟩)

/-- So are its parts. -/
theorem mem_all_of_mem_parts {w q : Writing} (hq : q ∈ w.parts) : q ∈ w.all := by
  rw [all_eq]
  exact List.mem_cons_of_mem w (List.mem_flatMap.mpr ⟨q, hq, q.mem_all_self⟩)

/-- Everything inside a writing is written in the same dialect. -/
theorem dialect_of_mem_all {w q : Writing} (hq : q ∈ w.all) :
    q.place.dialect = w.place.dialect := by
  refine all_induction (P := fun q => q.place.dialect = w.place.dialect) rfl ?_ q hq
  intro v hv q hq
  rcases exists_aligned_of_mem_parts hq with ⟨o, -, hqo⟩
  rw [← hv]
  cases hqo with
  | node _ hdialect _ => exact hdialect
  | block hdialect _ => exact hdialect
  | concise hdialect _ => exact hdialect

/-- The references of a tree are those of the nodes in it. -/
theorem references_lexemes (w : Writing) : references w.lexemes = w.all.flatMap own := by
  induction w using induction_on with
  | step w ih =>
      have hparts : listReferences w.parts = w.parts.flatMap fun q => q.all.flatMap own :=
        List.flatMap_congr ih
      rw [references_eq, all_eq, hparts, List.flatMap_cons, List.flatMap_assoc]

/-- Expressions and types inside aligned nodes agree, one with the other in their order. -/
theorem Aligned.terms {dialect : Dialect} {w : Writing} {o : Occurrence}
    (h : Aligned dialect w o) (hwritten : o.isWritten dialect = true) :
    List.Forall₂ Agrees (w.all.filter fun q => q.node.isTerm)
      ((o.written dialect).filter fun q => q.node.isTerm) := by
  induction o using Occurrence.induction_on generalizing w with
  | step o ih =>
      have hrest : ∀ {ws : List Writing},
          List.Forall₂ (Aligned dialect) ws (o.parts.filter (Occurrence.isWritten dialect)) →
            List.Forall₂ Agrees ((ws.flatMap all).filter fun q => q.node.isTerm)
              (((o.parts.filter (Occurrence.isWritten dialect)).flatMap
                (Occurrence.written dialect)).filter fun q => q.node.isTerm) := by
        intro ws hws
        rw [List.filter_flatMap, List.filter_flatMap]
        refine forall₂_flatMap hws ?_
        intro q o' ho' hq
        rcases List.mem_filter.mp ho' with ⟨hmem, hwritten'⟩
        exact ih o' hmem hq hwritten'
      cases h with
      | node hblock hdialect h =>
          subst hdialect
          have hparts := hrest (h.aligned_parts hblock hwritten)
          rw [all_eq, Occurrence.written_eq, List.filter_cons, List.filter_cons, h.node]
          split
          · exact .cons h hparts
          · exact hparts
      | @block p inHead s bindings bindings' body hdialect h =>
          subst hdialect
          have hparts := aligned_statements h body
          rw [← Occurrence.filter_isWritten_statements] at hparts
          rw [all_eq, Occurrence.written_eq]
          exact hrest hparts
      | @concise p inHead s bindings e hdialect h =>
          subst hdialect
          -- A block of one statement is written in place of the expression.
          have hstatement : Aligned p.dialect ⟨p, inHead, .statement (.returnValue e)⟩
              ⟨s.push (bindings ++ []), .statement (.returnValue e)⟩ := by
            refine .node (by simp) rfl ⟨rfl, ?_⟩
            rw [List.append_nil]
            exact h
          have hall : all ⟨p, inHead, .statement (.returnValue e)⟩ =
              ⟨p, inHead, .statement (.returnValue e)⟩ :: all ⟨p, inHead, .expr e⟩ := by
            rw [all_eq]
            exact congrArg _ (List.flatMap_singleton _ _)
          have hparts := hrest (.cons hstatement .nil)
          rw [List.flatMap_singleton, hall] at hparts
          rw [Occurrence.written_eq]
          exact hparts

end Writing

end EcmaWriter
