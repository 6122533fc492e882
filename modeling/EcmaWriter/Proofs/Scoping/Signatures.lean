import EcmaWriter.Proofs.Layout.ConciseBody
import EcmaWriter.Proofs.Scoping.GlobalTypes
import EcmaWriter.Proofs.Scoping.Loops

/-!
# EcmaWriter - What signatures see

The signature of a function are the constraints of its type parameters, the types of its
parameters and the type of its result.  An expression can stand in a signature, as the
computed name of a member.  The layout writes a signature inside the function, where the
parameters are visible; the census looks at it in the surroundings of the function.

So the two do not agree there: in a signature the layout sees what the census sees and the
parameters of the functions whose signatures they are in, and everywhere else both see the
same.  To compare them, an occurrence is taken with these parameters in sight, and a writing
as if it did not stand in the head of a function.

Main results:

- Definition `Surrounded.signatureParameters`: the parameters of the functions in whose
  signatures a node stands.
- Theorem `Writing.Overlaid.parts`: one step down both trees.
- Theorem `Module.signatures_show_parameters`: what the layout sees in all signatures.
- Theorem `Module.exists_parameter_only_written`: a parameter that the layout sees in the
  signature of its function and the census does not.
-/

namespace EcmaWriter

/-! ## Functions and their signatures -/

namespace Node

/-- Whether a node is a type. -/
def isType : Node → Bool
  | .type _ => true
  | _ => false

/-- The parameters that a node shows to one of its parts although they are not in scope there
for the census: those of a function, in its signature. -/
def shows (node part : Node) : List Identifier :=
  if part.isType then node.parameterNames else []

/-- The names of a function are its parameters. -/
theorem parameterNames_of_function {node : Node} {typeParameters : List TypeParameter}
    {parameters : List Parameter} {body : List Statement}
    (h : node.function? = some (typeParameters, parameters, body)) :
    node.parameterNames = parameters.map Parameter.name := by
  rcases of_function?_eq_some h with ⟨f, rfl, -, rfl, -⟩ | ⟨_, _, _, rfl⟩ | ⟨_, _, rfl⟩
  · rw [List.map_map]
    rfl
  · rfl
  · rfl

/-- What is no function has no parameters. -/
theorem parameterNames_of_function_eq_none {node : Node} (h : node.function? = none) :
    node.parameterNames = [] := by
  unfold parameterNames
  split <;> first | rfl | cases h

/-- The parts of a function in the layout and in the census. -/
theorem exists_parts_of_function {node : Node} {typeParameters : List TypeParameter}
    {parameters : List Parameter} {body : List Statement}
    (h : node.function? = some (typeParameters, parameters, body)) :
    ∃ result,
      (∀ p inHead, Writing.parts ⟨p, inHead, node⟩ =
        Writing.ofFunction (p.bindFunction typeParameters parameters) inHead typeParameters
          parameters result body) ∧
      ∀ s, Occurrence.parts ⟨s, node⟩ =
        Occurrence.ofTypes s (signatureTypes typeParameters parameters result)
          ++ [⟨s, .block node.parameterNames body⟩] := by
  rcases of_function?_eq_some h with
    ⟨f, rfl, rfl, rfl, rfl⟩ | ⟨_, _, returnType, rfl⟩ | ⟨_, returnType, rfl⟩
  · exact ⟨[f.returnType], fun _ _ => rfl, fun _ => rfl⟩
  · exact ⟨[returnType], fun _ _ => rfl, fun _ => rfl⟩
  · exact ⟨returnType.toList, fun _ _ => rfl, fun _ => rfl⟩

end Node

/-- The parameters of the functions in whose signatures the first of some nodes stands, if each
node is followed by the one around it. -/
def signatureParameters : List Node → List Identifier
  | part :: node :: around => node.shows part ++ signatureParameters (node :: around)
  | _ => []

/-- The parameters of the functions in whose signatures a node stands. -/
def Surrounded.signatureParameters (s : Surrounded) : List Identifier :=
  EcmaWriter.signatureParameters (s.occurrence.node :: s.around)

/-! ## Nodes in other scopes -/

/-- Names that are in sight around a scope are in sight in it. -/
theorem Scope.sameNames_onto_push (s outer : Scope) (names : List Identifier) :
    (s.onto (outer.push names)).SameNames ((s.onto outer).push names) := by
  intro text
  rw [contains_onto, contains_push, contains_push, contains_onto s outer, Bool.or_left_comm]

/-- It does not matter in which order names are bound. -/
theorem Scope.sameNames_push_comm (s : Scope) (names more : List Identifier) :
    ((s.push names).push more).SameNames ((s.push more).push names) := by
  intro text
  simp only [contains_push, Bool.or_left_comm]

namespace Occurrence

/-- An occurrence in a scope that is put onto another one. -/
def onto (o : Occurrence) (outer : Scope) : Occurrence :=
  { o with scope := o.scope.onto outer }

/-- An occurrence with more names in sight. -/
def showing (o : Occurrence) (names : List Identifier) : Occurrence :=
  { o with scope := o.scope.push names }

section

variable (s outer : Scope)

/-- Expressions in a scope that is put onto another one. -/
theorem ofExprs_onto (es : List Expr) :
    ofExprs (s.onto outer) es = (ofExprs s es).map (onto · outer) := by
  simp [ofExprs, onto]

/-- Types in a scope that is put onto another one. -/
theorem ofTypes_onto (ts : List TypeExpr) :
    ofTypes (s.onto outer) ts = (ofTypes s ts).map (onto · outer) := by
  simp [ofTypes, onto]

/-- Parts of an expression, with the scope put onto another one. -/
theorem exprParts_onto (e : Expr) : e.parts (s.onto outer) = (e.parts s).map (onto · outer) := by
  cases e <;> simp [Expr.parts, ofExprs, ofTypes, onto]

/-- Parts of a statement, with the scope put onto another one. -/
theorem statementParts_onto (statement : Statement) :
    statement.parts (s.onto outer) = (statement.parts s).map (onto · outer) := by
  cases statement <;> simp [Statement.parts, ofExprs, ofTypes, onto, Scope.push, Scope.onto]

/-- Parts of a type, with the scope put onto another one. -/
theorem typeParts_onto (t : TypeExpr) :
    t.parts (s.onto outer) = (t.parts s).map (onto · outer) := by
  cases t <;> simp [TypeExpr.parts, ofExprs, ofTypes, onto, List.map_flatMap, Function.comp_def]

/-- Parts of a definition, with the scope put onto another one. -/
theorem definitionParts_onto (d : Definition) :
    d.parts (s.onto outer) = (d.parts s).map (onto · outer) := by
  cases d <;> simp [Definition.parts, ofExprs, ofTypes, onto]

end

/-- The parts of a node see the same names of the node wherever it stands. -/
theorem parts_onto (o : Occurrence) (outer : Scope) :
    (o.onto outer).parts = o.parts.map (onto · outer) := by
  rcases o with ⟨s, node⟩
  cases node with
  | definition d => exact definitionParts_onto s outer d
  | block bindings body => simp [parts, onto, Scope.push, Scope.onto]
  | statement statement => exact statementParts_onto s outer statement
  | expr e => exact exprParts_onto s outer e
  | type t => exact typeParts_onto s outer t

/-- A node has the same parts in all scopes. -/
theorem parts_eq_map_onto (s : Scope) (node : Node) :
    parts ⟨s, node⟩ = (parts ⟨.root [], node⟩).map (onto · s) :=
  parts_onto ⟨.root [], node⟩ s

end Occurrence

/-- The nodes around a part are the node and those around the node. -/
theorem Occurrence.mem_within_of_mem_parts {root : Occurrence} {around : List Node}
    {s : Surrounded} {q : Occurrence} (hs : s ∈ root.within around)
    (hq : q ∈ s.occurrence.parts) :
    ⟨s.occurrence.node :: s.around, q⟩ ∈ root.within around := by
  induction root using induction_on generalizing around with
  | step root ih =>
      rw [within_eq, List.mem_cons, List.mem_flatMap] at hs ⊢
      rcases hs with rfl | ⟨r, hr, hsr⟩
      · refine .inr ⟨q, hq, ?_⟩
        rw [within_eq]
        exact List.mem_cons_self
      · exact .inr ⟨r, hr, ih r hr hsr⟩

namespace Writing

/-- A writing as if it did not stand in the head of a function. -/
def plain (w : Writing) : Writing :=
  { w with inHead := false }

section

variable (p : Place) (inHead : Bool)

/-- Expressions of a node that stand outside of heads. -/
@[simp] theorem map_plain_ofExprs (es : List Expr) :
    (ofExprs p inHead es).map plain = ofExprs p false es := by
  simp [ofExprs, plain]

/-- Types of a node that stand outside of heads. -/
@[simp] theorem map_plain_ofTypes (ts : List TypeExpr) :
    (ofTypes p inHead ts).map plain = ofTypes p false ts := by
  simp [ofTypes, plain]

/-- Types that are only written with types. -/
@[simp] theorem map_plain_annotations (ts : List TypeExpr) :
    (annotations p inHead ts).map plain = annotations p false ts := by
  rw [annotations, apply_ite (List.map plain), map_plain_ofTypes]
  rfl

/-- The body of a function, whichever form it is written in. -/
@[simp] theorem plain_ofBody (body : List Statement) :
    (ofBody p inHead body).plain = ofBody p false body := by
  unfold ofBody
  split <;> rfl

end

/-- Only functions have a head. -/
theorem map_plain_parts (p : Place) (inHead : Bool) {node : Node} (h : node.function? = none) :
    (parts ⟨p, inHead, node⟩).map plain = parts ⟨p, false, node⟩ := by
  rcases node with (a | f | b) | ⟨bindings, body⟩ | statement | e | t
  case definition.function => cases h
  case statement =>
    cases statement
    case function => cases h
    all_goals simp [parts, Statement.writings, plain]
  case expr =>
    cases e
    case lambda => cases h
    all_goals simp [parts, Expr.writings]
  case type =>
    cases t <;> simp [parts, TypeExpr.writings, MemberType.writings, List.map_flatMap]
  all_goals simp [parts, Definition.writings, plain]

/-! ## Steps -/

/-- A scope may be replaced by one with the same names. -/
theorem Aligned.of_sameNames {dialect : Dialect} {w : Writing} {s t : Scope} {node : Node}
    (h : Aligned dialect w ⟨s, node⟩) (hsame : s.SameNames t) : Aligned dialect w ⟨t, node⟩ := by
  cases h with
  | node hblock hdialect h =>
      refine .node hblock hdialect ⟨h.node, ?_⟩
      exact fun hhead text => (h.values hhead text).trans (hsame text)
  | block hdialect h =>
      exact .block hdialect fun hhead text => (h hhead text).trans (hsame.push _ text)
  | concise hdialect h =>
      exact .concise hdialect fun hhead text => (h hhead text).trans (hsame.push _ text)

/-- A writing and an occurrence of the same part of a tree, where the layout has some more
names in sight than the census. -/
def Overlaid (shown : List Identifier) (w : Writing) (o : Occurrence) : Prop :=
  Aligned .typeScript w.plain (o.showing shown)

/-- The parts of a node: in a signature the layout has the parameters in sight, too. -/
theorem Overlaid.parts {shown : List Identifier} {w : Writing} {o : Occurrence}
    (h : Overlaid shown w o) (hblock : ∀ bindings body, o.node ≠ .block bindings body) :
    List.Forall₂ (fun q r => Overlaid (o.node.shows r.node ++ shown) q r) w.parts o.parts := by
  rcases w with ⟨p, inHead, node⟩
  rcases o with ⟨s, node'⟩
  obtain ⟨hdialect, hagrees⟩ : p.dialect = .typeScript ∧
      Agrees ⟨p, false, node⟩ ⟨s.push shown, node'⟩ := by
    change Aligned .typeScript ⟨p, false, node⟩ ⟨s.push shown, node'⟩ at h
    cases h with
    | node _ hdialect hagrees => exact ⟨hdialect, hagrees⟩
    | block => exact absurd rfl (hblock _ _)
    | concise => exact absurd rfl (hblock _ _)
  obtain rfl : node = node' := hagrees.node
  have hvalues : p.values.SameNames (s.push shown) := hagrees.values rfl
  cases hfunction : node.function? with
  | none =>
      have hwritten := hdialect ▸ Occurrence.isWritten_typeScript ⟨s.push shown, node⟩
      have haligned := hagrees.aligned_parts (o := ⟨s.push shown, node⟩) hblock hwritten
      rw [hdialect, List.filter_eq_self.mpr fun q _ => Occurrence.isWritten_typeScript q,
        ← map_plain_parts p inHead hfunction, List.forall₂_map_left_iff,
        Occurrence.parts_eq_map_onto,
        List.forall₂_map_right_iff] at haligned
      rw [Occurrence.parts_eq_map_onto, List.forall₂_map_right_iff]
      refine haligned.imp ?_
      intro q r hqr
      have hshows : node.shows (r.onto s).node = [] := by
        rw [Node.shows, Node.parameterNames_of_function_eq_none hfunction, ite_self]
      rw [hshows, List.nil_append]
      exact hqr.of_sameNames (Scope.sameNames_onto_push r.scope s shown)
  | some f =>
      obtain ⟨typeParameters, parameters, body⟩ := f
      obtain ⟨result, hwritings, hparts⟩ := Node.exists_parts_of_function hfunction
      have hnames := Node.parameterNames_of_function hfunction
      have htypes : (p.bindFunction typeParameters parameters).hasTypes = true := by
        rw [Place.hasTypes]
        exact decide_eq_true hdialect
      rw [hwritings, hparts, ofFunction, annotations, if_pos htypes]
      refine List.rel_append ?signature (.cons ?inside .nil)
      case signature =>
        rw [ofTypes, Occurrence.ofTypes, List.forall₂_map_left_iff, List.forall₂_map_right_iff,
          List.forall₂_same]
        intro t _
        refine .node (by simp [Occurrence.showing]) hdialect ⟨rfl, ?_⟩
        intro _ text
        have hshows : node.shows (.type t) = parameters.map Parameter.name := hnames
        change (p.values.push (parameters.map Parameter.name)).contains text =
          (s.push (node.shows (.type t) ++ shown)).contains text
        rw [hshows, Scope.contains_push, Scope.contains_push, hvalues, Scope.contains_push]
        simp only [Scope.frameHas, List.any_append, Bool.or_assoc]
      case inside =>
        rw [Overlaid, plain_ofBody, hnames]
        exact hdialect ▸ aligned_ofBody (fun _ => hvalues) (parameters.map Parameter.name)
          (q := p.bindFunction typeParameters parameters) rfl rfl body

/-! ## Everything inside a node -/

/-- A writing of a surrounded node that has in sight what the census has, and the parameters of
the functions in whose signatures the node stands. -/
structure Overlays (w : Writing) (s : Surrounded) : Prop where
  node : w.node = s.occurrence.node
  values : w.place.values.SameNames (s.occurrence.scope.push s.signatureParameters)

/-- The statements in a block. -/
theorem overlaid_statements {p : Place} {inHead : Bool} {s : Scope}
    {shown around bindings : List Identifier} (hdialect : p.dialect = .typeScript)
    (h : (p.values.push around).SameNames ((s.push shown).push bindings)) (body : List Statement) :
    List.Forall₂ (fun q r => Overlaid (Node.shows (.block bindings body) r.node ++ shown) q r)
      (parts ⟨p, inHead, .block around body⟩) (Occurrence.parts ⟨s, .block bindings body⟩) := by
  rw [parts, Occurrence.parts, List.forall₂_map_left_iff, List.forall₂_map_right_iff,
    List.forall₂_same]
  intro statement _
  refine .node (by simp [Occurrence.showing]) hdialect ⟨rfl, ?_⟩
  intro _ text
  exact (h.push_append (blockBindings body) text).trans (Scope.sameNames_push_comm _ _ _ text)

/-- The invariant of going down both trees: the layout shows the parameters of the functions in
whose signatures it is. -/
theorem Overlaid.overlays {w : Writing} {o : Occurrence} {around : List Node}
    (h : Overlaid (signatureParameters (o.node :: around)) w o) :
    List.Forall₂ Overlays (w.all.filter fun q => q.node.isTerm)
      ((o.within around).filter fun s => s.occurrence.node.isTerm) := by
  induction o using Occurrence.induction_on generalizing w around with
  | step o ih =>
      have hrest : ∀ {ws : List Writing},
          List.Forall₂ (fun q r =>
              Overlaid (o.node.shows r.node ++ signatureParameters (o.node :: around)) q r)
            ws o.parts →
          List.Forall₂ Overlays ((ws.flatMap all).filter fun q => q.node.isTerm)
            ((o.parts.flatMap (Occurrence.within (o.node :: around))).filter fun s =>
              s.occurrence.node.isTerm) := by
        intro ws hws
        rw [List.filter_flatMap, List.filter_flatMap]
        exact forall₂_flatMap hws fun q r hr hqr => ih r hr hqr
      rcases w with ⟨p, inHead, node⟩
      rcases o with ⟨s, node'⟩
      rw [Occurrence.within_eq]
      have haligned : Aligned .typeScript ⟨p, false, node⟩
          ⟨s.push (signatureParameters (node' :: around)), node'⟩ := h
      cases haligned with
      | node hblock hdialect hagrees =>
          have hparts := hrest (Overlaid.parts h hblock)
          have hnode : node = node' := hagrees.node
          rw [all_eq, List.filter_cons, List.filter_cons, hnode]
          rw [hnode] at hparts
          split
          · exact .cons ⟨rfl, hagrees.values rfl⟩ hparts
          · exact hparts
      | block hdialect hvalues =>
          rw [all_eq]
          exact hrest (overlaid_statements hdialect (hvalues rfl) _)
      | @concise _ _ _ bindings e hdialect hvalues =>
          -- A block of one statement is written in place of the expression.
          have hstatement : Overlaid
              (signatureParameters (.block bindings [.returnValue e] :: around))
              ⟨p, inHead, .statement (.returnValue e)⟩
              ⟨s.push (bindings ++ []), .statement (.returnValue e)⟩ := by
            refine .node (by simp [Occurrence.showing]) hdialect ⟨rfl, ?_⟩
            intro _ text
            rw [List.append_nil]
            exact (hvalues rfl text).trans (Scope.sameNames_push_comm _ _ _ text)
          have hall : all ⟨p, inHead, .statement (.returnValue e)⟩ =
              ⟨p, inHead, .statement (.returnValue e)⟩ :: all ⟨p, inHead, .expr e⟩ := by
            rw [all_eq]
            exact congrArg _ (List.flatMap_singleton _ _)
          have hbody := hrest (.cons hstatement .nil)
          rw [List.flatMap_singleton, hall] at hbody
          exact hbody

end Writing

namespace Module

/-- What a module has by itself, each with the scope of its occurrence. -/
theorem overlaid_writtenParts (m : Module) :
    List.Forall₂ (Writing.Overlaid []) (m.writtenParts .typeScript) m.parts := by
  have hplain : ∀ w ∈ m.writtenParts .typeScript, w.plain = w := by
    intro w hw
    rcases List.mem_append.mp hw with hw | hw
    · rcases List.mem_map.mp hw with ⟨d, -, rfl⟩
      rfl
    · rw [List.mem_singleton.mp hw]
      rfl
  refine ((List.forall₂_and_left _ _).mpr ⟨hplain, m.aligned_writtenParts .typeScript⟩).imp ?_
  rintro w o ⟨hw, haligned⟩
  rw [Writing.Overlaid, hw]
  exact haligned.of_sameNames fun _ => rfl

/-- Everywhere in a module the layout has in sight what the census has, and the parameters of
the functions in whose signatures it is. -/
theorem forall₂_overlays (m : Module) :
    List.Forall₂ Writing.Overlays ((m.writings .typeScript).filter fun w => w.node.isTerm)
      (m.surrounded.filter fun s => s.occurrence.node.isTerm) := by
  rw [writings, surrounded, List.filter_flatMap, List.filter_flatMap]
  refine forall₂_flatMap m.overlaid_writtenParts ?_
  rintro w o - h
  have hno : Writing.Overlaid (signatureParameters [o.node]) w o := h
  exact hno.overlays

end Module

/-! ## Values in signatures -/

/-- What a writing has in sight, by name. -/
theorem Writing.Overlays.contains_iff {w : Writing} {s : Surrounded} (h : w.Overlays s)
    (n : Identifier) :
    w.place.values.contains n.text = true ↔
      n ∈ s.occurrence.scope.names ∨ n ∈ s.signatureParameters := by
  rw [h.values, Scope.contains_text_iff, Scope.names_push, List.mem_append, or_comm]

namespace Module

/-- In the signatures of functions the layout has in sight what the census has and the
parameters of these functions, and a built-in value is qualified if one of them has its name.
The two agree there exactly if the parameters are in sight of the census anyway, and they agree
everywhere else. -/
theorem signatures_show_parameters (m : Module) :
    m.surrounded.map Surrounded.occurrence = m.occurrences ∧
      m.mentions.filterMap Mention.reference? = m.occurrences.filterMap Occurrence.reference? ∧
      (∀ table links, Lexeme.references (m.layout table .typeScript links) =
        (m.writings .typeScript).flatMap Writing.own) ∧
      List.Forall₂
        (fun w s => w.node = s.occurrence.node ∧
          (∀ n : Identifier, w.place.values.contains n.text = true ↔
            n ∈ s.occurrence.scope.names ∨ n ∈ s.signatureParameters) ∧
          ((∀ n : Identifier,
              w.place.values.contains n.text = s.occurrence.scope.contains n.text) ↔
            ∀ n ∈ s.signatureParameters, n ∈ s.occurrence.scope.names) ∧
          ∀ g table, w.node = .expr (.global g) →
            spellAll table w.lexemes = .ok (Lexeme.qualified
              (decide (g ∈ s.occurrence.scope.names ∨ g ∈ s.signatureParameters)) g))
        ((m.writings .typeScript).filter fun w => w.node.isTerm)
        (m.surrounded.filter fun s => s.occurrence.node.isTerm) := by
  refine ⟨m.map_occurrence_surrounded, m.filterMap_reference?_mentions,
    fun table links => m.references_layout table .typeScript links, m.forall₂_overlays.imp ?_⟩
  intro w s h
  refine ⟨h.node, h.contains_iff, ⟨?_, ?_⟩, ?_⟩
  · intro hsame n hn
    rw [← Scope.contains_text_iff, ← hsame n]
    exact (h.contains_iff n).mpr (.inr hn)
  · intro hparameters n
    rw [Bool.eq_iff_iff, h.contains_iff, Scope.contains_text_iff]
    exact or_iff_left_of_imp (hparameters n)
  · intro g table hg
    have hvisible : w.place.values.contains g.text =
        decide (g ∈ s.occurrence.scope.names ∨ g ∈ s.signatureParameters) := by
      rw [Bool.eq_iff_iff, h.contains_iff, decide_eq_true_iff]
    rw [Writing.spellAll_global hg, hvisible]

/-- Parts of what stands in a module stand in it, with one node more around them. -/
theorem mem_surrounded_of_mem_parts {m : Module} {s : Surrounded} {q : Occurrence}
    (hs : s ∈ m.surrounded) (hq : q ∈ s.occurrence.parts) :
    ⟨s.occurrence.node :: s.around, q⟩ ∈ m.surrounded := by
  rcases List.mem_flatMap.mp hs with ⟨root, hroot, hsroot⟩
  exact List.mem_flatMap.mpr ⟨root, hroot, Occurrence.mem_within_of_mem_parts hsroot hq⟩

/-- The type of a parameter with a member that is named by the parameter: the layout has the
parameter in sight, the census does not and rejects the module. -/
theorem exists_parameter_only_written :
    let x := Identifier.ofString "x"
    let type : TypeExpr := .object [⟨.computed (.reference x), true, false, .number, ""⟩]
    let f : FunctionDefinition :=
      ⟨false, false, .ofString "f", "", [], [⟨x, "", type⟩], .void, []⟩
    let m : Module := ⟨[.function f], []⟩
    (∃ w ∈ m.writings .typeScript, w.node = .expr (.reference x) ∧
      w.place.values.contains x.text = true) ∧
    (∃ s ∈ m.surrounded, s.occurrence.node = .expr (.reference x) ∧
      s.occurrence.scope.contains x.text = false ∧ s.signatureParameters = [x]) ∧
    m.census .reject = .error (.unresolvedVariable x) ∧
    (m.generate ⟨.typeScript, [], .tolerate⟩).toOption = some ("/* eslint-disable */\n"
      ++ "/* generated by gen-js. Do not edit! */\n\n"
      ++ "const f = (x: \x7b [x]: number \x7d): void => \x7b\x7d;\n") := by
  intro x type f m
  refine ⟨?written, ?surrounded, ?census, ?generate⟩
  case written =>
    have hdefinition : ⟨m.place .typeScript, false, .definition (.function f)⟩ ∈
        m.writings .typeScript := mem_writings_of_mem List.mem_cons_self
    have htype := mem_writings_of_mem_parts hdefinition List.mem_cons_self
    exact ⟨_, mem_writings_of_mem_parts htype List.mem_cons_self, rfl, rfl⟩
  case surrounded =>
    have hdefinition : ⟨[], ⟨m.scope, .definition (.function f)⟩⟩ ∈ m.surrounded := by
      refine List.mem_flatMap.mpr ⟨_, List.mem_cons_self, ?_⟩
      rw [Occurrence.within_eq]
      exact List.mem_cons_self
    have htype := mem_surrounded_of_mem_parts hdefinition List.mem_cons_self
    exact ⟨_, mem_surrounded_of_mem_parts htype List.mem_cons_self, rfl, rfl, rfl⟩
  case census => rfl
  case generate => decide +kernel +revert

end Module

end EcmaWriter
