import EcmaWriter.Proofs.Imports.Agreement

/-!
# EcmaWriter - The order of visits

The names and the paths of a census are kept in the order of their first mention, and
imports are named and written in that order.  This file says what the order is, without
scopes, faults or policies: a node has stops, each of which is a name, a path or a node
inside it, and a visit makes the stops from left to right and goes into the nodes.

A policy for references that nothing binds has no place in a visit.  It can only end the
census early, so where the strict census ends well the tolerant one has the same result.

Main results:

- Definition `Node.stops`: what is met in a node, and in which order.
- Theorem `Module.entries_eq_mentions`: a visit of a module meets what the census takes in.
- Theorem `Module.census_lists_visits`: whatever the policy, a census that ends well has the
  visited names and paths without their later repeats; and where the strict census ends
  well, the tolerant one, and with it all text, is the same.
-/

namespace EcmaWriter

/-! ## Visits -/

/-- A name or a path that is met on a visit. -/
inductive Entry
  | name (name : Identifier)
  | path (path : String)

namespace Entry

/-- The name that is met. -/
def name? : Entry → Option Identifier
  | name n => some n
  | path _ => none

/-- The path that is met. -/
def path? : Entry → Option String
  | name _ => none
  | path p => some p

end Entry

/-- A stop of a visit. -/
inductive Stop
  | entry (entry : Entry)
  /-- A node that is visited before the next stop. -/
  | inside (node : Node)

namespace Stop

/-- Names one after the other. -/
def names (ns : List Identifier) : List Stop :=
  ns.map fun n => entry (.name n)

/-- Expressions one after the other. -/
def exprs (es : List Expr) : List Stop :=
  es.map fun e => inside (.expr e)

/-- Types one after the other. -/
def types (ts : List TypeExpr) : List Stop :=
  ts.map fun t => inside (.type t)

/-- The head of a function: its type parameters before its parameters, the names of
either before their types, and the type of the result. -/
def head (typeParameters : List TypeParameter) (parameters : List Parameter)
    (result : List TypeExpr) : List Stop :=
  names (typeParameters.map TypeParameter.name)
    ++ types (typeParameters.filterMap TypeParameter.constraint)
    ++ names (parameters.map Parameter.name)
    ++ types (parameters.filterMap Parameter.type ++ result)

/-- The node that is visited. -/
def node? : Stop → Option Node
  | entry _ => none
  | inside node => some node

end Stop

open Stop (names exprs types head)

/-- The stops in an expression. -/
def Expr.stops : Expr → List Stop
  | .unary _ e => exprs [e]
  | .binary _ left right => exprs [left, right]
  | .conditional condition thenExpr elseExpr => exprs [condition, thenExpr, elseExpr]
  | .array items => exprs (items.map ArrayItem.expr)
  | .object members => exprs (members.flatMap Member.exprs)
  | .lambda _ typeParameters parameters returnType body =>
    head typeParameters parameters returnType.toList
      ++ [.inside (.block (parameters.map Parameter.name) body)]
  | .global name => names [name]
  | .imported path name => names [Identifier.ofString name] ++ [.entry (.path path)]
  | .get base property => exprs [base, property]
  | .call callee arguments => exprs (callee :: arguments)
  | .new callee arguments => exprs (callee :: arguments)
  | .assertion e type => exprs [e] ++ types [type]
  | .instantiation e arguments => exprs [e] ++ types arguments
  | _ => []

/-- The stops in a statement. The names that a block is given are met in the block, the
bound of a counting loop therefore before the counter. -/
def Statement.stops : Statement → List Stop
  | .evaluate e => exprs [e]
  | .set target _ value => exprs [target, value]
  | .ifElse condition thenBody elseBody =>
    exprs [condition] ++ [.inside (.block [] thenBody), .inside (.block [] elseBody)]
  | .throwError e => exprs [e]
  | .returnValue e => exprs [e]
  | .binding _ _ type value => types type.toList ++ exprs [value]
  | .function _ _ typeParameters parameters returnType body =>
    head typeParameters parameters [returnType]
      ++ [.inside (.block (parameters.map Parameter.name) body)]
  | .forCount counter bound body => exprs [bound] ++ [.inside (.block [counter] body)]
  | .forOf element iterable body => exprs [iterable] ++ [.inside (.block [element] body)]
  | .whileTrue body => [.inside (.block [] body)]
  | .switch subject cases =>
    exprs [subject] ++ cases.map fun c => .inside (.block [] c.body)
  | .tryCatch body parameter handler =>
    [.inside (.block [] body), .inside (.block [parameter] handler)]
  | _ => []

/-- The stops in a type. Of the namespaces around a global type only the outermost one
is met. -/
def TypeExpr.stops : TypeExpr → List Stop
  | .object members => members.flatMap fun m => exprs m.name.exprs ++ types [m.type]
  | .function typeParameters parameters result =>
    names (typeParameters.map TypeParameter.name)
      ++ types (typeParameters.filterMap TypeParameter.constraint ++ parameters ++ [result])
  | .union ts => types ts
  | .intersection left right => types [left, right]
  | .imported path name arguments => [.entry (.path path)] ++ names [name] ++ types arguments
  | .inFile name arguments => names [name] ++ types arguments
  | .global name arguments => names [name] ++ types arguments
  | .namespaced path name arguments => names (path.take 1 ++ [name]) ++ types arguments
  | _ => []

/-- The stops in a definition. Its own name is met at the start of the module. -/
def Definition.stops : Definition → List Stop
  | .typeAlias a =>
    names (a.typeParameters.map TypeParameter.name)
      ++ types (a.typeParameters.filterMap TypeParameter.constraint ++ [a.type])
  | .function f =>
    head f.typeParameters (f.parameters.map DocumentedParameter.toParameter) [f.returnType]
      ++ [.inside (.block (f.parameters.map DocumentedParameter.name) f.body)]
  | .binding b => types b.type.toList ++ exprs [b.value]

/-- The stops in a node. In a block all names come before the first statement. -/
def Node.stops : Node → List Stop
  | .definition d => d.stops
  | .block bindings body =>
    Stop.names (bindings ++ blockBindings body) ++ body.map fun s => .inside (.statement s)
  | .statement s => s.stops
  | .expr e => e.stops
  | .type t => t.stops

/-- The stops in a module: the names of its types, those of its values, its definitions
and the block of its statements. -/
def Module.stops (m : Module) : List Stop :=
  names m.typeNames ++ names m.valueNames
    ++ m.definitions.map (fun d => .inside (.definition d)) ++ [.inside (.block [] m.statements)]

/-! ## Going into nodes -/

section Nodes

variable (s : Scope)

open Occurrence (ofExprs ofTypes)

/-- No name is a node. -/
@[simp] theorem Stop.filterMap_node?_names (ns : List Identifier) :
    (names ns).filterMap Stop.node? = [] := by
  induction ns with
  | nil => rfl
  | cons n ns ih => exact ih

/-- Stops at expressions are the expressions. -/
@[simp] theorem Stop.filterMap_node?_exprs (es : List Expr) :
    (exprs es).filterMap Stop.node? = es.map Node.expr := by
  simp [exprs, Function.comp_def, Stop.node?]

/-- Stops at types are the types. -/
@[simp] theorem Stop.filterMap_node?_types (ts : List TypeExpr) :
    (types ts).filterMap Stop.node? = ts.map Node.type := by
  simp [types, Function.comp_def, Stop.node?]

/-- Nodes of expressions are the expressions. -/
@[simp] theorem Occurrence.map_node_ofExprs (es : List Expr) :
    (ofExprs s es).map Occurrence.node = es.map Node.expr := by
  simp [ofExprs]

/-- Nodes of types are the types. -/
@[simp] theorem Occurrence.map_node_ofTypes (ts : List TypeExpr) :
    (ofTypes s ts).map Occurrence.node = ts.map Node.type := by
  simp [ofTypes]

/-- The nodes that are visited in a node are its parts, from left to right. -/
theorem Node.filterMap_node?_stops (node : Node) :
    node.stops.filterMap Stop.node? = (Occurrence.parts ⟨s, node⟩).map Occurrence.node := by
  cases node with
  | definition d =>
      cases d <;> simp [Node.stops, Definition.stops, head, Occurrence.parts, Definition.parts,
        signatureTypes, Stop.node?]
  | block bindings body =>
      simp [Node.stops, Occurrence.parts, Function.comp_def, Stop.node?]
  | statement statement =>
      cases statement <;> simp [Node.stops, Statement.stops, head, Occurrence.parts,
        Statement.parts, signatureTypes, Stop.node?, Function.comp_def]
  | expr e =>
      cases e <;> simp [Node.stops, Expr.stops, head, Occurrence.parts, Expr.parts,
        signatureTypes, Stop.node?]
  | type t =>
      cases t <;> simp [Node.stops, TypeExpr.stops, Occurrence.parts, TypeExpr.parts,
        List.filterMap_flatMap, List.filterMap_cons, List.map_flatMap, Stop.node?]

/-- A visit goes into nodes with less extent. -/
theorem Node.extent_lt_of_mem_stops {node q : Node} (h : Stop.inside q ∈ node.stops) :
    (Occurrence.mk s q).extent < (Occurrence.mk s node).extent := by
  have hq : q ∈ node.stops.filterMap Stop.node? := List.mem_filterMap.mpr ⟨_, h, rfl⟩
  rw [Node.filterMap_node?_stops s, List.mem_map] at hq
  rcases hq with ⟨o, hpart, rfl⟩
  have hlt := Occurrence.extent_lt_of_mem_parts hpart
  exact hlt

end Nodes

/-- What a visit of a node meets. -/
def Node.entries (node : Node) : List Entry :=
  node.stops.attach.flatMap fun
    | ⟨.entry e, _⟩ => [e]
    | ⟨.inside q, _⟩ => q.entries
termination_by (Occurrence.mk (.root []) node).extent
decreasing_by exact Node.extent_lt_of_mem_stops _ ‹_›

/-- What a stop adds to a visit. -/
def Stop.entries : Stop → List Entry
  | .entry e => [e]
  | .inside node => node.entries

/-- A visit makes one stop after the other. -/
theorem Node.entries_eq (node : Node) : node.entries = node.stops.flatMap Stop.entries := by
  have hstop : (fun stop : {stop // stop ∈ node.stops} =>
      match stop with
      | ⟨.entry e, _⟩ => [e]
      | ⟨.inside q, _⟩ => q.entries) = fun stop => stop.val.entries := by
    funext ⟨stop, hmem⟩
    cases stop <;> rfl
  rw [Node.entries, hstop, List.flatMap_subtype (g := Stop.entries) (by simp)]
  simp

/-! ## Visits and mentions -/

/-- What a mention adds to the census. -/
def Mention.entry? : Mention → Option Entry
  | .name n => some (.name n)
  | .path p => some (.path p)
  | .distinct _ => none
  | .reference _ _ => none

section Mentions

variable (s : Scope)

open Occurrence (ofExprs ofTypes)

/-- Names are met as they are. -/
@[simp] theorem filterMap_entry?_names (ns : List Identifier) :
    (Mention.names ns).filterMap Mention.entry? = (names ns).flatMap Stop.entries := by
  induction ns with
  | nil => rfl
  | cons n ns ih => exact congrArg (Entry.name n :: ·) ih

/-- Nodes that are gone into meet what they mention, if each of them does. -/
theorem filterMap_entry?_mentions {qs : List Occurrence} {stops : List Stop}
    (h : ∀ q ∈ qs, q.mentions.filterMap Mention.entry? = q.node.entries)
    (hstops : stops = qs.map fun q => .inside q.node) :
    (qs.flatMap Occurrence.mentions).filterMap Mention.entry? = stops.flatMap Stop.entries := by
  rw [hstops, List.filterMap_flatMap, List.flatMap_map]
  exact List.flatMap_congr h

/-- What is met in expressions is met in each of them. -/
theorem filterMap_entry?_exprs {es : List Expr}
    (h : ∀ q ∈ ofExprs s es, q.mentions.filterMap Mention.entry? = q.node.entries) :
    ((ofExprs s es).flatMap Occurrence.mentions).filterMap Mention.entry? =
      (exprs es).flatMap Stop.entries :=
  filterMap_entry?_mentions h (by simp [exprs, ofExprs])

/-- What is met in types is met in each of them. -/
theorem filterMap_entry?_types {ts : List TypeExpr}
    (h : ∀ q ∈ ofTypes s ts, q.mentions.filterMap Mention.entry? = q.node.entries) :
    ((ofTypes s ts).flatMap Occurrence.mentions).filterMap Mention.entry? =
      (types ts).flatMap Stop.entries :=
  filterMap_entry?_mentions h (by simp [types, ofTypes])

/-- A block meets the names that it binds, and then what is in it. -/
theorem filterMap_entry?_block {bindings : List Identifier} {body : List Statement}
    (h : ∀ q ∈ [Occurrence.mk s (.block bindings body)],
      q.mentions.filterMap Mention.entry? = q.node.entries) :
    (Mention.block bindings body
        (Statement.listMentions (s.enterBlock bindings body) body)).filterMap Mention.entry? =
      [Stop.inside (.block bindings body)].flatMap Stop.entries := by
  rw [List.forall_mem_singleton] at h
  rw [List.flatMap_singleton]
  exact h

/-- The head of a function is visited in the order of its mentions. -/
theorem filterMap_entry?_signature (pk tk : NameKind) {typeParameters : List TypeParameter}
    {parameters : List Parameter} (result : Option TypeExpr)
    (h : ∀ q ∈ ofTypes s (signatureTypes typeParameters parameters result.toList),
      q.mentions.filterMap Mention.entry? = q.node.entries) :
    (Mention.signature pk tk typeParameters parameters
        (TypeParameter.listMentions s typeParameters) (Parameter.listMentions s parameters)
        (TypeExpr.optionMentions s result)).filterMap Mention.entry? =
      (head typeParameters parameters result.toList).flatMap Stop.entries := by
  rw [signatureTypes, List.append_assoc, Occurrence.ofTypes_append,
    List.forall_mem_append] at h
  obtain ⟨hconstraints, htypes⟩ := h
  have htypes' := filterMap_entry?_types s htypes
  rw [Occurrence.ofTypes_append, List.flatMap_append] at htypes'
  simp only [Mention.signature, head, TypeParameter.listMentions_eq,
    Parameter.listMentions_eq, TypeExpr.optionMentions_eq, List.filterMap_append,
    List.flatMap_append, filterMap_entry?_names, filterMap_entry?_types s hconstraints,
    ← htypes', List.append_assoc]
  rfl

/-- Names that must differ are met after one another. -/
theorem filterMap_entry?_group (declared : List Declared) (ns : List Identifier)
    (rest : List Mention) :
    (Mention.distinct declared :: Mention.names ns ++ rest).filterMap Mention.entry? =
      (names ns).flatMap Stop.entries ++ rest.filterMap Mention.entry? := by
  rw [List.filterMap_append, ← filterMap_entry?_names]
  rfl

/-- What is met in an expression, if the visits of its parts are right. -/
theorem Expr.filterMap_entry?_step {e : Expr}
    (h : ∀ q ∈ e.parts s, q.mentions.filterMap Mention.entry? = q.node.entries) :
    (e.mentions s).filterMap Mention.entry? = e.stops.flatMap Stop.entries := by
  cases e with
  | array items =>
      rw [Expr.mentions, ArrayItem.listMentions_eq]
      exact filterMap_entry?_exprs s h
  | object members =>
      rw [Expr.mentions, Member.listMentions_eq]
      exact filterMap_entry?_exprs s h
  | call callee arguments | new callee arguments =>
      rw [Expr.mentions, Expr.listMentions_eq]
      exact filterMap_entry?_exprs s h
  | lambda isAsync typeParameters parameters returnType body =>
      obtain ⟨hhead, hbody⟩ := List.forall_mem_append.mp h
      rw [Expr.mentions, List.filterMap_append, filterMap_entry?_signature s _ _ _ hhead,
        filterMap_entry?_block s hbody, Expr.stops, List.flatMap_append]
  | instantiation e arguments =>
      obtain ⟨he, harguments⟩ := List.forall_mem_append.mp h
      rw [Expr.mentions, TypeExpr.listMentions_eq, List.filterMap_append, Expr.stops,
        List.flatMap_append, ← filterMap_entry?_exprs s he, filterMap_entry?_types s harguments]
      simp [Occurrence.mentions]
  | assertion e type =>
      obtain ⟨he, htype⟩ := List.forall_mem_append.mp h
      rw [Expr.mentions, List.filterMap_append, Expr.stops, List.flatMap_append,
        ← filterMap_entry?_exprs s he, ← filterMap_entry?_types s htype]
      simp [Occurrence.mentions]
  | unary op e =>
      rw [Expr.stops, ← filterMap_entry?_exprs s h]
      simp [Expr.mentions, Occurrence.mentions]
  | binary op left right =>
      rw [Expr.stops, ← filterMap_entry?_exprs s h]
      simp [Expr.mentions, Occurrence.mentions]
  | get base property =>
      rw [Expr.stops, ← filterMap_entry?_exprs s h]
      simp [Expr.mentions, Occurrence.mentions]
  | conditional condition thenExpr elseExpr =>
      rw [Expr.stops, ← filterMap_entry?_exprs s h]
      simp [Expr.mentions, Occurrence.mentions]
  | _ => rfl

/-- What is met in a statement, if the visits of its parts are right. -/
theorem Statement.filterMap_entry?_step {statement : Statement}
    (h : ∀ q ∈ statement.parts s, q.mentions.filterMap Mention.entry? = q.node.entries) :
    (statement.mentions s).filterMap Mention.entry? =
      statement.stops.flatMap Stop.entries := by
  cases statement with
  | evaluate e | «throwError» e | returnValue e =>
      rw [Statement.stops, ← filterMap_entry?_exprs s h]
      simp [Statement.mentions, Occurrence.mentions]
  | set target op value =>
      rw [Statement.stops, ← filterMap_entry?_exprs s h]
      simp [Statement.mentions, Occurrence.mentions]
  | ifElse condition thenBody elseBody =>
      obtain ⟨hcondition, hbodies⟩ := List.forall_mem_append.mp h
      rw [Statement.stops, List.flatMap_append, ← filterMap_entry?_exprs s hcondition]
      refine Eq.trans ?_ (congrArg _ (filterMap_entry?_mentions hbodies rfl))
      simp [Statement.mentions, Occurrence.mentions]
  | binding isConst name type value =>
      obtain ⟨htype, hvalue⟩ := List.forall_mem_append.mp h
      rw [Statement.mentions, TypeExpr.optionMentions_eq, List.filterMap_append, Statement.stops,
        List.flatMap_append, ← filterMap_entry?_exprs s hvalue, filterMap_entry?_types s htype]
      simp [Occurrence.mentions]
  | function isAsync name typeParameters parameters returnType body =>
      obtain ⟨hhead, hbody⟩ := List.forall_mem_append.mp h
      rw [Statement.mentions, List.filterMap_append, filterMap_entry?_block s hbody,
        Statement.stops, List.flatMap_append]
      exact congrArg (· ++ _) (filterMap_entry?_signature s _ _ (some returnType) hhead)
  | forCount counter bound body =>
      obtain ⟨hbound, hbody⟩ := List.forall_mem_append.mp h
      rw [Statement.mentions, List.filterMap_append, filterMap_entry?_block s hbody,
        Statement.stops, List.flatMap_append, ← filterMap_entry?_exprs _ hbound]
      simp [Occurrence.mentions]
  | forOf element iterable body =>
      obtain ⟨hiterable, hbody⟩ := List.forall_mem_append.mp h
      rw [Statement.mentions, List.filterMap_append, filterMap_entry?_block s hbody,
        Statement.stops, List.flatMap_append, ← filterMap_entry?_exprs _ hiterable]
      simp [Occurrence.mentions]
  | whileTrue body => exact filterMap_entry?_block s h
  | switch subject cases =>
      obtain ⟨hsubject, hcases⟩ := List.forall_mem_append.mp h
      rw [Statement.mentions, SwitchCase.listMentions_eq, List.filterMap_append,
        filterMap_entry?_mentions hcases rfl, Statement.stops, List.flatMap_append,
        ← filterMap_entry?_exprs s hsubject, List.map_map]
      simp [Occurrence.mentions, Function.comp_def]
  | tryCatch body parameter handler =>
      refine Eq.trans ?_ (filterMap_entry?_mentions h rfl)
      simp [Statement.mentions, Statement.parts, Occurrence.mentions]
  | _ => rfl

/-- What is met in a type, if the visits of its parts are right. -/
theorem TypeExpr.filterMap_entry?_step {t : TypeExpr}
    (h : ∀ q ∈ t.parts s, q.mentions.filterMap Mention.entry? = q.node.entries) :
    (t.mentions s).filterMap Mention.entry? = t.stops.flatMap Stop.entries := by
  cases t with
  | object members =>
      rw [TypeExpr.mentions, MemberType.listMentions_eq]
      refine filterMap_entry?_mentions h ?_
      simp [TypeExpr.stops, List.map_flatMap, exprs, types, ofExprs, ofTypes, Function.comp_def]
  | function typeParameters parameters result =>
      rw [TypeExpr.mentions, List.append_assoc, List.append_assoc, Mention.distinctAs,
        filterMap_entry?_group, TypeExpr.stops, List.flatMap_append,
        ← filterMap_entry?_types s h, TypeParameter.listMentions_eq, TypeExpr.listMentions_eq]
      simp [Occurrence.mentions]
  | union ts =>
      rw [TypeExpr.mentions, TypeExpr.listMentions_eq]
      exact filterMap_entry?_types s h
  | intersection left right =>
      rw [TypeExpr.stops, ← filterMap_entry?_types s h]
      simp [TypeExpr.mentions, Occurrence.mentions]
  | imported path name arguments =>
      rw [TypeExpr.mentions, TypeExpr.listMentions_eq, TypeExpr.stops, List.flatMap_append,
        ← filterMap_entry?_types s h]
      rfl
  | inFile name arguments | global name arguments =>
      rw [TypeExpr.mentions, TypeExpr.listMentions_eq, TypeExpr.stops, List.flatMap_append,
        ← filterMap_entry?_types s h]
      rfl
  | namespaced path name arguments =>
      rw [TypeExpr.mentions, TypeExpr.listMentions_eq, TypeExpr.stops, List.flatMap_append,
        ← filterMap_entry?_types s h, ← filterMap_entry?_names, ← List.filterMap_append]
      simp [Mention.names]
  | _ => rfl

/-- What is met in a definition, if the visits of its parts are right. -/
theorem Definition.filterMap_entry?_step {d : Definition}
    (h : ∀ q ∈ d.parts s, q.mentions.filterMap Mention.entry? = q.node.entries) :
    (d.mentions s).filterMap Mention.entry? = d.stops.flatMap Stop.entries := by
  cases d with
  | typeAlias a =>
      rw [Definition.mentions, List.append_assoc, Mention.distinctAs, filterMap_entry?_group,
        Definition.stops, List.flatMap_append, ← filterMap_entry?_types s h,
        TypeParameter.listMentions_eq]
      simp [Occurrence.mentions]
  | function f =>
      obtain ⟨hhead, hbody⟩ := List.forall_mem_append.mp h
      rw [Definition.mentions, map_name_map_toParameter, List.filterMap_append,
        filterMap_entry?_block s hbody, Definition.stops, List.flatMap_append]
      exact congrArg (· ++ _) (filterMap_entry?_signature s _ _ (some f.returnType) hhead)
  | binding b =>
      obtain ⟨htype, hvalue⟩ := List.forall_mem_append.mp h
      rw [Definition.mentions, TypeExpr.optionMentions_eq, List.filterMap_append,
        Definition.stops, List.flatMap_append, ← filterMap_entry?_exprs s hvalue,
        filterMap_entry?_types s htype]
      simp [Occurrence.mentions]

end Mentions

/-- A visit of a tree meets what the tree mentions, whatever the scope around it. -/
theorem Occurrence.filterMap_entry?_mentions (o : Occurrence) :
    o.mentions.filterMap Mention.entry? = o.node.entries := by
  induction o using Occurrence.induction_on with
  | step o ih =>
      rw [Node.entries_eq]
      rcases o with ⟨s, node⟩
      cases node with
      | definition d => exact Definition.filterMap_entry?_step s ih
      | block bindings body =>
          have hbody := EcmaWriter.filterMap_entry?_mentions ih rfl
          rw [Occurrence.mentions, Mention.block, Mention.distinctAs, filterMap_entry?_group,
            Statement.listMentions_eq]
          exact (congrArg _ hbody).trans (by simp [Node.stops, parts, Function.comp_def])
      | statement statement => exact Statement.filterMap_entry?_step s ih
      | expr e => exact Expr.filterMap_entry?_step s ih
      | type t => exact TypeExpr.filterMap_entry?_step s ih

namespace Module

/-- What a visit of a module meets. -/
def entries (m : Module) : List Entry :=
  m.stops.flatMap Stop.entries

/-- The names in a module in the order of a visit, as often as they are met. -/
def visitedNames (m : Module) : List Identifier :=
  m.entries.filterMap Entry.name?

/-- The paths in a module in the order of a visit, as often as they are met. -/
def visitedPaths (m : Module) : List String :=
  m.entries.filterMap Entry.path?

/-- A visit of a module meets what the census takes in. -/
theorem entries_eq_mentions (m : Module) : m.entries = m.mentions.filterMap Mention.entry? := by
  have hdefinitions : (m.definitions.flatMap (Definition.mentions m.scope)).filterMap
        Mention.entry? =
      (m.definitions.map fun d => Stop.inside (.definition d)).flatMap Stop.entries := by
    rw [List.filterMap_flatMap, List.flatMap_map]
    exact List.flatMap_congr fun d _ =>
      Occurrence.filterMap_entry?_mentions ⟨m.scope, .definition d⟩
  have hstatements : (Mention.block [] m.statements
        (Statement.listMentions (m.scope.enterBlock [] m.statements) m.statements)).filterMap
          Mention.entry? =
      [Stop.inside (.block [] m.statements)].flatMap Stop.entries := by
    rw [List.flatMap_singleton]
    exact Occurrence.filterMap_entry?_mentions ⟨m.scope, .block [] m.statements⟩
  simp only [entries, stops, mentions, List.append_assoc, filterMap_entry?_group]
  simp only [List.filterMap_append, List.flatMap_append, filterMap_entry?_names, hdefinitions,
    hstatements]

/-- The visited names are those among the mentions. -/
theorem visitedNames_eq (m : Module) : m.visitedNames = m.mentions.filterMap Mention.name? := by
  rw [visitedNames, entries_eq_mentions, List.filterMap_filterMap]
  congr 1
  funext x
  cases x <;> rfl

/-- The visited paths are those among the mentions. -/
theorem visitedPaths_eq (m : Module) : m.visitedPaths = m.mentions.filterMap Mention.path? := by
  rw [visitedPaths, entries_eq_mentions, List.filterMap_filterMap]
  congr 1
  funext x
  cases x <;> rfl

end Module

/-! ## Removing repeats -/

namespace OrderedSet

variable {α : Type} [DecidableEq α]

/-- Insertions append what is new, each element once. -/
theorem toList_insertAll (s : OrderedSet α) (l : List α) :
    (s.insertAll l).toList = s.toList ++ (l.filter fun a => a ∉ s.toList).eraseDups := by
  induction l generalizing s with
  | nil => simp
  | cons a l ih =>
      rw [insertAll_cons, ih, toList_insert]
      by_cases ha : a ∈ s.toList
      · simp [ha]
      · have hrest : (l.filter fun b => b ∉ s.toList ++ [a]) =
            (l.filter fun b => b ∉ s.toList).filter fun b => !b == a := by
          rw [List.filter_filter]
          refine List.filter_congr fun b _ => ?_
          simp [and_comm, Bool.beq_eq_decide_eq]
        rw [if_neg ha, List.filter_cons_of_pos (by simpa using ha), List.eraseDups_cons, hrest,
          List.append_assoc, List.singleton_append]

/-- A list becomes a set by removing later repeats. -/
theorem toList_ofList (l : List α) : (ofList l).toList = l.eraseDups := by
  rw [ofList, toList_insertAll, toList_empty]
  simp

end OrderedSet

/-! ## Policies -/

/-- What is left of a fault where references need not resolve. -/
def Fault.tolerated? : Fault → Option Fault
  | .unresolvedVariable _ => none
  | f => some f

/-- Tolerance leaves out faults and adds none. -/
theorem Mention.fault?_tolerate (x : Mention) :
    x.fault? .tolerate = (x.fault? .reject).bind Fault.tolerated? := by
  cases x with
  | distinct declared =>
      rw [fault?, fault?, Option.bind_map]
      cases firstRepeat? [] declared <;> rfl
  | name n => rfl
  | path p => rfl
  | reference scope n =>
      rw [fault?, fault?]
      split <;> rfl

namespace Module

variable {m : Module} {c : Census}

/-- The faults of the tolerant census are those of the strict one that are not about
references. -/
theorem filterMap_fault?_tolerate (l : List Mention) :
    l.filterMap (Mention.fault? .tolerate) =
      (l.filterMap (Mention.fault? .reject)).filterMap Fault.tolerated? := by
  rw [List.filterMap_filterMap]
  congr 1
  funext x
  exact x.fault?_tolerate

/-- A census that ends well has the visited names and paths without later repeats. -/
theorem toList_census {policy : UnresolvedPolicy} (h : m.census policy = .ok c) :
    c.names.toList = m.visitedNames.eraseDups ∧ c.paths.toList = m.visitedPaths.eraseDups := by
  rcases census_eq_ok_iff.mp h with ⟨-, rfl⟩
  rw [visitedNames_eq, visitedPaths_eq, ← OrderedSet.toList_ofList, ← OrderedSet.toList_ofList]
  exact ⟨rfl, rfl⟩

/-- What the strict policy accepts has the same census under the other one. -/
theorem census_tolerate_of_reject (h : m.census .reject = .ok c) : m.census .tolerate = .ok c := by
  rw [census_eq_ok_iff] at h ⊢
  rw [filterMap_fault?_tolerate, h.1]
  exact ⟨rfl, h.2⟩

/-- A name that is there twice is a fault under both policies. -/
theorem census_tolerate_of_duplicateName {d : Declared}
    (h : m.census .reject = .error (.duplicateName d)) :
    m.census .tolerate = .error (.duplicateName d) := by
  rw [census_eq_error_iff, List.head?_eq_some_iff] at h
  obtain ⟨faults, hfaults⟩ := h
  rw [census_eq_error_iff, filterMap_fault?_tolerate, hfaults]
  rfl

/-- The policy for unresolved references only decides what is accepted. The names and the
paths of a census are those of a visit without later repeats. What the strict policy accepts
has the same census under the tolerant one, and the same text in all dialects and with all
links; a name that is declared twice is a fault under both. -/
theorem census_lists_visits (m : Module) :
    (∀ policy c, m.census policy = .ok c →
      c.names.toList = m.visitedNames.eraseDups ∧
        c.paths.toList = m.visitedPaths.eraseDups) ∧
      (∀ c, m.census .reject = .ok c →
        m.census .tolerate = .ok c ∧
          ∀ dialect links, ∃ text,
            m.generate ⟨dialect, links, .reject⟩ = .ok text ∧
              m.generate ⟨dialect, links, .tolerate⟩ = .ok text) ∧
      ∀ d, m.census .reject = .error (.duplicateName d) →
        m.census .tolerate = .error (.duplicateName d) := by
  refine ⟨fun _ _ => toList_census, ?_, fun _ => census_tolerate_of_duplicateName⟩
  intro c h
  have htolerate := census_tolerate_of_reject h
  refine ⟨htolerate, ?_⟩
  intro dialect links
  obtain ⟨text, htext⟩ : ∃ text, m.generate ⟨dialect, links, .reject⟩ = .ok text :=
    generate_eq_ok h
  refine ⟨text, htext, ?_⟩
  rw [generate, htolerate]
  rw [generate, h] at htext
  exact htext

/-- A path that is met twice is counted once, and a name that is declared twice is not
tolerated. -/
theorem census_lists_visits_twice :
    ∃ c, (⟨[], [.evaluate (.imported "a.js" "x"), .evaluate (.imported "a.js" "y")]⟩ :
        Module).census .reject = .ok c ∧
      (⟨[], [.evaluate (.imported "a.js" "x"), .evaluate (.imported "a.js" "y")]⟩ :
        Module).visitedPaths.eraseDups = ["a.js"] ∧
      (⟨[], [.evaluate (.imported "a.js" "x"), .evaluate (.imported "a.js" "y")]⟩ :
        Module).census .tolerate = .ok c ∧
      (⟨[], [.binding true (.ofString "a") none .null,
        .binding true (.ofString "a") none .null]⟩ : Module).census .tolerate =
          .error (.duplicateName ⟨.blockLocal, .ofString "a"⟩) := by
  have htwice := census_lists_visits
    ⟨[], [.evaluate (.imported "a.js" "x"), .evaluate (.imported "a.js" "y")]⟩
  refine ⟨_, rfl, ?_, ?_, ?_⟩
  · exact (htwice.1 .reject _ rfl).2.symm
  · exact (htwice.2.1 _ rfl).1
  · exact (census_lists_visits _).2.2 _ rfl

end Module

end EcmaWriter
