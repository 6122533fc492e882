import EcmaWriter.Proofs.Layout.Writing
import EcmaWriter.Proofs.Script.Derivation
import EcmaWriter.Proofs.TypeNotation.Spacing

/-!
# EcmaWriter - What is written of types is derived

The grammar derives a tree of a type from the tokens of what is written, and its normal
form is that of the type's tree.  Every place that holds a type takes the phrase that is
written there: a function type is a phrase that only a place for all types takes, and in
parentheses every type is a primary phrase.

A union in a union is written without parentheses, so that its members become members of
the outer union, and the bars associate to the left whatever the nesting was.  That is
where normal forms are needed.  The same holds for intersections.

Main results:

- Theorem `TypeExpr.derives_layout`: the tokens of what is written derive a tree with the
  normal form of the type's tree.
-/

namespace EcmaWriter

namespace TypeNotation

open Script (commaSeparated enclosed isReference)
open Lexeme (readBack)

/-! ## Derivations up to normal forms -/

/-- Tokens that derive a tree with the normal form of another. -/
def DerivesTo (A : Phrase) (ts : List Token) (t : Tree) : Prop :=
  ∃ u, Derives A ts u ∧ u.normal = t.normal

namespace Derives

/-- Intersections beside each other are one intersection. -/
theorem exists_intersection {ts us : List Token} {t u : Tree} (d : Derives .intersection ts t)
    (du : Derives .intersection us u) :
    ∃ v, Derives .intersection (ts ++ .punctuator "&" :: us) v ∧ v.normal =
      .intersection (t.normal.intersectionMembers ++ u.normal.intersectionMembers) := by
  -- Ampersands associate to the left, so the derivation on the right is taken apart.
  generalize hA : Phrase.intersection = A at du
  induction du with
  | unit h du ih =>
      subst hA
      obtain rfl := List.mem_singleton.mp h
      refine ⟨_, d.intersection du, ?_⟩
      simp [Tree.normal, Tree.normals]
  | intersection dl dr ihl ihr =>
      rcases ihl hA with ⟨v, dv, hv⟩
      have hwhole := dv.intersection dr
      rw [List.append_assoc, List.cons_append] at hwhole
      refine ⟨_, hwhole, ?_⟩
      simp [Tree.normal, Tree.normals, hv, Tree.intersectionMembers]
  | _ => exact absurd hA (by simp)

/-- Unions beside each other are one union. -/
theorem exists_union {ts us : List Token} {t u : Tree} (d : Derives .union ts t)
    (du : Derives .union us u) :
    ∃ v, Derives .union (ts ++ .punctuator "|" :: us) v ∧ v.normal =
      Tree.unionOf (t.normal.unionMembers ++ u.normal.unionMembers) := by
  generalize hA : Phrase.union = A at du
  induction du with
  | unit h du ih =>
      subst hA
      obtain rfl := List.mem_singleton.mp h
      refine ⟨_, d.union du, ?_⟩
      simp [Tree.normal, Tree.normals]
  | @union _ _ l r dl dr ihl ihr =>
      rcases ihl hA with ⟨v, dv, hv⟩
      have hwhole := dv.union dr
      rw [List.append_assoc, List.cons_append] at hwhole
      -- Flatness is what makes the members of both unions those that were put in.
      have hleft := Tree.unionMembers_unionOf ((Tree.flat_normal t).append (Tree.flat_normal l))
      have hright := Tree.unionMembers_unionOf ((Tree.flat_normal l).append (Tree.flat_normal r))
      refine ⟨_, hwhole, ?_⟩
      simp [Tree.normal, Tree.normals, hv, hleft, hright]
  | _ => exact absurd hA (by simp)

end Derives

namespace DerivesTo

variable {A B : Phrase} {ts us : List Token} {t u : Tree}

/-- A derivation gives the tree itself. -/
theorem of_derives (d : Derives A ts t) : DerivesTo A ts t :=
  ⟨t, d, rfl⟩

/-- An alternative of a phrase. -/
theorem unit (h : B ∈ A.alternatives) (d : DerivesTo B ts t) : DerivesTo A ts t := by
  rcases d with ⟨v, dv, hv⟩
  exact ⟨v, .unit h dv, hv⟩

/-- Trees with one normal form are derived from the same tokens. -/
theorem congr (d : DerivesTo A ts t) (h : t.normal = u.normal) : DerivesTo A ts u := by
  rcases d with ⟨v, dv, hv⟩
  exact ⟨v, dv, hv.trans h⟩

/-! ### Looser phrases -/

/-- A primary type needs no operator before it. -/
theorem prefixed (d : DerivesTo .primary ts t) : DerivesTo .prefixed ts t := by
  have hsuffixed : DerivesTo .suffixed ts t := d.unit (by decide)
  exact hsuffixed.unit (by decide)

/-- Every type with operators before it is an intersection of one. -/
theorem intersection (d : DerivesTo .prefixed ts t) : DerivesTo .intersection ts t :=
  d.unit (by decide)

/-- Every intersection is a union of one. -/
theorem union (d : DerivesTo .intersection ts t) : DerivesTo .union ts t :=
  d.unit (by decide)

/-- Every union is a type. -/
theorem type (d : DerivesTo .union ts t) : DerivesTo .type ts t :=
  d.unit (by decide)

/-! ### Operators and parentheses -/

/-- An operator before a type. -/
theorem operation (op : Operator) (d : DerivesTo .prefixed ts t) :
    DerivesTo .prefixed (.word op.word :: ts) (.operation op t) := by
  rcases d with ⟨v, dv, hv⟩
  refine ⟨_, .operation op dv, ?_⟩
  rw [Tree.normal, Tree.normal, hv]

/-- A type in parentheses is as strong as any. -/
theorem parenthesized (d : DerivesTo .type ts t) : DerivesTo .prefixed (enclosed "(" ")" ts) t := by
  rcases d with ⟨v, dv, hv⟩
  have hprimary : DerivesTo .primary (enclosed "(" ")" ts) t := ⟨v, .parenthesized dv, hv⟩
  exact hprimary.prefixed

/-- Intersections of intersections have the normal form of one. -/
theorem intersect (d : DerivesTo .intersection ts t) (du : DerivesTo .intersection us u) :
    DerivesTo .intersection (ts ++ .punctuator "&" :: us) (.intersection [t, u]) := by
  rcases d with ⟨v, dv, hv⟩
  rcases du with ⟨w, dw, hw⟩
  rcases dv.exists_intersection dw with ⟨x, dx, hx⟩
  refine ⟨x, dx, ?_⟩
  simp [hx, hv, hw, Tree.normal, Tree.normals]

/-- A union with one member is read as the member. -/
theorem unite_one (d : DerivesTo .union ts t) : DerivesTo .union ts (.union [t]) := by
  rcases d with ⟨v, dv, hv⟩
  refine ⟨v, dv, ?_⟩
  simp [hv, Tree.normal, Tree.normals, Tree.unionOf_unionMembers]

/-- A union with one more member before the others. -/
theorem unite {members : List Tree} (hne : members ≠ []) (d : DerivesTo .union ts t)
    (ds : DerivesTo .union us (.union members)) :
    DerivesTo .union (ts ++ .punctuator "|" :: us) (.union (t :: members)) := by
  rcases d with ⟨v, dv, hv⟩
  rcases ds with ⟨w, dw, hw⟩
  rcases dv.exists_union dw with ⟨x, dx, hx⟩
  have hmembers := Tree.unionMembers_unionOf (Tree.flat_normals members hne)
  refine ⟨x, dx, ?_⟩
  rw [hx, hv, hw, Tree.normal, hmembers, Tree.normal, Tree.normals, List.flatMap_cons]

end DerivesTo

/-! ## Tokens of parts -/

section Tokens

variable {table : ImportTable}

@[simp] theorem lexemeTokens_word (text : String) :
    lexemeTokens table (.word text) = [.word text] := rfl

@[simp] theorem lexemeTokens_mark (text : String) :
    lexemeTokens table (.mark text) = [.punctuator text] := rfl

@[simp] theorem lexemeTokens_space : lexemeTokens table .space = [] := rfl

@[simp] theorem lexemeTokens_newline : lexemeTokens table .newline = [] := rfl

@[simp] theorem lexemeTokens_indent (level : Nat) : lexemeTokens table (.indent level) = [] := rfl

/-- Tokens in parentheses. -/
@[simp] theorem tokens_parenthesized (ls : List Lexeme) :
    tokens table (Lexeme.parenthesized ls) = enclosed "(" ")" (tokens table ls) := by
  simp [Lexeme.parenthesized, enclosed]

/-- The separator is written between two pieces. -/
theorem tokens_separated_cons (separator piece next : List Lexeme) (pieces : List (List Lexeme)) :
    tokens table (Lexeme.separated separator (piece :: next :: pieces)) =
      tokens table piece ++ (tokens table separator
        ++ tokens table (Lexeme.separated separator (next :: pieces))) := by
  have hstep : Lexeme.separated separator (piece :: next :: pieces) =
      piece ++ separator ++ Lexeme.separated separator (next :: pieces) := rfl
  rw [hstep, tokens_append, tokens_append, List.append_assoc]

/-- Tokens of a list with commas. -/
@[simp] theorem tokens_listed (pieces : List (List Lexeme)) :
    tokens table (Lexeme.listed pieces) = commaSeparated (pieces.map (tokens table)) := by
  rw [Lexeme.listed]
  induction pieces with
  | nil => rfl
  | cons piece pieces ih =>
      cases pieces with
      | nil => rfl
      | cons next pieces =>
          rw [tokens_separated_cons, ih]
          simp [commaSeparated]

/-- Tokens of a list in angle brackets, none if there is nothing in it. -/
@[simp] theorem tokens_angled (pieces : List (List Lexeme)) :
    tokens table (Lexeme.angled pieces) = angled (pieces.map (tokens table)) := by
  cases pieces with
  | nil => rfl
  | cons piece pieces =>
      have hlisted : tokens table (Lexeme.listed (piece :: pieces)) =
          commaSeparated ((piece :: pieces).map (tokens table)) := tokens_listed _
      simp [Lexeme.angled, angled, enclosed, hlisted]

/-- Tokens of a text put together piece by piece. -/
theorem tokens_flatMap {α : Type} (f : α → List Lexeme) (l : List α) :
    tokens table (l.flatMap f) = l.flatMap fun x => tokens table (f x) := by
  induction l with
  | nil => rfl
  | cons x l ih => rw [List.flatMap_cons, List.flatMap_cons, tokens_append, ih]

/-- A name inside namespaces is a reference with points. -/
theorem tokens_segments (q : Identifier) (path : List Identifier) (n : Identifier) :
    tokens table (Layout.segments (q :: path) ++ [Layout.name n]) =
      .word q.text :: dotted ((path ++ [n]).map Identifier.text) := by
  induction path generalizing q with
  | nil => rfl
  | cons r path ih =>
      have hrest : Layout.segments (q :: r :: path) ++ [Layout.name n] =
          Layout.name q :: .mark "." :: (Layout.segments (r :: path) ++ [Layout.name n]) := rfl
      rw [hrest, tokens_cons, tokens_cons, ih]
      rfl

/-- Documents and white space are no tokens. -/
theorem tokens_memberHead (p : Place) (document : String) :
    tokens table (Layout.memberHead p document) = [] := by
  rw [Layout.memberHead]
  split <;> rfl

/-- Tokens of lines in curly brackets. -/
theorem tokens_lines (p : Place) (texts : List (List Lexeme)) :
    tokens table (Layout.lines p texts) =
      enclosed "\x7b" "\x7d" (texts.flatMap (tokens table)) := by
  cases texts with
  | nil => rfl
  | cons text texts => simp [Layout.lines, enclosed, tokens_flatMap]

/-- Members on lines of their own end in semicolons. -/
theorem tokens_memberLines (p : Place) {members : List MemberType} {pieces : List (List Lexeme)}
    (h : pieces.length = members.length) :
    tokens table (Layout.memberLines p members pieces) =
      enclosed "\x7b" "\x7d"
        (pieces.flatMap fun piece => tokens table piece ++ [.punctuator ";"]) := by
  rw [Layout.memberLines, tokens_lines, List.flatMap_map]
  have hsecond : pieces = (members.zip pieces).map Prod.snd :=
    (List.map_snd_zip (Nat.le_of_eq h)).symm
  conv_rhs => rw [hsecond, List.flatMap_map]
  simp [tokens_memberHead]

end Tokens

/-! ## Names -/

/-- A bare name is no keyword of a type. -/
theorem isTypeName_of_isBareName {name : String} (h : isBareName name = true)
    (hoperator : operatorWords.contains name = false) : isTypeName name = true := by
  have hreserved : ∀ word ∈ keywordTypes, isReservedWord word = true := by decide
  have hkeyword : keywordTypes.contains name = false := by
    refine Bool.eq_false_iff.mpr ?_
    intro hmem
    rw [isBareName, Bool.and_eq_true, Bool.not_eq_true'] at h
    have hword := hreserved name (List.contains_iff_mem.mp hmem)
    exact Bool.false_ne_true (h.2.symm.trans hword)
  rw [isTypeName, Expr.isReference_of_isBareName h, hkeyword, hoperator]
  rfl

/-! ## Lists of types -/

variable {table : ImportTable}

/-- Pieces that are read as types, with the normal forms of trees. -/
def ReadTypes (table : ImportTable) (pieces : List (List Lexeme)) (list : List Tree) : Prop :=
  ∃ readings : List Reading,
    pieces.map (tokens table) = readings.map Reading.tokens ∧
      Tree.normals (readings.map Reading.tree) = Tree.normals list ∧
        ∀ r ∈ readings, Derives .type r.tokens r.tree

/-- Pieces that are read as members of an object type. -/
def ReadFields (table : ImportTable) (pieces : List (List Lexeme)) (fields : List Field) : Prop :=
  ∃ readings : List FieldReading,
    pieces.map (tokens table) = readings.map FieldReading.written ∧
      Field.normals (readings.map FieldReading.field) = Field.normals fields ∧
        ∀ f ∈ readings, Derives .type f.tokens f.tree

/-- Pieces that are read as type parameters. -/
def ReadBinders (table : ImportTable) (pieces : List (List Lexeme)) (binders : List Binder) :
    Prop :=
  ∃ readings : List BinderReading,
    pieces.map (tokens table) = readings.map BinderReading.written ∧
      Binder.normals (readings.map BinderReading.binder) = Binder.normals binders ∧
        (∀ b ∈ readings, b.isNamed = true) ∧
          ∀ b ∈ readings, ∀ r ∈ b.bound, Derives .type r.tokens r.tree

/-- There are no pieces to be read. -/
theorem ReadTypes.nil : ReadTypes table [] [] :=
  ⟨[], rfl, rfl, by simp⟩

/-- One more piece that is read as a type. -/
theorem ReadTypes.cons {piece : List Lexeme} {t : Tree} {pieces : List (List Lexeme)}
    {list : List Tree} (d : DerivesTo .type (tokens table piece) t)
    (h : ReadTypes table pieces list) : ReadTypes table (piece :: pieces) (t :: list) := by
  rcases d with ⟨u, du, hu⟩
  rcases h with ⟨readings, hpieces, htrees, hreadings⟩
  refine ⟨⟨tokens table piece, u⟩ :: readings, ?_, ?_, List.forall_mem_cons.mpr ⟨du, hreadings⟩⟩
  · rw [List.map_cons, List.map_cons, hpieces]
  · rw [List.map_cons, Tree.normals, Tree.normals, htrees, hu]

/-- There are no members to be read. -/
theorem ReadFields.nil : ReadFields table [] [] :=
  ⟨[], rfl, rfl, by simp⟩

/-- One more member, whose key is read back from the name or the literal. -/
theorem ReadFields.cons {piece : List Lexeme} {t : Tree} {pieces : List (List Lexeme)}
    {fields : List Field} (key : String) (required readonly : Bool)
    (d : DerivesTo .type (tokens table piece) t) (h : ReadFields table pieces fields) :
    ReadFields table
      (Layout.memberType [Layout.propertyKey key] required readonly piece :: pieces)
      (⟨readBack key, readonly, !required, t⟩ :: fields) := by
  rcases d with ⟨u, du, hu⟩
  rcases h with ⟨readings, hpieces, hfields, hreadings⟩
  refine ⟨⟨⟨tokens table piece, u⟩, readBack key, !isPropertyName key, readonly, !required⟩
    :: readings, ?_, ?_, List.forall_mem_cons.mpr ⟨du, hreadings⟩⟩
  · have hkey : lexemeTokens table (Layout.propertyKey key) =
        [if !isPropertyName key then .string (readBack key) else .word (readBack key)] := by
      by_cases hname : isPropertyName key = true
      · simp [Layout.propertyKey, hname, readBack_of_isPropertyName hname]
      · simp [Layout.propertyKey, hname, lexemeTokens]
    rw [List.map_cons, List.map_cons, hpieces]
    cases required <;> cases readonly <;>
      simp [Layout.memberType, FieldReading.written, hkey]
  · simp [FieldReading.field, Field.normals, hfields, hu]

/-- There are no type parameters to be read. -/
theorem ReadBinders.nil : ReadBinders table [] [] :=
  ⟨[], rfl, rfl, by simp, by simp⟩

/-- A bound is written for every type parameter, so that none may have the name of a modifier. -/
theorem ReadBinders.cons {piece : List Lexeme} {t : Tree} {pieces : List (List Lexeme)}
    {bound : Option Tree} {binders : List Binder} {n : Identifier} (hn : isModifier n.text = false)
    (d : DerivesTo .type (tokens table piece) t) (hbound : t.normal = Tree.boundNormal bound)
    (h : ReadBinders table pieces binders) :
    ReadBinders table (Layout.typeParameter n piece :: pieces) (⟨n.text, bound⟩ :: binders) := by
  rcases d with ⟨u, du, hu⟩
  rcases h with ⟨readings, hpieces, hbinders, hnames, hreadings⟩
  have hnamed : (⟨n.text, some ⟨tokens table piece, u⟩⟩ : BinderReading).isNamed = true := by
    simp [BinderReading.isNamed, Expr.isReference_of_isBareName n.isBare, hn]
  refine ⟨⟨n.text, some ⟨tokens table piece, u⟩⟩ :: readings, ?_, ?_,
    List.forall_mem_cons.mpr ⟨hnamed, hnames⟩, List.forall_mem_cons.mpr ⟨?_, hreadings⟩⟩
  · simp [Layout.typeParameter, Layout.name, BinderReading.written, hpieces]
  · simp [BinderReading.binder, Binder.normals, Tree.boundNormal, hbinders, hu, hbound]
  · rintro r ⟨⟩
    exact du

/-- The minted names of the parameters of a function type are words that may stand there. -/
theorem ReadTypes.exists_parameters {pieces : List (List Lexeme)} {list : List Tree}
    (h : ReadTypes table pieces list) :
    ∃ qs : List ParameterReading,
      (Layout.functionTypeParameters pieces).map (tokens table) =
          qs.map ParameterReading.written ∧
        Tree.normals (qs.map fun q => q.tree) = Tree.normals list ∧
          (∀ q ∈ qs, isReference q.name = true) ∧
            ∀ q ∈ qs, Derives .type q.tokens q.tree := by
  rcases h with ⟨readings, hpieces, htrees, hreadings⟩
  have hlength : readings.length = pieces.length := by
    simpa using (congrArg List.length hpieces).symm
  refine ⟨((Candidate.mintMany [] pieces.length .first).zip readings).map
    fun x => ⟨x.2, x.1.1.text⟩, ?_, ?_, ?_, ?_⟩
  · have hzip := congrArg (List.zip (Candidate.mintMany [] pieces.length .first)) hpieces
    rw [List.zip_map_right, List.zip_map_right] at hzip
    have hwritten := congrArg
      (List.map fun x => Script.Token.word x.1.1.text :: .punctuator ":" :: x.2) hzip
    rw [List.map_map, List.map_map] at hwritten
    rw [Layout.functionTypeParameters, List.map_map, List.map_map]
    exact hwritten
  · have hsecond : ((Candidate.mintMany [] pieces.length .first).zip readings).map Prod.snd =
        readings := List.map_snd_zip (by simp [hlength])
    rw [← htrees, List.map_map]
    conv_rhs => rw [← hsecond, List.map_map]
    rfl
  · intro q hq
    rcases List.mem_map.mp hq with ⟨⟨⟨n, _⟩, r⟩, -, rfl⟩
    exact Expr.isReference_of_isBareName n.isBare
  · intro q hq
    rcases List.mem_map.mp hq with ⟨⟨⟨n, _⟩, r⟩, hzip, rfl⟩
    exact hreadings r (List.of_mem_zip hzip).2

/-! ## Forms of types -/

namespace DerivesTo

/-- A reference with type arguments. -/
theorem reference {head : String} {rest : List String} {list : List Tree} {u : Tree}
    (h : reference? (head :: rest) list = some u)
    (hhead : operatorWords.contains head = false → isTypeName head = true)
    {pieces : List (List Lexeme)} (hpieces : ReadTypes table pieces list) :
    DerivesTo .prefixed (.word head :: (dotted rest ++ tokens table (Lexeme.angled pieces))) u := by
  rw [reference?] at h
  split at h
  · exact absurd h (by simp)
  · rename_i hoperator
    obtain rfl := Option.some.inj h
    rcases hpieces with ⟨readings, htokens, htrees, hreadings⟩
    have hname := hhead (Bool.eq_false_iff.mpr hoperator)
    have hprimary : DerivesTo .primary
        (.word head :: (dotted rest ++ tokens table (Lexeme.angled pieces)))
        (.reference (head :: rest) list) := by
      refine ⟨.reference (head :: rest) (readings.map Reading.tree), ?_, ?_⟩
      · rw [tokens_angled, htokens]
        exact .reference rest readings hname hreadings
      · rw [Tree.normal, Tree.normal, htrees]
    exact hprimary.prefixed

section References

variable {pieces : List (List Lexeme)} {list : List Tree}

/-- An export of another module is reached through the namespace of the module. -/
theorem imported {path : String} {home : Identifier} (n : Identifier)
    (hhome : table.find? path = some home) (hu : reference? [home.text, n.text] list = some u)
    (hpieces : ReadTypes table pieces list) :
    DerivesTo .prefixed
      (tokens table (Layout.applied [.importOf path, .mark ".", Layout.name n] pieces)) u := by
  have hwhole := reference hu (isTypeName_of_isBareName home.isBare) hpieces
  have htext : (Lexeme.importOf path).text table = home.text := by
    simp [Lexeme.text, Lexeme.spell, hhome]
  rw [← htext] at hwhole
  rw [Layout.applied, tokens_append]
  exact hwhole

/-- A built-in type that is hidden is reached through `globalThis`. -/
theorem global {hidden : Bool} (n : Identifier)
    (hu : reference? (if hidden then ["globalThis", n.text] else [n.text]) list = some u)
    (hpieces : ReadTypes table pieces list) :
    DerivesTo .prefixed (tokens table (Layout.applied [.globalType hidden n] pieces)) u := by
  rw [Layout.applied, tokens_append]
  cases hidden with
  | true => exact reference hu (fun _ => by decide) hpieces
  | false => exact reference hu (isTypeName_of_isBareName n.isBare) hpieces

/-- A name behind the names of its namespaces. -/
theorem namespaced (path : List Identifier) (n : Identifier)
    (hu : reference? ((path ++ [n]).map Identifier.text) list = some u)
    (hpieces : ReadTypes table pieces list) :
    DerivesTo .prefixed
      (tokens table (Layout.applied (Layout.segments path ++ [Layout.name n]) pieces)) u := by
  rw [Layout.applied, tokens_append]
  cases path with
  | nil => exact reference hu (isTypeName_of_isBareName n.isBare) hpieces
  | cons q path =>
      rw [tokens_segments]
      exact reference hu (isTypeName_of_isBareName q.isBare) hpieces

end References

/-- Members between semicolons. -/
theorem fields_separated {pieces : List (List Lexeme)} {readings : List FieldReading}
    (hne : readings ≠ [])
    (hpieces : pieces.map (tokens table) = readings.map FieldReading.written)
    (hreadings : ∀ f ∈ readings, Derives .type f.tokens f.tree) :
    Derives .fields (tokens table (Lexeme.separated [.mark ";", .space] pieces))
      (.object (readings.map FieldReading.field)) := by
  induction readings generalizing pieces with
  | nil => exact absurd rfl hne
  | cons f readings ih =>
      rcases List.forall_mem_cons.mp hreadings with ⟨hf, hrest⟩
      rcases List.map_eq_cons_iff.mp hpieces with ⟨piece, more, rfl, hpiece, hmore⟩
      cases readings with
      | nil =>
          obtain rfl := List.map_eq_nil_iff.mp hmore
          rw [Lexeme.separated, hpiece]
          exact .lastField f hf
      | cons g readings =>
          rcases List.map_eq_cons_iff.mp hmore with ⟨next, others, rfl, -, -⟩
          have hwhole := Derives.moreFields f (Or.inl rfl) hf (ih (by simp) hmore hrest)
          rw [tokens_separated_cons, hpiece]
          simpa using hwhole

/-- Members that end in semicolons. -/
theorem fields_terminated {readings : List FieldReading}
    (hreadings : ∀ f ∈ readings, Derives .type f.tokens f.tree) :
    Derives .fields ((readings.map FieldReading.written).flatMap (· ++ [.punctuator ";"]))
      (.object (readings.map FieldReading.field)) := by
  induction readings with
  | nil => exact .noField
  | cons f readings ih =>
      rcases List.forall_mem_cons.mp hreadings with ⟨hf, hrest⟩
      have hwhole := Derives.moreFields f (Or.inl rfl) hf (ih hrest)
      simpa using hwhole

/-- Whatever stands in the braces of an object type. -/
theorem object {fields : List Field} {readings : List FieldReading}
    (hfields : Field.normals (readings.map FieldReading.field) = Field.normals fields)
    (d : Derives .fields ts (.object (readings.map FieldReading.field))) :
    DerivesTo .prefixed (enclosed "\x7b" "\x7d" ts) (.object fields) := by
  have hprimary : DerivesTo .primary (enclosed "\x7b" "\x7d" ts) (.object fields) := by
    refine ⟨_, .object d, ?_⟩
    rw [Tree.normal, Tree.normal, hfields]
  exact hprimary.prefixed

/-- Members on one line. -/
theorem braced {pieces : List (List Lexeme)} {fields : List Field}
    (h : ReadFields table pieces fields) :
    DerivesTo .prefixed (tokens table (Layout.braced [.mark ";", .space] pieces))
      (.object fields) := by
  rcases h with ⟨readings, hpieces, hfields, hreadings⟩
  cases pieces with
  | nil =>
      obtain rfl := List.map_eq_nil_iff.mp hpieces.symm
      exact object hfields .noField
  | cons piece pieces =>
      have hne : readings ≠ [] := by
        rintro rfl
        exact absurd hpieces (by simp)
      have hwhole := object hfields (fields_separated hne hpieces hreadings)
      simpa [Layout.braced, enclosed] using hwhole

/-- Members on lines of their own, between which documents may stand. -/
theorem memberLines (p : Place) {members : List MemberType} {pieces : List (List Lexeme)}
    (hlength : pieces.length = members.length) {fields : List Field}
    (h : ReadFields table pieces fields) :
    DerivesTo .prefixed (tokens table (Layout.memberLines p members pieces)) (.object fields) := by
  rcases h with ⟨readings, hpieces, hfields, hreadings⟩
  have hwhole := object hfields (fields_terminated hreadings)
  rw [← hpieces, List.flatMap_map] at hwhole
  rw [tokens_memberLines p hlength]
  exact hwhole

/-- A function type, with the names that are made up for its parameters. -/
theorem function {binders : List Binder} {list : List Tree}
    {typeParameters parameters : List (List Lexeme)} {result : List Lexeme}
    (hbinders : ReadBinders table typeParameters binders)
    (hparameters : ReadTypes table parameters list)
    (hresult : DerivesTo .type (tokens table result) t) :
    DerivesTo .type
      (tokens table (Lexeme.angled typeParameters
        ++ Lexeme.parenthesized (Lexeme.listed (Layout.functionTypeParameters parameters))
        ++ [.space, .mark "=>", .space] ++ result))
      (.function binders list t) := by
  rcases hbinders with ⟨bs, hbs, hbinders, hnames, dbs⟩
  rcases hparameters.exists_parameters with ⟨qs, hqs, htrees, hqnames, dqs⟩
  rcases hresult with ⟨v, dv, hv⟩
  refine ⟨.function (bs.map BinderReading.binder) (qs.map fun q => q.tree) v, ?_, ?_⟩
  · have hwhole := Derives.function bs qs hnames hqnames dbs dqs dv
    rw [← hbs, ← hqs] at hwhole
    simpa using hwhole
  · rw [Tree.normal, Tree.normal, hbinders, htrees, hv]

end DerivesTo

end TypeNotation

/-! ## Types -/

open TypeNotation

variable {table : ImportTable}

/-- The phrase that a type is written as. -/
def TypeExpr.phrase : TypeExpr → Phrase
  | .function _ _ _ => .type
  | .union types => if types.isEmpty then .prefixed else .union
  | .intersection _ _ => .intersection
  | _ => .prefixed

namespace TypeNotation.DerivesTo

variable {ts : List Token} {ls : List Lexeme} {u : Tree} {e : TypeExpr}

/-- What is written of a type is a type, whatever its own phrase is. -/
theorem type_of_phrase (d : DerivesTo e.phrase ts u) : DerivesTo .type ts u := by
  cases e with
  | function typeParameters parameters result => exact d
  | union types =>
      cases types with
      | nil => exact DerivesTo.type (DerivesTo.union (DerivesTo.intersection d))
      | cons t types => exact DerivesTo.type d
  | intersection left right => exact DerivesTo.type (DerivesTo.union d)
  | _ => exact DerivesTo.type (DerivesTo.union (DerivesTo.intersection d))

/-- A constituent of an intersection is in parentheses where it would be loose. -/
theorem intersection_constituent (d : DerivesTo e.phrase (tokens table ls) u) :
    DerivesTo .intersection (tokens table (Layout.constituent true e ls)) u := by
  have hwrapped : DerivesTo .intersection (tokens table (Lexeme.parenthesized ls)) u := by
    rw [tokens_parenthesized]
    exact d.type_of_phrase.parenthesized.intersection
  cases e with
  | function typeParameters parameters result => exact hwrapped
  | union types =>
      cases types with
      | nil => exact DerivesTo.intersection d
      | cons t types => exact hwrapped
  | intersection left right => exact d
  | _ => exact DerivesTo.intersection d

/-- A constituent of a union is in parentheses only if it is a function type. -/
theorem union_constituent (d : DerivesTo e.phrase (tokens table ls) u) :
    DerivesTo .union (tokens table (Layout.constituent false e ls)) u := by
  cases e with
  | function typeParameters parameters result =>
      have hwrapped : DerivesTo .union (tokens table (Lexeme.parenthesized ls)) u := by
        rw [tokens_parenthesized]
        exact d.type_of_phrase.parenthesized.intersection.union
      exact hwrapped
  | union types =>
      cases types with
      | nil => exact DerivesTo.union (DerivesTo.intersection d)
      | cons t types => exact d
  | intersection left right => exact DerivesTo.union d
  | _ => exact DerivesTo.union (DerivesTo.intersection d)

end TypeNotation.DerivesTo

/-- A word that is a type by itself. -/
theorem TypeNotation.DerivesTo.keyword {name : String} (h : name ∈ keywordTypes) :
    DerivesTo .prefixed [.word name] (.keyword name) := by
  have hprimary : DerivesTo .primary [.word name] (.keyword name) := .of_derives (.keyword h)
  exact hprimary.prefixed

mutual

/-- What is written of a type derives a tree with the normal form of its tree, if no type
parameter has the name of a modifier. -/
theorem TypeExpr.derives_layout (p : Place) :
    (t : TypeExpr) → t.bindsPlainly = true → {u : Tree} → t.tree? table p.types = some u →
      DerivesTo t.phrase (tokens table (t.layout p)) u
  | .number, _, u, h | .string, _, u, h | .boolean, _, u, h | .undefined, _, u, h
  | .null, _, u, h | .never, _, u, h | .void, _, u, h | .unknown, _, u, h => by
      rw [TypeExpr.tree?, Option.some_inj] at h
      subst h
      exact .keyword (by decide)
  | .uniqueSymbol, _, u, h => by
      rw [TypeExpr.tree?, Option.some_inj] at h
      subst h
      have hsymbol : DerivesTo .prefixed [.word "symbol"] (.keyword "symbol") :=
        .keyword (by decide)
      exact hsymbol.operation .unique
  | .stringLiteral value, _, u, h => by
      rw [TypeExpr.tree?, Option.some_inj] at h
      subst h
      have hprimary : DerivesTo .primary [.string (Lexeme.readBack value)]
        (.string (Lexeme.readBack value)) := .of_derives (.string _)
      exact hprimary.prefixed
  | .object members, hplain, u, h => by
      simp only [TypeExpr.tree?, Option.bind_eq_bind, Option.bind_eq_some_iff,
        Option.some.injEq] at h
      rcases h with ⟨fields, hfields, rfl⟩
      rw [TypeExpr.layout]
      split
      · exact DerivesTo.braced (MemberType.readFields_layouts p members hplain hfields)
      · exact DerivesTo.memberLines p (MemberType.length_layouts p.deeper members)
          (MemberType.readFields_layouts p.deeper members hplain hfields)
  | .function typeParameters parameters result, hplain, u, h => by
      simp only [TypeExpr.bindsPlainly, Bool.and_eq_true] at hplain
      rcases hplain with ⟨⟨hbinds, hlists⟩, hends⟩
      simp only [TypeExpr.tree?, Option.bind_eq_bind, Option.bind_eq_some_iff,
        Option.some.injEq] at h
      rcases h with ⟨binders, hbinders, list, hlist, t, ht, rfl⟩
      have hresult := TypeExpr.derives_layout (p.bindTypes typeParameters) result hends ht
      exact .function
        (TypeParameter.readBinders_layouts (p.bindTypes typeParameters) typeParameters hbinds
          hbinders)
        (TypeExpr.readTypes_layouts (p.bindTypes typeParameters) parameters hlists hlist)
        hresult.type_of_phrase
  | .union [], _, u, h => by
      simp only [TypeExpr.tree?, TypeExpr.trees?, Option.bind_eq_bind, Option.bind_some,
        Option.some.injEq] at h
      subst h
      have hnever : DerivesTo .prefixed [.word "never"] (.keyword "never") :=
        .keyword (by decide)
      exact hnever.congr rfl
  | .union (t :: types), hplain, u, h => by
      simp only [TypeExpr.tree?, Option.bind_eq_bind, Option.bind_eq_some_iff,
        Option.some.injEq] at h
      rcases h with ⟨list, hlist, rfl⟩
      exact TypeExpr.derives_constituents p (t :: types) (by simp) hplain hlist
  | .intersection left right, hplain, u, h => by
      rw [TypeExpr.bindsPlainly, Bool.and_eq_true] at hplain
      simp only [TypeExpr.tree?, Option.bind_eq_bind, Option.bind_eq_some_iff,
        Option.some.injEq] at h
      rcases h with ⟨t, ht, u, hu, rfl⟩
      have hleft := (TypeExpr.derives_layout p left hplain.1 ht).intersection_constituent
      have hright := (TypeExpr.derives_layout p right hplain.2 hu).intersection_constituent
      have hwhole := hleft.intersect hright
      simpa [TypeExpr.layout, TypeExpr.phrase] using hwhole
  | .imported path n arguments, hplain, u, h => by
      simp only [TypeExpr.tree?, Option.bind_eq_bind, Option.bind_eq_some_iff] at h
      rcases h with ⟨home, hhome, list, hlist, hu⟩
      exact .imported n hhome hu (TypeExpr.readTypes_layouts p arguments hplain hlist)
  | .inFile n arguments, hplain, u, h => by
      simp only [TypeExpr.tree?, Option.bind_eq_bind, Option.bind_eq_some_iff] at h
      rcases h with ⟨list, hlist, hu⟩
      exact .reference hu (isTypeName_of_isBareName n.isBare)
        (TypeExpr.readTypes_layouts p arguments hplain hlist)
  | .global n arguments, hplain, u, h => by
      simp only [TypeExpr.tree?, Option.bind_eq_bind, Option.bind_eq_some_iff] at h
      rcases h with ⟨list, hlist, hu⟩
      exact .global n hu (TypeExpr.readTypes_layouts p arguments hplain hlist)
  | .namespaced path n arguments, hplain, u, h => by
      simp only [TypeExpr.tree?, Option.bind_eq_bind, Option.bind_eq_some_iff] at h
      rcases h with ⟨list, hlist, hu⟩
      exact .namespaced path n hu (TypeExpr.readTypes_layouts p arguments hplain hlist)

/-- Each of some types is read. -/
theorem TypeExpr.readTypes_layouts (p : Place) :
    (ts : List TypeExpr) → TypeExpr.bindPlainly ts = true → {list : List Tree} →
      TypeExpr.trees? table p.types ts = some list → ReadTypes table (TypeExpr.layouts p ts) list
  | [], _, list, h => by
      rw [TypeExpr.trees?, Option.some_inj] at h
      subst h
      exact .nil
  | t :: ts, hplain, list, h => by
      rw [TypeExpr.bindPlainly, Bool.and_eq_true] at hplain
      simp only [TypeExpr.trees?, Option.bind_eq_bind, Option.bind_eq_some_iff,
        Option.some.injEq] at h
      rcases h with ⟨u, hu, list, hlist, rfl⟩
      exact (TypeExpr.readTypes_layouts p ts hplain.2 hlist).cons
        (TypeExpr.derives_layout p t hplain.1 hu).type_of_phrase

/-- The members of a union, of which there is at least one. -/
theorem TypeExpr.derives_constituents (p : Place) :
    (ts : List TypeExpr) → ts ≠ [] → TypeExpr.bindPlainly ts = true → {list : List Tree} →
      TypeExpr.trees? table p.types ts = some list →
        DerivesTo .union
          (tokens table (Lexeme.separated [.space, .mark "|", .space]
            (TypeExpr.constituents p ts))) (.union list)
  | [], hne, _, _, _ => absurd rfl hne
  | [t], _, hplain, list, h => by
      rw [TypeExpr.bindPlainly, Bool.and_eq_true] at hplain
      simp only [TypeExpr.trees?, Option.bind_eq_bind, Option.bind_eq_some_iff,
        Option.some.injEq] at h
      rcases h with ⟨u, hu, list, rfl, rfl⟩
      exact (TypeExpr.derives_layout p t hplain.1 hu).union_constituent.unite_one
  | t :: next :: ts, _, hplain, list, h => by
      rw [TypeExpr.bindPlainly, Bool.and_eq_true] at hplain
      rw [TypeExpr.trees?] at h
      simp only [Option.bind_eq_bind, Option.bind_eq_some_iff, Option.some.injEq] at h
      rcases h with ⟨u, hu, list, hlist, rfl⟩
      have hfirst := (TypeExpr.derives_layout p t hplain.1 hu).union_constituent
      have hrest := TypeExpr.derives_constituents p (next :: ts) (by simp) hplain.2 hlist
      have hne : list ≠ [] := by
        rintro rfl
        simp [TypeExpr.trees?, Option.bind_eq_some_iff] at hlist
      have hwhole := hfirst.unite hne hrest
      rw [TypeExpr.constituents] at hwhole
      rw [TypeExpr.constituents, TypeExpr.constituents, tokens_separated_cons]
      simpa using hwhole

/-- Each type parameter is read, with `unknown` for a missing constraint. -/
theorem TypeParameter.readBinders_layouts (p : Place) :
    (parameters : List TypeParameter) → TypeParameter.bindPlainly parameters = true →
      {binders : List Binder} → TypeParameter.binders? table p.types parameters = some binders →
        ReadBinders table (TypeParameter.layouts p parameters) binders
  | [], _, binders, h => by
      rw [TypeParameter.binders?, Option.some_inj] at h
      subst h
      exact .nil
  | ⟨n, none⟩ :: parameters, hplain, binders, h => by
      simp only [TypeParameter.bindPlainly, Bool.and_eq_true, Bool.not_eq_true'] at hplain
      rcases hplain with ⟨⟨hn, -⟩, hmore⟩
      simp only [TypeParameter.binders?, TypeExpr.bound?, Option.bind_eq_bind,
        Option.bind_eq_some_iff, Option.some.injEq] at h
      rcases h with ⟨bound, rfl, list, hlist, rfl⟩
      have hunknown : DerivesTo .prefixed [.word "unknown"] (.keyword "unknown") :=
        .keyword (by decide)
      exact (TypeParameter.readBinders_layouts p parameters hmore hlist).cons hn
        hunknown.intersection.union.type rfl
  | ⟨n, some t⟩ :: parameters, hplain, binders, h => by
      simp only [TypeParameter.bindPlainly, Bool.and_eq_true, Bool.not_eq_true'] at hplain
      rcases hplain with ⟨⟨hn, ht⟩, hmore⟩
      simp only [TypeParameter.binders?, TypeExpr.bound?, Option.bind_eq_bind,
        Option.bind_eq_some_iff, Option.some.injEq] at h
      rcases h with ⟨bound, ⟨u, hu, rfl⟩, list, hlist, rfl⟩
      exact (TypeParameter.readBinders_layouts p parameters hmore hlist).cons hn
        (TypeExpr.derives_layout p t ht hu).type_of_phrase rfl

/-- Each member of an object type is read. -/
theorem MemberType.readFields_layouts (p : Place) :
    (members : List MemberType) → MemberType.bindPlainly members = true →
      {fields : List Field} → MemberType.fields? table p.types members = some fields →
        ReadFields table (MemberType.layouts p members) fields
  | [], _, fields, h => by
      rw [MemberType.fields?, Option.some_inj] at h
      subst h
      exact .nil
  | ⟨.string key, required, readonly, type, document⟩ :: members, hplain, fields, h => by
      rw [MemberType.bindPlainly, Bool.and_eq_true] at hplain
      simp only [MemberType.fields?, Option.bind_eq_bind, Option.bind_eq_some_iff,
        Option.some.injEq] at h
      rcases h with ⟨t, ht, list, hlist, rfl⟩
      exact (MemberType.readFields_layouts p members hplain.2 hlist).cons key required readonly
        (TypeExpr.derives_layout p type hplain.1 ht).type_of_phrase

end

end EcmaWriter
