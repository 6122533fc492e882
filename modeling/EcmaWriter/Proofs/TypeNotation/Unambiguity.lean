import EcmaWriter.Proofs.Script.Unambiguity
import EcmaWriter.Proofs.TypeNotation.Parser

/-!
# EcmaWriter - The grammar of types is unambiguous

The parser finds every derivation of the grammar.  For a phrase this means that the
parser goes on from the end of the phrase with its tree, whatever may follow; the proof
is one case for each production, from its parts to the whole.  A type in parentheses is
not taken for parameters, since no type starts with a word and a colon.

Main results:

- Theorem `TypeNotation.Derives.found`: the parser finds what the grammar derives.
- Theorem `TypeNotation.Derives.unique`: tokens derive at most one tree.
-/

namespace EcmaWriter

namespace TypeNotation

open Script (takeMark takeMark_self commaSeparated enclosed isReference)

/-! ## What may follow -/

/-- How much a symbol after a phrase would go on with. No type stands before a colon. -/
def symbolRank (symbol : String) : Nat :=
  if symbol = "." ∨ symbol = "<" ∨ symbol = ":" then 4
  else if symbol = "[" then 3
  else if symbol = "&" then 2
  else if symbol = "|" then 1
  else 0

/-- How much tokens after a phrase would go on with. -/
def rank : List Token → Nat
  | .punctuator symbol :: _ => symbolRank symbol
  | _ => 0

/-- The rank of tokens is that of the mark that they start with. -/
@[simp] theorem rank_punctuator (symbol : String) (rest : List Token) :
    rank (.punctuator symbol :: rest) = symbolRank symbol := rfl

/-- Tokens of a lower rank do not start with the mark. -/
theorem head?_ne_of_rank (symbol : String) {rest : List Token}
    (h : rank rest < symbolRank symbol) : rest.head? ≠ some (.punctuator symbol) := by
  intro hhead
  obtain ⟨more, rfl⟩ := List.head?_eq_some_iff.mp hhead
  exact Nat.lt_irrefl _ h

/-- A mark that is not there is not taken. -/
theorem takeMark_of_head? {symbol : String} {rest : List Token}
    (h : rest.head? ≠ some (.punctuator symbol)) : takeMark symbol rest = none := by
  match rest with
  | [] => rfl
  | .number _ :: _ => rfl
  | .string _ :: _ => rfl
  | .word _ :: _ => rfl
  | .punctuator other :: _ =>
      rw [takeMark, if_neg]
      rintro rfl
      exact h rfl

/-- A mark of a higher rank than the tokens is not taken. -/
theorem takeMark_of_rank {symbol : String} {rest : List Token} (h : rank rest < symbolRank symbol) :
    takeMark symbol rest = none :=
  takeMark_of_head? (head?_ne_of_rank symbol h)

/-! ## How phrases start -/

/-- Whether a type can start with a token. -/
def isStart : Token → Bool
  | .number _ => false
  | .punctuator symbol => ["(", "\x7b", "<", "|"].contains symbol
  | _ => true

/-- Phrases that do not start with a type operator. -/
def Phrase.isTight : Phrase → Bool
  | primary | suffixed => true
  | _ => false

/-- The word of an operator is that operator. -/
theorem operatorOf?_word (op : Operator) : operatorOf? (.word op.word) = some op := by
  cases op <;> rfl

/-- No operator is the name of a type or a keyword. -/
theorem operatorOf?_of_not_mem {name : String} (h : name ∉ operatorWords) :
    operatorOf? (.word name) = none := by
  unfold operatorOf?
  split
  · rename_i heq
    exact absurd (Script.Token.word.inj heq ▸ (by decide)) h
  · rename_i heq
    exact absurd (Script.Token.word.inj heq ▸ (by decide)) h
  · rename_i heq
    exact absurd (Script.Token.word.inj heq ▸ (by decide)) h
  · rfl

/-- The word of a keyword type is no operator. -/
theorem operatorOf?_keyword {name : String} (h : name ∈ keywordTypes) :
    operatorOf? (.word name) = none := by
  have hall : ∀ name ∈ keywordTypes, name ∉ operatorWords := by decide
  exact operatorOf?_of_not_mem (hall name h)

/-- The name of a type is no keyword type and no operator. -/
theorem not_mem_of_isTypeName {name : String} (h : isTypeName name = true) :
    name ∉ keywordTypes ∧ name ∉ operatorWords := by
  simp only [isTypeName, Bool.and_eq_true, Bool.not_eq_true'] at h
  refine ⟨?_, ?_⟩
  · intro hmem
    exact Bool.false_ne_true (h.1.2.symm.trans (List.contains_iff_mem.mpr hmem))
  · intro hmem
    exact Bool.false_ne_true (h.2.symm.trans (List.contains_iff_mem.mpr hmem))

/-- What a phrase may simply be is no whole type, and tight if the phrase is. -/
theorem Phrase.of_mem_alternatives {A B : Phrase} (h : B ∈ A.alternatives) :
    B ≠ .fields ∧ B ≠ .type ∧ (A.isTight = true → B.isTight = true) := by
  revert h
  cases A <;> cases B <;> decide

/-- Every type has a first token. Only a type as a whole starts with a bar or an angle
bracket, and a tight phrase starts with no type operator. -/
theorem Derives.exists_start {A : Phrase} {ts : List Token} {t : Tree} (d : Derives A ts t)
    (hA : A ≠ .fields) :
    ∃ token more, ts = token :: more ∧ isStart token = true ∧
      (A ≠ .type → token ≠ .punctuator "|") ∧ (A.isTight = true → operatorOf? token = none) := by
  induction d with
  | @unit A B ts t h d ih =>
      rcases Phrase.of_mem_alternatives h with ⟨hfields, htype, htighter⟩
      rcases ih hfields with ⟨token, more, rfl, hstart, hbar, htight⟩
      exact ⟨token, more, rfl, hstart, fun _ => hbar htype, fun hA => htight (htighter hA)⟩
  | keyword h => exact ⟨_, _, rfl, rfl, by simp, fun _ => operatorOf?_keyword h⟩
  | string value => exact ⟨_, _, rfl, rfl, by simp, fun _ => rfl⟩
  | reference rest args h d ih =>
      have hword := operatorOf?_of_not_mem (not_mem_of_isTypeName h).2
      exact ⟨_, _, rfl, rfl, by simp, fun _ => hword⟩
  | parenthesized d ih => exact ⟨_, _, rfl, rfl, by simp, fun _ => rfl⟩
  | object d ih => exact ⟨_, _, rfl, rfl, by simp, fun _ => rfl⟩
  | noField => exact absurd rfl hA
  | lastField f d ih => exact absurd rfl hA
  | moreFields f h d ds ih ihs => exact absurd rfl hA
  | array d ih =>
      rcases ih (by simp) with ⟨token, more, rfl, hstart, hbar, htight⟩
      exact ⟨token, _, rfl, hstart, hbar, htight⟩
  | indexed d du ih ihu =>
      rcases ih (by simp) with ⟨token, more, rfl, hstart, hbar, htight⟩
      exact ⟨token, _, rfl, hstart, hbar, htight⟩
  | operation op d ih => exact ⟨_, _, rfl, rfl, by simp, by simp [Phrase.isTight]⟩
  | intersection d du ih ihu =>
      rcases ih (by simp) with ⟨token, more, rfl, hstart, hbar, -⟩
      exact ⟨token, _, rfl, hstart, hbar, by simp [Phrase.isTight]⟩
  | union d du ih ihu =>
      rcases ih (by simp) with ⟨token, more, rfl, hstart, hbar, -⟩
      exact ⟨token, _, rfl, hstart, hbar, by simp [Phrase.isTight]⟩
  | leadingBar d ih => exact ⟨_, _, rfl, rfl, by simp, by simp [Phrase.isTight]⟩
  | function binders parameters hb hq db dq d ihb ihq ih =>
      cases binders with
      | nil => exact ⟨_, _, rfl, rfl, by simp, by simp [Phrase.isTight]⟩
      | cons b binders => exact ⟨_, _, rfl, rfl, by simp, by simp [Phrase.isTight]⟩

/-- Nothing that starts with a word opens parameters, unless a colon is next. -/
theorem opensParameters_word (name : String) {rest : List Token}
    (h : rest.head? ≠ some (.punctuator ":")) : opensParameters (.word name :: rest) = false := by
  unfold opensParameters
  split
  · rename_i heq
    exact absurd (List.cons.inj heq).1 (by simp)
  · rename_i heq
    obtain rfl := (List.cons.inj heq).2
    exact absurd rfl h
  · rfl

/-- What follows the first name of a reference is no colon, unless the reference ends. -/
theorem head?_dotted_angled {names : List String} {pieces : List (List Token)} {rest : List Token}
    {symbol : String} (hdot : symbol ≠ ".") (hangle : symbol ≠ "<")
    (h : rest.head? ≠ some (.punctuator symbol)) :
    (dotted names ++ angled pieces ++ rest).head? ≠ some (.punctuator symbol) := by
  cases names with
  | cons name names => simpa [dotted] using hdot.symm
  | nil =>
      cases pieces with
      | cons piece pieces => simpa [dotted, angled, enclosed] using hangle.symm
      | nil => simpa [dotted, angled] using h

/-- A type after an opening parenthesis is not taken for parameters, and no type that may be
a part of a union is taken for a function. -/
theorem Derives.not_opensFunction {A : Phrase} {ts : List Token} {t : Tree} (d : Derives A ts t)
    (hA : A ≠ .fields) (rest : List Token) (h : rest.head? ≠ some (.punctuator ":")) :
    opensParameters (ts ++ rest) = false ∧ (A ≠ .type → opensFunction (ts ++ rest) = false) := by
  induction d generalizing rest with
  | @unit A B ts t hB d ih =>
      have hfields : B ≠ .fields := by
        rintro rfl
        cases A <;> simp [Phrase.alternatives] at hB
      have htype : B ≠ .type := by
        rintro rfl
        cases A <;> simp [Phrase.alternatives] at hB
      exact ⟨(ih hfields rest h).1, fun _ => (ih hfields rest h).2 htype⟩
  | keyword hname => exact ⟨opensParameters_word _ h, fun _ => rfl⟩
  | string value => exact ⟨rfl, fun _ => rfl⟩
  | reference names args hname d ih =>
      refine ⟨?_, fun _ => rfl⟩
      exact opensParameters_word _ (head?_dotted_angled (by decide) (by decide) h)
  | parenthesized d ih =>
      refine ⟨rfl, fun _ => ?_⟩
      have hinner := (ih (by simp) (.punctuator ")" :: rest) (by simp)).1
      simpa [enclosed, opensFunction] using hinner
  | object d ih => exact ⟨rfl, fun _ => rfl⟩
  | noField => exact absurd rfl hA
  | lastField f d ih => exact absurd rfl hA
  | moreFields f hf d ds ih ihs => exact absurd rfl hA
  | array d ih =>
      rw [List.append_assoc]
      exact ih (by simp) _ (by simp [enclosed])
  | indexed d du ih ihu =>
      rw [List.append_assoc]
      exact ih (by simp) _ (by simp [enclosed])
  | operation op d ih =>
      refine ⟨?_, fun _ => rfl⟩
      rcases d.exists_start (by simp) with ⟨token, more, rfl, hstart, -⟩
      refine opensParameters_word _ ?_
      intro hhead
      obtain rfl := Option.some.inj hhead
      exact absurd hstart (by decide)
  | intersection d du ih ihu =>
      rw [List.append_assoc]
      exact ih (by simp) _ (by simp)
  | union d du ih ihu =>
      rw [List.append_assoc]
      exact ih (by simp) _ (by simp)
  | leadingBar d ih => exact ⟨rfl, fun hne => absurd rfl hne⟩
  | function binders parameters hb hq db dq d ihb ihq ih =>
      refine ⟨?_, fun hne => absurd rfl hne⟩
      cases binders with
      | nil => rfl
      | cons b binders => rfl

/-! ## What the parser finds -/

/-- What it means for the parser to find a phrase: whatever may follow, the parser goes
on from the end of the phrase with its tree. -/
def Found : Phrase → List Token → Tree → Prop
  | .primary, ts, t => ∀ rest, rank rest ≤ 3 → Parser.primary (ts ++ rest) = some (t, rest)
  | .suffixed, ts, t =>
    ∀ rest, rank rest ≤ 3 → Parser.suffixed (ts ++ rest) = Parser.suffixes t rest
  | .prefixed, ts, t => ∀ rest, rank rest ≤ 2 → Parser.prefixed (ts ++ rest) = some (t, rest)
  | .intersection, ts, t =>
    ∀ rest, rank rest ≤ 2 → Parser.intersection (ts ++ rest) = Parser.intersectionMore t rest
  | .union, ts, t => ∀ rest, rank rest ≤ 1 → Parser.union (ts ++ rest) = Parser.unionMore t rest
  | .type, ts, t => ∀ rest, rank rest = 0 → Parser.type (ts ++ rest) = some (t, rest)
  | .fields, ts, t =>
    ∃ list, t = .object list ∧
      ∀ rest, Parser.fields (ts ++ .punctuator "\x7d" :: rest) = some (list, rest)

namespace Found

open TypeNotation.Parser

/-- What is left of a text is no longer than the text. -/
theorem length_le_append (ts rest : List Token) : rest.length ≤ (ts ++ rest).length :=
  (List.suffix_append ts rest).length_le

/-- No more suffixes are taken before tokens of a low rank. -/
theorem suffixes_stop {t : Tree} {rest : List Token} (h : rank rest ≤ 2) :
    suffixes t rest = some (t, rest) := by
  unfold suffixes
  split
  · exact absurd h (by simp [symbolRank])
  · exact absurd h (by simp [symbolRank])
  · rfl

/-- No more operands of an intersection are taken. -/
theorem intersectionMore_stop {t : Tree} {rest : List Token} (h : rank rest ≤ 1) :
    intersectionMore t rest = some (t, rest) := by
  have hnone : takeMark "&" rest = none := takeMark_of_rank (Nat.lt_succ_of_le h)
  rw [intersectionMore]
  split
  · rfl
  · rename_i after hsome
    exact absurd (hnone.symm.trans hsome) (by simp)

/-- No more operands of a union are taken. -/
theorem unionMore_stop {t : Tree} {rest : List Token} (h : rank rest = 0) :
    unionMore t rest = some (t, rest) := by
  have hnone : takeMark "|" rest = none := takeMark_of_rank (by rw [h]; decide)
  rw [unionMore]
  split
  · rfl
  · rename_i after hsome
    exact absurd (hnone.symm.trans hsome) (by simp)

/-- A union that nothing goes on with. -/
theorem union_stop {ts rest : List Token} {t : Tree} (ih : Found .union ts t)
    (hrest : rank rest = 0) : Parser.union (ts ++ rest) = some (t, rest) := by
  rw [ih rest (by omega), unionMore_stop hrest]

/-- A phrase that is an alternative of a weaker one is found as that one. -/
theorem unit {A B : Phrase} {ts : List Token} {t : Tree} (h : B ∈ A.alternatives)
    (d : Derives B ts t) (ih : Found B ts t) : Found A ts t := by
  cases A with
  | primary => exact absurd h List.not_mem_nil
  | fields => exact absurd h List.not_mem_nil
  | suffixed =>
      obtain rfl := List.mem_singleton.mp h
      intro rest hrest
      rw [suffixed, ih rest hrest]
      exact if_pos (length_le_append ts rest)
  | prefixed =>
      obtain rfl := List.mem_singleton.mp h
      intro rest hrest
      have hsuffixed := ih rest (by omega)
      rcases d.exists_start (by simp) with ⟨token, more, rfl, -, -, htight⟩
      rw [List.cons_append] at hsuffixed ⊢
      rw [prefixed, htight rfl]
      exact hsuffixed.trans (suffixes_stop hrest)
  | intersection =>
      obtain rfl := List.mem_singleton.mp h
      intro rest hrest
      rw [intersection, ih rest hrest]
      exact if_pos (length_le_append ts rest)
  | union =>
      obtain rfl := List.mem_singleton.mp h
      intro rest hrest
      rw [union, ih rest (by omega), intersectionMore_stop hrest]
      exact if_pos (length_le_append ts rest)
  | type =>
      obtain rfl := List.mem_singleton.mp h
      intro rest hrest
      have hopens := (d.not_opensFunction (by simp)
        rest (head?_ne_of_rank ":" (by rw [hrest]; decide))).2 (by simp)
      have hunion := union_stop ih hrest
      rcases d.exists_start (by simp) with ⟨token, more, rfl, -, hbar, -⟩
      have hnone : takeMark "|" (token :: more ++ rest) = none := by
        refine takeMark_of_head? ?_
        intro hhead
        exact hbar (by simp) (Option.some.inj hhead)
      rw [type]
      split
      · rename_i after hsome
        exact absurd (hnone.symm.trans hsome) (by simp)
      · rw [hopens]
        exact hunion

/-! ### Lists -/

section Lists

/-- What it means for the parser to find an entry of a list. -/
def FoundEntry (kind : ListKind) (ts : List Token) (e : Entry) : Prop :=
  ∀ symbol rest, symbol = "," ∨ symbol = kind.closing →
    entry kind (ts ++ .punctuator symbol :: rest) = some (e, .punctuator symbol :: rest)

/-- No symbol after an entry goes on with a type. -/
theorem rank_after_entry {kind : ListKind} {symbol : String} (rest : List Token)
    (h : symbol = "," ∨ symbol = kind.closing) : rank (.punctuator symbol :: rest) = 0 := by
  rw [rank_punctuator]
  rcases h with rfl | rfl
  · decide
  · cases kind <;> decide

/-- An entry of a list of type arguments is a type. -/
theorem foundEntry_argument {ts : List Token} {t : Tree} (ih : Found .type ts t) :
    FoundEntry .arguments ts ⟨"", some t⟩ := by
  intro symbol rest h
  rw [entry, ih _ (rank_after_entry rest h)]
  rfl

/-- An entry of a list of type parameters is a name with its constraint. -/
theorem foundEntry_binder {b : BinderReading}
    (ih : ∀ r ∈ b.bound, Found .type r.tokens r.tree) :
    FoundEntry .binders b.written ⟨b.name, b.bound.map Reading.tree⟩ := by
  intro symbol rest h
  rcases b with ⟨name, bound⟩
  cases bound with
  | none =>
      simp only [BinderReading.written, List.singleton_append]
      rw [entry]
      · rfl
      · simp
  | some r =>
      have hbound := ih r rfl _ (rank_after_entry rest h)
      simp only [BinderReading.written, List.cons_append]
      rw [entry, hbound]
      rfl

/-- An entry of a list of parameters is a name with its type. -/
theorem foundEntry_parameter {q : ParameterReading} (ih : Found .type q.tokens q.tree) :
    FoundEntry .parameters q.written ⟨q.name, some q.tree⟩ := by
  intro symbol rest h
  have htype := ih _ (rank_after_entry rest h)
  simp only [ParameterReading.written, List.cons_append]
  rw [entry, htype]
  rfl

/-- Entries with commas between them, up to the closing symbol. -/
theorem entries_found {α : Type} (kind : ListKind) (written : α → List Token) (e : α → Entry)
    {a : α} {list : List α} (h : ∀ b ∈ a :: list, FoundEntry kind (written b) (e b))
    (rest : List Token) :
    entries kind (commaSeparated ((a :: list).map written) ++ .punctuator kind.closing :: rest) =
      some ((a :: list).map e, rest) := by
  induction list generalizing a with
  | nil =>
      have hentry := h a List.mem_cons_self kind.closing rest (Or.inr rfl)
      have hcomma : takeMark "," (.punctuator kind.closing :: rest) = none := by
        cases kind <;> rfl
      simp only [List.map_singleton, commaSeparated]
      rw [entries, hentry]
      simp only [Option.bind_eq_bind, Option.bind_some, hcomma, takeMark_self]
  | cons b list ih =>
      have hmore := ih fun c hc => h c (List.mem_cons_of_mem _ hc)
      have hentry := h a List.mem_cons_self ","
        (commaSeparated ((b :: list).map written) ++ .punctuator kind.closing :: rest) (Or.inl rfl)
      rw [List.map_cons, List.map_cons, commaSeparated, List.append_assoc, List.cons_append,
        ← List.map_cons (f := written), entries, hentry]
      · simp only [Option.bind_eq_bind, Option.bind_some, takeMark_self, hmore]
        exact if_pos (length_le_append (written a) (.punctuator "," :: _))
      · simp

/-- Type parameters, or none. -/
theorem binderList_found {binders : List BinderReading}
    (ih : ∀ b ∈ binders, ∀ r ∈ b.bound, Found .type r.tokens r.tree) (rest : List Token) :
    binderList (angled (binders.map BinderReading.written) ++ .punctuator "(" :: rest) =
      some (binders.map fun b => ⟨b.name, b.bound.map Reading.tree⟩,
        .punctuator "(" :: rest) := by
  cases binders with
  | nil =>
      rw [binderList]
      rfl
  | cons b binders =>
      have hfound := entries_found .binders BinderReading.written
        (fun b => ⟨b.name, b.bound.map Reading.tree⟩) (fun c hc => foundEntry_binder (ih c hc))
        (.punctuator "(" :: rest)
      have hangled : angled ((b :: binders).map BinderReading.written)
          ++ .punctuator "(" :: rest = .punctuator "<" ::
            (commaSeparated ((b :: binders).map BinderReading.written)
              ++ .punctuator ">" :: .punctuator "(" :: rest) := by
        simp [angled, enclosed]
      rw [hangled, binderList]
      exact hfound

/-- Parameters up to the closing parenthesis, or none. -/
theorem parameterList_found {parameters : List ParameterReading}
    (ih : ∀ q ∈ parameters, Found .type q.tokens q.tree) (rest : List Token) :
    parameterList (commaSeparated (parameters.map ParameterReading.written)
        ++ .punctuator ")" :: rest) =
      some (parameters.map fun q => ⟨q.name, some q.tree⟩, rest) := by
  cases parameters with
  | nil =>
      rw [parameterList]
      rfl
  | cons q parameters =>
      have hfound := entries_found .parameters ParameterReading.written
        (fun q => ⟨q.name, some q.tree⟩) (fun r hr => foundEntry_parameter (ih r hr)) rest
      obtain ⟨tail, htail⟩ := Script.Found.exists_commaSeparated_cons q.written
        (parameters.map ParameterReading.written)
      have hnone : takeMark ")" (commaSeparated ((q :: parameters).map ParameterReading.written)
          ++ .punctuator ")" :: rest) = none := by
        rw [List.map_cons, htail]
        rfl
      rw [parameterList, hnone]
      exact hfound

/-- The name of a member, with a mark after it. -/
theorem takeFieldName_written (isReadonly isQuoted : Bool) (name symbol : String)
    (rest : List Token) :
    takeFieldName ((if isReadonly then [.word "readonly"] else [])
        ++ (if isQuoted then .string name else .word name) :: .punctuator symbol :: rest) =
      some ((isReadonly, name), .punctuator symbol :: rest) := by
  cases isReadonly with
  | true => cases isQuoted <;> rfl
  | false =>
      cases isQuoted with
      | true => rfl
      | false =>
          simp only [Bool.false_eq_true, if_false, List.nil_append]
          rw [takeFieldName]
          · simp
          · simp

/-- A member of an object type, before a separator or the closing brace. -/
theorem field_found {f : FieldReading} (ih : Found .type f.tokens f.tree) {symbol : String}
    (hsymbol : symbolRank symbol = 0) (rest : List Token) :
    Parser.field (f.written ++ .punctuator symbol :: rest) =
      some (f.field, .punctuator symbol :: rest) := by
  have htype := ih (.punctuator symbol :: rest) hsymbol
  have hname := takeFieldName_written f.isReadonly f.isQuoted f.name
  rw [field, FieldReading.written, FieldReading.field]
  simp only [List.append_assoc, List.cons_append]
  cases f.isOptional with
  | true =>
      simp only [if_true, List.singleton_append, hname, Option.bind_eq_bind, Option.bind_some,
        takeMark_self, Option.getD_some, htype]
      refine if_pos ?_
      simp only [List.length_append, List.length_cons]
      omega
  | false =>
      have hnone : takeMark "?" (.punctuator ":" :: (f.tokens ++ .punctuator symbol :: rest)) =
          none := rfl
      simp only [Bool.false_eq_true, if_false, List.nil_append, hname, Option.bind_eq_bind,
        Option.bind_some, hnone, Option.getD_none, takeMark_self, htype]
      refine if_pos ?_
      simp only [List.length_append, List.length_cons]
      omega

/-- A member of an object type does not start with the closing brace. -/
theorem takeMark_field (f : FieldReading) (us : List Token) :
    takeMark "\x7d" (f.written ++ us) = none := by
  rw [FieldReading.written]
  cases f.isReadonly <;> cases f.isQuoted <;> rfl

end Lists

/-! ### Productions -/

/-- All names after points are taken, up to a token that is no point. -/
theorem takeNames_dotted (names : List String) (rest : List Token)
    (h : rest.head? ≠ some (.punctuator ".")) :
    takeNames (dotted names ++ rest) = (names, rest) := by
  induction names with
  | nil =>
      simp only [dotted, List.flatMap_nil, List.nil_append]
      rw [takeNames]
      intro name more heq
      exact h (by rw [heq]; rfl)
  | cons name names ih =>
      have hcons : dotted (name :: names) ++ rest =
          .punctuator "." :: .word name :: (dotted names ++ rest) := by
        simp [dotted]
      rw [hcons, takeNames, ih]

/-- The word of a keyword type. -/
theorem keyword {name : String} (h : name ∈ keywordTypes) :
    Found .primary [.word name] (.keyword name) := by
  intro rest hrest
  rw [List.singleton_append, primary]
  exact if_pos h

/-- A name with points and type arguments. -/
theorem reference {head : String} (names : List String) {args : List Reading}
    (h : isTypeName head = true) (ih : ∀ a ∈ args, Found .type a.tokens a.tree) :
    Found .primary (.word head :: (dotted names ++ angled (args.map Reading.tokens)))
      (.reference (head :: names) (args.map Reading.tree)) := by
  intro rest hrest
  have hkeyword := (not_mem_of_isTypeName h).1
  cases args with
  | nil =>
      have hnames := takeNames_dotted names
        rest (head?_ne_of_rank "." (Nat.lt_succ_of_le hrest))
      have hnone : takeMark "<" rest = none := takeMark_of_rank (Nat.lt_succ_of_le hrest)
      have hangled : angled (([] : List Reading).map Reading.tokens) = [] := rfl
      rw [hangled, List.append_nil, List.cons_append, primary, if_neg hkeyword, hnames, hnone]
      rfl
  | cons a args =>
      have hfound := entries_found .arguments Reading.tokens
        (fun r => ⟨"", some r.tree⟩) (fun r hr => foundEntry_argument (ih r hr)) rest
      have hangled : angled ((a :: args).map Reading.tokens) ++ rest = .punctuator "<" ::
          (commaSeparated ((a :: args).map Reading.tokens) ++ .punctuator ">" :: rest) := by
        simp [angled, enclosed]
      have hnames := takeNames_dotted names (.punctuator "<" ::
        (commaSeparated ((a :: args).map Reading.tokens) ++ .punctuator ">" :: rest)) (by simp)
      have htypes : ((a :: args).map fun r => (⟨"", some r.tree⟩ : Entry)).filterMap Entry.type =
          (a :: args).map Reading.tree := by
        rw [List.filterMap_map]
        exact congrFun List.filterMap_eq_map (a :: args)
      rw [List.cons_append, List.append_assoc, hangled, primary, if_neg hkeyword, hnames,
        takeMark_self]
      simp only [Option.bind_eq_bind]
      rw [ListKind.closing] at hfound
      rw [if_pos, hfound]
      · rw [Option.bind_some, htypes]
      · simp only [List.length_append, List.length_cons]
        omega

/-- A literal type. -/
theorem string (value : String) : Found .primary [.string value] (.string value) := by
  intro rest hrest
  rw [List.singleton_append, primary]

/-- A type in parentheses is found as the type. -/
theorem parenthesized {ts : List Token} {t : Tree} (ih : Found .type ts t) :
    Found .primary (enclosed "(" ")" ts) t := by
  intro rest hrest
  have htype := ih (.punctuator ")" :: rest) (by simp [symbolRank])
  simp only [enclosed, List.cons_append, List.append_assoc, List.nil_append]
  rw [primary, htype]
  rfl

/-- An object type is found as its members are. -/
theorem object {ts : List Token} {t : Tree} (ih : Found .fields ts t) :
    Found .primary (enclosed "\x7b" "\x7d" ts) t := by
  rcases ih with ⟨list, rfl, hfields⟩
  intro rest hrest
  simp only [enclosed, List.cons_append, List.append_assoc, List.nil_append]
  rw [primary, hfields]
  rfl

/-- An object type may have no members. -/
theorem noField : Found .fields [] (.object []) := by
  refine ⟨[], rfl, ?_⟩
  intro rest
  rw [List.nil_append, fields]
  simp

/-- The last member of an object type needs no mark after it. -/
theorem lastField {f : FieldReading} (ih : Found .type f.tokens f.tree) :
    Found .fields f.written (.object [f.field]) := by
  refine ⟨_, rfl, ?_⟩
  intro rest
  have hfield := field_found ih (by decide : symbolRank "\x7d" = 0) rest
  have hseparator : takeSeparator (.punctuator "\x7d" :: rest) = none := rfl
  rw [fields, takeMark_field, hfield]
  simp only [Option.bind_eq_bind, Option.bind_some, hseparator, takeMark_self]

/-- The members of an object type have semicolons or commas between them. -/
theorem moreFields {f : FieldReading} {symbol : String} {ts : List Token} {list : List Field}
    (h : symbol = ";" ∨ symbol = ",") (ih : Found .type f.tokens f.tree)
    (ihs : Found .fields ts (.object list)) :
    Found .fields (f.written ++ .punctuator symbol :: ts) (.object (f.field :: list)) := by
  rcases ihs with ⟨more, heq, hmore⟩
  obtain rfl := Tree.object.inj heq
  refine ⟨_, rfl, ?_⟩
  intro rest
  have hrank : symbolRank symbol = 0 := by
    rcases h with rfl | rfl <;> decide
  have hseparator : takeSeparator (.punctuator symbol :: (ts ++ .punctuator "\x7d" :: rest)) =
      some (ts ++ .punctuator "\x7d" :: rest) := by
    rcases h with rfl | rfl <;> rfl
  have hfield := field_found ih hrank (ts ++ .punctuator "\x7d" :: rest)
  rw [List.append_assoc, List.cons_append, fields, takeMark_field, hfield]
  simp only [Option.bind_eq_bind, Option.bind_some, hseparator, hmore]
  exact if_pos (length_le_append f.written (.punctuator symbol :: _))

/-- Square brackets with nothing in them are an array type. -/
theorem array {ts : List Token} {t : Tree} (ih : Found .suffixed ts t) :
    Found .suffixed (ts ++ enclosed "[" "]" []) (.array t) := by
  intro rest hrest
  have hbrackets := ih (.punctuator "[" :: .punctuator "]" :: rest) (by simp [symbolRank])
  simp only [enclosed, List.append_assoc, List.cons_append, List.nil_append]
  rw [hbrackets, suffixes]

/-- Square brackets with a type in them take a member of a type. -/
theorem indexed {ts us : List Token} {t u : Tree} (du : Derives .type us u)
    (ih : Found .suffixed ts t) (ihu : Found .type us u) :
    Found .suffixed (ts ++ enclosed "[" "]" us) (.indexed t u) := by
  intro rest hrest
  have hbase := ih (.punctuator "[" :: (us ++ .punctuator "]" :: rest)) (by simp [symbolRank])
  have hindex := ihu (.punctuator "]" :: rest) (by simp [symbolRank])
  simp only [enclosed, List.append_assoc, List.cons_append, List.nil_append]
  rw [hbase, suffixes, hindex]
  · simp only [Option.bind_eq_bind, Option.bind_some, takeMark_self]
    exact if_pos (Nat.le_of_succ_le (length_le_append us (.punctuator "]" :: rest)))
  · rcases du.exists_start (by simp) with ⟨token, more, rfl, hstart, -⟩
    intro after heq
    obtain rfl := (List.cons.inj heq).1
    exact absurd hstart (by decide)

/-- An operator before a type that may have operators before it. -/
theorem operation {ts : List Token} {t : Tree} (op : Operator) (ih : Found .prefixed ts t) :
    Found .prefixed (.word op.word :: ts) (.operation op t) := by
  intro rest hrest
  rw [List.cons_append, prefixed, operatorOf?_word]
  simp only [ih rest hrest]
  rfl

/-- An intersection takes one operand more. -/
theorem intersection {ts us : List Token} {t u : Tree} (ih : Found .intersection ts t)
    (ihu : Found .prefixed us u) :
    Found .intersection (ts ++ .punctuator "&" :: us) (.intersection [t, u]) := by
  intro rest hrest
  have hleft := ih (.punctuator "&" :: (us ++ rest)) (by simp [symbolRank])
  rw [List.append_assoc, List.cons_append, hleft, intersectionMore, takeMark_self]
  simp only [Option.bind_eq_bind, ihu rest hrest, Option.bind_some]
  exact if_pos (length_le_append us rest)

/-- A union takes one operand more. -/
theorem union {ts us : List Token} {t u : Tree} (ih : Found .union ts t)
    (ihu : Found .intersection us u) :
    Found .union (ts ++ .punctuator "|" :: us) (.union [t, u]) := by
  intro rest hrest
  have hleft := ih (.punctuator "|" :: (us ++ rest)) (by simp [symbolRank])
  have hright : Parser.intersection (us ++ rest) = some (u, rest) := by
    rw [ihu rest (by omega), intersectionMore_stop hrest]
  rw [List.append_assoc, List.cons_append, hleft, unionMore, takeMark_self]
  simp only [Option.bind_eq_bind, hright, Option.bind_some]
  exact if_pos (length_le_append us rest)

/-- A bar may stand before the first operand of a union. -/
theorem leadingBar {ts : List Token} {t : Tree} (ih : Found .union ts t) :
    Found .type (.punctuator "|" :: ts) t := by
  intro rest hrest
  rw [List.cons_append, type, takeMark_self]
  exact union_stop ih hrest

/-- Type parameters and parameters open a function. -/
theorem opensFunction_head (binders : List BinderReading) (parameters : List ParameterReading)
    (rest : List Token) :
    opensFunction (angled (binders.map BinderReading.written) ++ .punctuator "(" ::
      (commaSeparated (parameters.map ParameterReading.written)
        ++ .punctuator ")" :: rest)) = true := by
  cases binders with
  | cons b binders => rfl
  | nil =>
      cases parameters with
      | nil => rfl
      | cons q parameters =>
          obtain ⟨tail, htail⟩ := Script.Found.exists_commaSeparated_cons q.written
            (parameters.map ParameterReading.written)
          rw [List.map_cons, htail]
          rfl

/-- A type that opens as a function is parsed as one. -/
theorem type_of_opensFunction {ts : List Token} (h : opensFunction ts = true) :
    Parser.type ts = Parser.function ts := by
  have hnone : takeMark "|" ts = none := by
    refine takeMark_of_head? ?_
    intro hhead
    obtain ⟨more, rfl⟩ := List.head?_eq_some_iff.mp hhead
    exact absurd h (by simp [opensFunction])
  rw [type]
  split
  · rename_i after hsome
    exact absurd (hnone.symm.trans hsome) (by simp)
  · rw [if_pos h]

/-- A function type, with its type parameters, its parameters and its result. -/
theorem function {ts : List Token} {t : Tree} {binders : List BinderReading}
    {parameters : List ParameterReading}
    (ihb : ∀ b ∈ binders, ∀ r ∈ b.bound, Found .type r.tokens r.tree)
    (ihq : ∀ q ∈ parameters, Found .type q.tokens q.tree) (ih : Found .type ts t) :
    Found .type
      (angled (binders.map BinderReading.written)
        ++ enclosed "(" ")" (commaSeparated (parameters.map ParameterReading.written))
        ++ .punctuator "=>" :: ts)
      (.function (binders.map BinderReading.binder) (parameters.map fun q => q.tree) t) := by
  intro rest hrest
  have hbinders := binderList_found ihb (commaSeparated
    (parameters.map ParameterReading.written) ++ .punctuator ")" ::
      .punctuator "=>" :: (ts ++ rest))
  have hparameters := parameterList_found ihq (.punctuator "=>" :: (ts ++ rest))
  have hresult := ih rest hrest
  simp only [enclosed, List.append_assoc, List.cons_append, List.nil_append]
  rw [type_of_opensFunction (opensFunction_head binders parameters _), Parser.function, hbinders]
  simp only [Option.bind_eq_bind, Option.bind_some, takeMark_self, hparameters, hresult]
  rw [if_pos, if_pos]
  · simp [Entry.binder, BinderReading.binder, Function.comp_def]
  · simp only [List.length_append, List.length_cons]
    omega
  · simp only [List.length_append, List.length_cons]
    omega

end Found

/-! ## Uniqueness -/

namespace Derives

/-- The parser finds what the grammar derives. -/
theorem found {A : Phrase} {ts : List Token} {t : Tree} (d : Derives A ts t) : Found A ts t := by
  induction d with
  | unit h d ih => exact Found.unit h d ih
  | keyword h => exact Found.keyword h
  | string value => exact Found.string value
  | reference names args h d ih => exact Found.reference names h ih
  | parenthesized d ih => exact Found.parenthesized ih
  | object d ih => exact Found.object ih
  | noField => exact Found.noField
  | lastField f d ih => exact Found.lastField ih
  | moreFields f h d ds ih ihs => exact Found.moreFields h ih ihs
  | array d ih => exact Found.array ih
  | indexed d du ih ihu => exact Found.indexed du ih ihu
  | operation op d ih => exact Found.operation op ih
  | intersection d du ih ihu => exact Found.intersection ih ihu
  | union d du ih ihu => exact Found.union ih ihu
  | leadingBar d ih => exact Found.leadingBar ih
  | function binders parameters hb hq db dq d ihb ihq ih => exact Found.function ihb ihq ih

/-- Tokens derive at most one tree. -/
theorem unique {ts : List Token} {t u : Tree} (d : Derives .type ts t)
    (du : Derives .type ts u) : t = u := by
  have ht : Parser.type (ts ++ []) = some (t, []) := d.found [] rfl
  have hu : Parser.type (ts ++ []) = some (u, []) := du.found [] rfl
  rw [ht, Option.some_inj, Prod.mk.injEq] at hu
  exact hu.1

end Derives

end TypeNotation

end EcmaWriter
