import EcmaWriter.Proofs.Script.Parser

/-!
# EcmaWriter - The grammar is unambiguous

The parser finds every derivation of the grammar.  For a phrase this means that the
parser goes on from the end of the phrase with its tree, whatever may follow; the proof
is one case for each production, from its parts to the whole.

Main results:

- Theorem `Derives.found`: the parser finds what the grammar derives.
- Theorem `Derives.unique`: tokens derive at most one tree.
-/

namespace EcmaWriter

namespace Script

/-! ## How phrases start -/

/-- Whether an expression can start with a token. -/
def isStart : Token → Bool
  | .punctuator symbol => ["(", "[", "\x7b", "-", "~", "!"].contains symbol
  | _ => true

/-- Phrases that do not start with a unary operator. -/
def Phrase.isTight : Phrase → Bool
  | primary | member | construction | call | leftHand => true
  | _ => false

/-- A name is no operator. -/
theorem unaryOf?_reference {name : String} (h : isReference name = true) :
    unaryOf? (.word name) = none := by
  unfold unaryOf?
  split
  · exact Token.noConfusion ‹_›
  · exact Token.noConfusion ‹_›
  · exact Token.noConfusion ‹_›
  · rename_i heq
    exact absurd (Token.word.inj heq ▸ h) (by decide)
  · rename_i heq
    exact absurd (Token.word.inj heq ▸ h) (by decide)
  · rfl

/-- The token of an operator is that operator. -/
theorem unaryOf?_unaryToken (op : UnaryOperator) : unaryOf? (unaryToken op) = some op := by
  cases op <;> rfl

/-- Every phrase has a first token, which tells a tight phrase from a unary operator. -/
theorem Derives.exists_start {A : Phrase} {ts : List Token} {t : Tree} (h : Derives A ts t) :
    ∃ token more, ts = token :: more ∧ isStart token = true ∧
      (A.isTight = true → unaryOf? token = none) ∧ (A = .primary → token ≠ .word "new") := by
  induction h with
  | @unit A B ts t h d ih =>
      rcases ih with ⟨token, more, rfl, hstart, htight, -⟩
      refine ⟨token, more, rfl, hstart, ?_, ?_⟩
      · intro hA
        refine htight ?_
        cases A <;> simp [Phrase.alternatives, Phrase.isTight] at h hA <;> grind [Phrase.isTight]
      · rintro rfl
        exact absurd h List.not_mem_nil
  | number value => exact ⟨_, _, rfl, rfl, fun _ => rfl, by simp⟩
  | string value => exact ⟨_, _, rfl, rfl, fun _ => rfl, by simp⟩
  | boolean value => exact ⟨_, _, rfl, rfl, by cases value <;> simp [unaryOf?], by grind⟩
  | null => exact ⟨_, _, rfl, rfl, fun _ => rfl, by simp⟩
  | undefined => exact ⟨_, _, rfl, rfl, fun _ => rfl, by simp⟩
  | reference h =>
      refine ⟨_, _, rfl, rfl, fun _ => unaryOf?_reference h, ?_⟩
      intro _ hnew
      exact absurd (Token.word.inj hnew ▸ h) (by decide)
  | parenthesized d ih => exact ⟨_, _, rfl, rfl, fun _ => rfl, by simp⟩
  | array items d ih => exact ⟨_, _, rfl, rfl, fun _ => rfl, by simp⟩
  | object properties h d ih => exact ⟨_, _, rfl, rfl, fun _ => rfl, by simp⟩
  | dot name h d ih =>
      rcases ih with ⟨token, more, rfl, hstart, htight, hnew⟩
      exact ⟨token, _, rfl, hstart, htight, hnew⟩
  | index h d du ih _ =>
      rcases ih with ⟨token, more, rfl, hstart, htight, hnew⟩
      exact ⟨token, _, rfl, hstart, htight, hnew⟩
  | new args d da ih _ => exact ⟨_, _, rfl, rfl, fun _ => rfl, by simp⟩
  | newBare d ih => exact ⟨_, _, rfl, rfl, fun _ => rfl, by simp⟩
  | call args h d da ih _ =>
      rcases ih with ⟨token, more, rfl, hstart, htight, -⟩
      refine ⟨token, _, rfl, hstart, fun _ => htight ?_, by simp⟩
      rcases h with rfl | rfl <;> rfl
  | unary op d ih =>
      refine ⟨_, _, rfl, ?_, by simp [Phrase.isTight], by simp⟩
      cases op <;> rfl
  | binary op d du ih _ =>
      rcases ih with ⟨token, more, rfl, hstart, -, -⟩
      refine ⟨token, _, rfl, hstart, ?_, ?_⟩
      · intro h
        cases op <;> exact absurd h (by decide)
      · intro h
        cases op <;> exact absurd h (by decide)
  | conditional d du dv ih _ _ =>
      rcases ih with ⟨token, more, rfl, hstart, -, -⟩
      exact ⟨token, _, rfl, hstart, by simp [Phrase.isTight], by simp⟩
  | arrow isAsync parameters h d hbrace ih =>
      cases isAsync
      · exact ⟨_, _, rfl, rfl, fun _ => rfl, by simp⟩
      · exact ⟨_, _, rfl, rfl, fun _ => rfl, by simp⟩

/-! ## What the parser finds -/

/-- What it means for the parser to find a phrase: whatever may follow, the parser goes
on from the end of the phrase with its tree. -/
def Found (A : Phrase) (ts : List Token) (t : Tree) : Prop :=
  ∀ rest, rank rest ≤ A.reach →
    match A with
    | .primary => Parser.primary (ts ++ rest) = some (t, rest)
    | .member => Parser.member (ts ++ rest) = Parser.members t rest
    | .construction => Parser.member (ts ++ rest) = some (t, rest)
    | .call => Parser.leftHand (ts ++ rest) = Parser.calls t rest
    | .leftHand => Parser.leftHand (ts ++ rest) = some (t, rest)
    | .unary => Parser.unary (ts ++ rest) = some (t, rest)
    | .conditional => Parser.assignment (ts ++ rest) = some (t, rest)
    | .assignment => Parser.assignment (ts ++ rest) = some (t, rest)
    | A => ∀ least ≤ A.floor, Parser.binary least (ts ++ rest) = Parser.climb least t rest

namespace Found

open Script.Parser

/-- Phrases with binary operators are climbed. -/
theorem climbed {A B : Phrase} {ts : List Token} {t : Tree} (hreach : A.reach ≤ B.reach)
    (hfloor : A.floor ≤ B.floor)
    (ih : ∀ rest, rank rest ≤ B.reach → ∀ least ≤ B.floor,
      binary least (ts ++ rest) = climb least t rest) :
    ∀ rest, rank rest ≤ A.reach → ∀ least ≤ A.floor,
      binary least (ts ++ rest) = climb least t rest := by
  intro rest hrest least hleast
  exact ih rest (by omega) least (by omega)

/-- A phrase that is an alternative of a weaker one is found as that one. -/
theorem unit {A B : Phrase} {ts : List Token} {t : Tree} (h : B ∈ A.alternatives)
    (d : Derives B ts t) (ih : Found B ts t) : Found A ts t := by
  rcases d.exists_start with ⟨token, more, rfl, -, htight, hnew⟩
  cases A with
  | primary => exact absurd h List.not_mem_nil
  | call => exact absurd h List.not_mem_nil
  | coalescence => exact absurd h List.not_mem_nil
  | member =>
      obtain rfl := List.mem_singleton.mp h
      intro rest hrest
      have hprimary := ih rest hrest
      refine member_of_primary ?_ hprimary (List.suffix_append _ rest).length_le
      intro us heq
      exact hnew rfl (List.cons.inj heq).1
  | construction =>
      obtain rfl := List.mem_singleton.mp h
      intro rest hrest
      have hmember := ih rest (by simp [Phrase.reach] at *; omega)
      simp only at hmember ⊢
      rw [hmember, members_stop hrest]
  | leftHand =>
      rw [Phrase.alternatives, List.mem_cons, List.mem_singleton] at h
      intro rest hrest
      rcases h with rfl | rfl
      · have hmember := ih rest hrest
        simp only at hmember ⊢
        rw [leftHand_of_member hmember (List.suffix_append _ rest).length_le, calls_stop hrest]
      · have hcall := ih rest (by simp [Phrase.reach] at *; omega)
        simp only at hcall ⊢
        rw [hcall, calls_stop hrest]
  | unary =>
      obtain rfl := List.mem_singleton.mp h
      intro rest hrest
      have hleft := ih rest hrest
      simp only [List.cons_append] at hleft ⊢
      rw [unary, htight rfl]
      exact hleft
  | power =>
      obtain rfl := List.mem_singleton.mp h
      intro rest hrest least hleast
      have hunary := ih rest (by simp [Phrase.reach] at *; omega)
      exact binary_of_unary hunary (List.suffix_append _ rest).length_le
  | conditional =>
      obtain rfl := List.mem_singleton.mp h
      intro rest hrest
      have hzero : rank rest = 0 := Nat.le_zero.mp hrest
      have hbinary := ih rest (by omega) 0 (Nat.zero_le _)
      simp only at hbinary ⊢
      rw [assignment, hbinary, climb_zero_stop (by omega)]
      simp only [Option.bind_eq_bind, Option.bind_some]
      rw [takeMark_eq_none_of_rank (by rw [hzero]; decide)]
  | assignment =>
      obtain rfl := List.mem_singleton.mp h
      exact ih
  | coalesceHead =>
      rw [Phrase.alternatives, List.mem_cons, List.mem_singleton] at h
      rcases h with rfl | rfl
      · exact climbed (by decide) (by decide) ih
      · exact climbed (by decide) (by decide) ih
  | shortCircuit =>
      rw [Phrase.alternatives, List.mem_cons, List.mem_singleton] at h
      rcases h with rfl | rfl
      · exact climbed (by decide) (by decide) ih
      · exact climbed (by decide) (by decide) ih
  | _ =>
      obtain rfl := List.mem_singleton.mp h
      exact climbed (by decide) (by decide) ih

/-- A name that is no reserved word. -/
theorem reference {name : String} (h : isReference name = true) :
    Found .primary [.word name] (.reference name) := by
  intro rest hrest
  simp only [List.singleton_append]
  rw [primary]
  all_goals
    rintro rfl
    exact absurd h (by decide)

/-! ### Lists -/

section Lists

variable {closing : String} {us : List Token}

/-- A mark with which no expression starts is not taken before one. -/
theorem takeMark_of_start {symbol : String} {token : Token} (h : isStart token = true)
    (hsymbol : isStart (.punctuator symbol) = false) : takeMark symbol (token :: us) = none := by
  cases token with
  | punctuator other =>
      rw [takeMark, if_neg]
      rintro rfl
      rw [h] at hsymbol
      exact Bool.noConfusion hsymbol
  | _ => rfl

/-- What comes after a token is shorter than what the token is in. -/
theorem length_lt_append_cons (ts : List Token) (token : Token) (us : List Token) :
    us.length < (ts ++ token :: us).length :=
  (List.suffix_append ts (token :: us)).length_le

/-- No expression goes on with a comma. -/
theorem rank_comma : rank (.punctuator "," :: us) = 0 := by
  rw [rank_punctuator]
  decide

/-- No expression goes on with a closing bracket. -/
theorem rank_bracket : rank (.punctuator "]" :: us) = 0 := by
  rw [rank_punctuator]
  decide

/-- A list starts as its first piece does. -/
theorem exists_commaSeparated_cons (ts : List Token) (rest : List (List Token)) :
    ∃ tail, commaSeparated (ts :: rest) = ts ++ tail := by
  cases rest with
  | nil => exact ⟨[], (List.append_nil ts).symm⟩
  | cons us rest => exact ⟨_, rfl⟩

/-- The dots before an item are seen. -/
theorem takeMark_written {i : ItemReading} (d : Derives .assignment i.tokens i.tree) :
    takeMark "..." (i.written ++ us) = if i.spread then some (i.tokens ++ us) else none := by
  rw [ItemReading.written]
  cases i.spread with
  | true => rfl
  | false =>
      rcases d.exists_start with ⟨token, more, htokens, hstart, -⟩
      rw [htokens]
      exact takeMark_of_start hstart (by decide)

/-- One item, whatever follows. -/
theorem itemsFrom_item (closing : String) (us : List Token) {i : ItemReading}
    (d : Derives .assignment i.tokens i.tree)
    (ih : Found .assignment i.tokens i.tree) (hus : rank us = 0) :
    itemsFrom closing (i.written ++ us) =
      (match takeMark "," us with
      | some rest =>
        if rest.length < (i.written ++ us).length then do
          let (list, rest) ← itemsFrom closing rest
          some (i.item :: list, rest)
        else none
      | none => do
        let rest ← takeMark closing us
        some ([i.item], rest)) := by
  have hassignment : Parser.assignment (i.tokens ++ us) = some (i.tree, us) := ih us (by omega)
  have hdots : (takeMark "..." (i.written ++ us)).getD (i.written ++ us) = i.tokens ++ us := by
    rw [takeMark_written d, ItemReading.written]
    cases i.spread <;> rfl
  have hspread : (takeMark "..." (i.written ++ us)).isSome = i.spread := by
    rw [takeMark_written d]
    cases i.spread <;> rfl
  rw [itemsFrom, hdots, hassignment, hspread]
  rfl

/-- Items with commas between them, up to a closing bracket. -/
theorem itemsFrom_found (hcomma : closing ≠ ",") (hrank : symbolRank closing = 0)
    {i : ItemReading} {list : List ItemReading}
    (d : ∀ j ∈ i :: list, Derives .assignment j.tokens j.tree)
    (ih : ∀ j ∈ i :: list, Found .assignment j.tokens j.tree) (rest : List Token) :
    itemsFrom closing
        (commaSeparated ((i :: list).map ItemReading.written) ++ .punctuator closing :: rest) =
      some ((i :: list).map ItemReading.item, rest) := by
  induction list generalizing i with
  | nil =>
      have hone := itemsFrom_item closing (.punctuator closing :: rest)
        (d i List.mem_cons_self) (ih i List.mem_cons_self) hrank
      have hnone : takeMark "," (.punctuator closing :: rest) = none := by
        rw [takeMark, if_neg hcomma]
      rw [hnone, takeMark_self] at hone
      exact hone
  | cons j list hlist =>
      have hmore := hlist (fun k hk => d k (List.mem_cons_of_mem _ hk))
        (fun k hk => ih k (List.mem_cons_of_mem _ hk))
      have hone := itemsFrom_item closing
        (.punctuator "," :: (commaSeparated ((j :: list).map ItemReading.written)
          ++ .punctuator closing :: rest))
        (d i List.mem_cons_self) (ih i List.mem_cons_self) rank_comma
      rw [takeMark_self] at hone
      simp only [hmore] at hone
      rw [List.map_cons, List.map_cons, commaSeparated, List.append_assoc, List.cons_append]
      · exact hone.trans (if_pos (length_lt_append_cons _ _ _))
      · simp

/-- Items in brackets. -/
theorem items_found (closing : String) (list : List ItemReading) (hcomma : closing ≠ ",")
    (hrank : symbolRank closing = 0) (hdots : closing ≠ "...")
    (hclosing : isStart (.punctuator closing) = false)
    (d : ∀ j ∈ list, Derives .assignment j.tokens j.tree)
    (ih : ∀ j ∈ list, Found .assignment j.tokens j.tree) (rest : List Token) :
    items closing
        (commaSeparated (list.map ItemReading.written) ++ .punctuator closing :: rest) =
      some (list.map ItemReading.item, rest) := by
  cases list with
  | nil =>
      rw [items]
      simp [commaSeparated]
  | cons i list =>
      have hstart : ∀ vs, takeMark closing (i.written ++ vs) = none := by
        intro vs
        rw [ItemReading.written]
        cases i.spread with
        | true => exact if_neg hdots.symm
        | false =>
            rcases (d i List.mem_cons_self).exists_start with ⟨token, more, htokens, hstart, -⟩
            rw [htokens]
            exact takeMark_of_start hstart hclosing
      rcases exists_commaSeparated_cons i.written (list.map ItemReading.written) with ⟨tail, htail⟩
      rw [items, List.map_cons, htail, List.append_assoc, hstart, ← List.append_assoc, ← htail]
      exact itemsFrom_found hcomma hrank d ih rest

/-- Arguments in parentheses. -/
theorem items_arguments (args : List Reading)
    (d : ∀ a ∈ args, Derives .assignment a.tokens a.tree)
    (ih : ∀ a ∈ args, Found .assignment a.tokens a.tree) (rest : List Token) :
    items ")" (commaSeparated (args.map Reading.tokens) ++ .punctuator ")" :: rest) =
      some (args.map fun a => ⟨a.tree, false⟩, rest) := by
  have hfound := items_found ")" (args.map fun a => ⟨a, false⟩) (by decide) (by decide)
    (by decide) (by decide) (by simpa using d) (by simpa using ih) rest
  simpa [ItemReading.written, ItemReading.item, Function.comp_def] using hfound

/-- A member of an object, before a comma or the closing brace. -/
theorem property_found (us : List Token) {q : PropertyReading} (h : q.isLegal = true)
    (ih : ∀ r ∈ q.readings, Found .assignment r.tokens r.tree) (hus : rank us = 0)
    (hcolon : takeMark ":" us = none) :
    Parser.property (q.written ++ us) = some (q.property, us) := by
  have hread : ∀ r ∈ q.readings, assignment (r.tokens ++ us) = some (r.tree, us) := by
    intro r hr
    exact ih r hr us (by omega)
  cases q with
  | spread value =>
      have hvalue := hread value List.mem_cons_self
      simp [PropertyReading.written, Parser.property, hvalue, PropertyReading.property]
  | named name value =>
      have hvalue := hread value List.mem_cons_self
      simp [PropertyReading.written, Parser.property, hvalue, PropertyReading.property]
  | quoted key value =>
      have hvalue := hread value List.mem_cons_self
      simp [PropertyReading.written, Parser.property, hvalue, PropertyReading.property]
  | computed key value =>
      have hvalue := hread value (List.mem_cons_of_mem _ List.mem_cons_self)
      have hkey : assignment (key.tokens ++ .punctuator "]" :: .punctuator ":" ::
            (value.tokens ++ us)) =
          some (key.tree, .punctuator "]" :: .punctuator ":" :: (value.tokens ++ us)) :=
        ih key List.mem_cons_self _ (Nat.le_of_eq rank_bracket)
      have hlength : (value.tokens ++ us).length ≤
          (key.tokens ++ .punctuator "]" :: .punctuator ":" :: (value.tokens ++ us)).length := by
        simp only [List.length_append, List.length_cons]
        omega
      simp [PropertyReading.written, enclosed, Parser.property, PropertyReading.property, hkey,
        hvalue, -List.length_append, hlength]
  | shorthand name =>
      simp [PropertyReading.written, Parser.property, hcolon, PropertyReading.property]

/-- No member starts like the end of an object. -/
theorem takeMark_property {q : PropertyReading} :
    takeMark "\x7d" (q.written ++ us) = none := by
  cases q <;> simp [PropertyReading.written, enclosed, takeMark]

/-- Members of an object with commas between them, up to the closing brace. -/
theorem propertiesFrom_found {q : PropertyReading} {list : List PropertyReading}
    (h : ∀ r ∈ q :: list, r.isLegal = true)
    (ih : ∀ p ∈ q :: list, ∀ r ∈ p.readings, Found .assignment r.tokens r.tree)
    (rest : List Token) :
    propertiesFrom
        (commaSeparated ((q :: list).map PropertyReading.written) ++ .punctuator "\x7d" :: rest) =
      some ((q :: list).map PropertyReading.property, rest) := by
  have hq := h q List.mem_cons_self
  have ihq := ih q List.mem_cons_self
  induction list generalizing q with
  | nil =>
      have hone := property_found (.punctuator "\x7d" :: rest) hq ihq
        (by rw [rank_punctuator]; decide) (by simp [takeMark])
      rw [List.map_singleton, commaSeparated, propertiesFrom, hone]
      simp [takeMark]
  | cons p list hlist =>
      have hmore := hlist (fun k hk => h k (List.mem_cons_of_mem _ hk))
        (fun k hk => ih k (List.mem_cons_of_mem _ hk))
        (h p (List.mem_cons_of_mem _ List.mem_cons_self))
        (ih p (List.mem_cons_of_mem _ List.mem_cons_self))
      have hone := property_found (.punctuator "," ::
          (commaSeparated ((p :: list).map PropertyReading.written) ++ .punctuator "\x7d" :: rest))
        hq ihq rank_comma (by simp [takeMark])
      rw [List.map_cons, List.map_cons, commaSeparated, List.append_assoc, List.cons_append,
        propertiesFrom, ← List.map_cons (f := PropertyReading.written), hone]
      · simp only [Option.bind_eq_bind, Option.bind_some, takeMark_self, hmore]
        exact if_pos (length_lt_append_cons _ _ _)
      · simp

/-- Members of an object in braces. -/
theorem properties_found {list : List PropertyReading} (h : ∀ p ∈ list, p.isLegal = true)
    (ih : ∀ p ∈ list, ∀ r ∈ p.readings, Found .assignment r.tokens r.tree)
    (rest : List Token) :
    properties
        (commaSeparated (list.map PropertyReading.written) ++ .punctuator "\x7d" :: rest) =
      some (list.map PropertyReading.property, rest) := by
  cases list with
  | nil =>
      rw [properties]
      simp [commaSeparated]
  | cons q list =>
      obtain ⟨tail, htail⟩ :=
        exists_commaSeparated_cons q.written (list.map PropertyReading.written)
      rw [properties, List.map_cons, htail, List.append_assoc, takeMark_property,
        ← List.append_assoc, ← htail]
      exact propertiesFrom_found h ih rest

end Lists

/-! ### Productions -/

/-- An expression in parentheses is found as the expression. -/
theorem parenthesized {ts : List Token} {t : Tree} (d : Derives .assignment ts t)
    (ih : Found .assignment ts t) : Found .primary (enclosed "(" ")" ts) t := by
  intro rest hrest
  have hitems := items_arguments [⟨ts, t⟩] (by simpa using d) (by simpa using ih) rest
  have hbody : commaSeparated ([⟨ts, t⟩].map Reading.tokens) = ts := rfl
  rw [hbody] at hitems
  simp only [enclosed, List.cons_append, List.append_assoc, List.nil_append]
  rw [primary, hitems]
  simp only [Option.bind_eq_bind, Option.bind_some]
  rw [takeMark_eq_none_of_rank (Nat.lt_of_le_of_lt hrest (by decide))]
  rfl

/-- An array with its items, spread or not. -/
theorem array {list : List ItemReading} (d : ∀ i ∈ list, Derives .assignment i.tokens i.tree)
    (ih : ∀ i ∈ list, Found .assignment i.tokens i.tree) :
    Found .primary (enclosed "[" "]" (commaSeparated (list.map ItemReading.written)))
      (.array (list.map ItemReading.item)) := by
  intro rest hrest
  have hitems := items_found "]" list (by decide) (by decide) (by decide) (by decide)
    d ih rest
  simp only [enclosed, List.cons_append, List.append_assoc, List.nil_append]
  rw [primary, hitems]
  rfl

/-- An object with its members, whose keys are legal where they are bare. -/
theorem object {list : List PropertyReading} (h : ∀ p ∈ list, p.isLegal = true)
    (ih : ∀ p ∈ list, ∀ r ∈ p.readings, Found .assignment r.tokens r.tree) :
    Found .primary
      (enclosed "\x7b" "\x7d" (commaSeparated (list.map PropertyReading.written)))
      (.object (list.map PropertyReading.property)) := by
  intro rest hrest
  have hproperties := properties_found h ih rest
  simp only [enclosed, List.cons_append, List.append_assoc, List.nil_append]
  rw [primary, hproperties]
  rfl

/-- A name after a point goes on with a member access or a call. -/
theorem dot {A : Phrase} {ts : List Token} {t : Tree} (name : String)
    (h : A = .member ∨ A = .call) (ih : Found A ts t) :
    Found A (ts ++ [.punctuator ".", .word name]) (.get t (.string name)) := by
  intro rest hrest
  have hdot : rank (.punctuator "." :: .word name :: rest) ≤ 13 := by
    rw [rank_punctuator]
    decide
  rcases h with rfl | rfl
  · have hmember := ih _ hdot
    simp only [List.append_assoc, List.cons_append, List.nil_append] at hmember ⊢
    rw [hmember, members]
  · have hcall := ih _ hdot
    simp only [List.append_assoc, List.cons_append, List.nil_append] at hcall ⊢
    rw [hcall, calls]

/-- A key in square brackets goes on with a member access or a call. -/
theorem index {A : Phrase} {ts us : List Token} {t u : Tree} (h : A = .member ∨ A = .call)
    (ih : Found A ts t) (ihu : Found .assignment us u) :
    Found A (ts ++ enclosed "[" "]" us) (.get t u) := by
  intro rest hrest
  have hindex : assignment (us ++ .punctuator "]" :: rest) =
      some (u, .punctuator "]" :: rest) := ihu _ (Nat.le_of_eq rank_bracket)
  have hopen : rank (.punctuator "[" :: (us ++ .punctuator "]" :: rest)) ≤ 13 := by
    rw [rank_punctuator]
    decide
  have hlength : rest.length ≤ (us ++ .punctuator "]" :: rest).length :=
    Nat.le_of_lt (length_lt_append_cons us _ rest)
  rcases h with rfl | rfl
  · have hmember := ih _ hopen
    simp only [enclosed, List.append_assoc, List.cons_append, List.nil_append] at hmember ⊢
    rw [hmember, members, hindex]
    simp only [Option.bind_eq_bind, Option.bind_some, takeMark_self]
    exact if_pos hlength
  · have hcall := ih _ hopen
    simp only [enclosed, List.append_assoc, List.cons_append, List.nil_append] at hcall ⊢
    rw [hcall, calls, hindex]
    simp only [Option.bind_eq_bind, Option.bind_some, takeMark_self]
    exact if_pos hlength

/-- Arguments go on with a call and with nothing stronger. -/
theorem rank_parenthesis {us : List Token} : rank (.punctuator "(" :: us) ≤ 13 := by
  rw [rank_punctuator]
  decide

/-- The first arguments after `new` are its own. -/
theorem new {ts : List Token} {t : Tree} {args : List Reading} (ih : Found .member ts t)
    (d : ∀ a ∈ args, Derives .assignment a.tokens a.tree)
    (iha : ∀ a ∈ args, Found .assignment a.tokens a.tree) :
    Found .member (.word "new" :: ts ++ arguments args) (.new t (args.map Reading.tree)) := by
  intro rest hrest
  have hmember := ih (.punctuator "(" :: (commaSeparated (args.map Reading.tokens)
    ++ .punctuator ")" :: rest)) rank_parenthesis
  have hargs := items_arguments args d iha rest
  simp only [arguments, enclosed, List.append_assoc, List.cons_append,
    List.nil_append] at hmember ⊢
  rw [member, hmember, members_parenthesis]
  simp only [Option.bind_eq_bind, Option.bind_some, takeMark_self, hargs, List.map_map]
  rw [if_pos, if_pos]
  · rfl
  · simp only [List.length_append, List.length_cons]
    omega
  · simp only [List.length_append, List.length_cons]
    omega

/-- A construction without arguments has none. -/
theorem newBare {ts : List Token} {t : Tree} (ih : Found .construction ts t) :
    Found .construction (.word "new" :: ts) (.new t []) := by
  intro rest hrest
  have hmember := ih rest hrest
  simp only [List.cons_append] at hmember ⊢
  rw [member, hmember]
  simp only [Option.bind_eq_bind, Option.bind_some]
  rw [takeMark_eq_none_of_rank (Nat.lt_of_le_of_lt hrest (by decide))]

/-- Arguments after a member access or a call. -/
theorem call {A : Phrase} {ts : List Token} {t : Tree} {args : List Reading}
    (h : A = .member ∨ A = .call) (ih : Found A ts t)
    (d : ∀ a ∈ args, Derives .assignment a.tokens a.tree)
    (iha : ∀ a ∈ args, Found .assignment a.tokens a.tree) :
    Found .call (ts ++ arguments args) (.call t (args.map Reading.tree)) := by
  intro rest hrest
  have hargs := items_arguments args d iha rest
  have hcalls : calls t (.punctuator "(" :: (commaSeparated (args.map Reading.tokens)
      ++ .punctuator ")" :: rest)) = calls (.call t (args.map Reading.tree)) rest := by
    rw [calls, hargs]
    simp only [Option.bind_eq_bind, Option.bind_some, List.map_map]
    rw [takeMark_eq_none_of_rank (Nat.lt_of_le_of_lt hrest (by decide))]
    exact if_pos (Nat.le_of_lt (length_lt_append_cons _ _ rest))
  rcases h with rfl | rfl
  · have hmember := ih (.punctuator "(" :: (commaSeparated (args.map Reading.tokens)
      ++ .punctuator ")" :: rest)) rank_parenthesis
    simp only [arguments, enclosed, List.append_assoc, List.cons_append,
      List.nil_append] at hmember ⊢
    rw [leftHand_of_member (hmember.trans members_parenthesis) (List.suffix_append ts _).length_le]
    exact hcalls
  · have hcall := ih (.punctuator "(" :: (commaSeparated (args.map Reading.tokens)
      ++ .punctuator ")" :: rest)) rank_parenthesis
    simp only [arguments, enclosed, List.append_assoc, List.cons_append,
      List.nil_append] at hcall ⊢
    rw [hcall]
    exact hcalls

/-- An operator before an operand that may have operators before it. -/
theorem unaryOperation {ts : List Token} {t : Tree} (op : UnaryOperator)
    (ih : Found .unary ts t) : Found .unary (unaryToken op :: ts) (.unary op t) := by
  intro rest hrest
  have hunary := ih rest hrest
  simp only [List.cons_append] at hunary ⊢
  rw [unary, unaryOf?_unaryToken]
  simp only [hunary]
  rfl

/-- What follows a phrase with binary operators may follow its right operand. -/
theorem whole_reach_le (op : BinaryOperator) :
    (production op).whole.reach ≤ (production op).right.reach := by
  cases op <;> decide

/-- An operator may follow its left operand. -/
theorem level_le_left (op : BinaryOperator) : level op ≤ (production op).left.reach := by
  cases op <;> decide

/-- Where a phrase with an operator may be read, its operator is tight enough. -/
theorem whole_floor_le (op : BinaryOperator) : (production op).whole.floor ≤ level op := by
  cases op <;> decide

/-- The right operand is read whole, and nothing that follows belongs to it. -/
theorem rightLevel_le (op : BinaryOperator) : rightLevel op ≤ (production op).right.floor := by
  cases op <;> decide

/-- No operator is weaker than its own right side. -/
theorem whole_reach_lt (op : BinaryOperator) :
    (production op).whole.reach < rightLevel op := by
  cases op <;> decide

/-- The left operand is climbed at the level of the whole. -/
theorem binary_left {ts : List Token} {t : Tree} (op : BinaryOperator)
    (d : Derives (production op).left ts t) (ih : Found (production op).left ts t)
    {rest : List Token} (hrest : rank rest ≤ level op) {least : Nat}
    (hleast : least ≤ (production op).whole.floor) :
    binary least (ts ++ rest) = climb least t rest := by
  have hreach : rank rest ≤ (production op).left.reach := Nat.le_trans hrest (level_le_left op)
  cases op with
  | exponentiation =>
      have hunary : Found .unary ts t := unit (B := .leftHand) List.mem_cons_self d ih
      have hread := hunary rest hreach
      exact binary_of_unary hread (List.suffix_append ts rest).length_le
  | _ => exact ih rest hreach least hleast

/-- An operator takes all of what its left side can be and no more on its right. -/
theorem binaryOperation {ts us : List Token} {t u : Tree} (op : BinaryOperator)
    (d : Derives (production op).left ts t) (ih : Found (production op).left ts t)
    (ihu : Found (production op).right us u) :
    Found (production op).whole (ts ++ .punctuator (production op).symbol :: us)
      (.binary op t u) := by
  have hbinary : ∀ rest, rank rest ≤ (production op).whole.reach →
      ∀ least ≤ (production op).whole.floor,
        binary least ((ts ++ .punctuator (production op).symbol :: us) ++ rest) =
          climb least (.binary op t u) rest := by
    intro rest hrest least hleast
    have hsymbol : rank (.punctuator (production op).symbol :: (us ++ rest)) ≤ level op :=
      Nat.le_of_eq (symbolRank_symbol op)
    have hright : binary (rightLevel op) (us ++ rest) = some (u, rest) := by
      rw [← climb_stop (t := u) (Nat.lt_of_le_of_lt hrest (whole_reach_lt op))]
      have hread := ihu rest (Nat.le_trans hrest (whole_reach_le op))
      cases op <;> exact hread _ (rightLevel_le _)
    rw [List.append_assoc, List.cons_append, binary_left op d ih hsymbol hleast]
    exact climb_operator op (Nat.le_trans hleast (whole_floor_le op)) hright
      (List.suffix_append us rest).length_le
  cases op <;> exact hbinary

/-- The question mark comes after an operand without one. -/
theorem conditional {ts us vs : List Token} {t u v : Tree} (ih : Found .shortCircuit ts t)
    (ihu : Found .assignment us u) (ihv : Found .assignment vs v) :
    Found .conditional (ts ++ .punctuator "?" :: us ++ .punctuator ":" :: vs)
      (.conditional t u v) := by
  intro rest hrest
  have hcolon : rank (.punctuator ":" :: (vs ++ rest)) ≤ 0 := by
    rw [rank_punctuator]
    decide
  have hquestion : rank (.punctuator "?" :: (us ++ .punctuator ":" :: (vs ++ rest))) ≤ 1 := by
    rw [rank_punctuator]
    decide
  have hcondition := ih _ hquestion 0 (Nat.le_refl 0)
  have hthen := ihu _ hcolon
  have helse := ihv rest hrest
  simp only [List.append_assoc, List.cons_append] at hcondition hthen helse ⊢
  rw [assignment, hcondition, climb_zero_stop hquestion]
  simp only [Option.bind_eq_bind, Option.bind_some, takeMark_self]
  rw [hthen]
  simp only [Option.bind_some, takeMark_self]
  rw [helse, if_pos, if_pos]
  · rfl
  · simp only [List.length_append, List.length_cons]
    omega
  · simp only [List.length_append, List.length_cons]
    omega

/-- A phrase that is found is found as each of the weaker ones that lead to it. -/
theorem within {A B : Phrase} {ts : List Token} {t : Tree} (steps : Nat)
    (h : B ∈ A.within steps) (d : Derives B ts t) (ih : Found B ts t) : Found A ts t := by
  induction steps generalizing A with
  | zero =>
      obtain rfl := List.mem_singleton.mp h
      exact ih
  | succ steps hsteps =>
      rw [Phrase.within, List.mem_cons, List.mem_flatMap] at h
      rcases h with rfl | ⟨C, hC, hB⟩
      · exact ih
      · exact unit hC (d.within steps hB) (hsteps hB)

/-- Parameters are read as arguments, and kept as names. -/
theorem items_parameters {parameters : List String}
    (h : ∀ p ∈ parameters, isReference p = true) (rest : List Token) :
    items ")" (commaSeparated (parameters.map fun p => [.word p]) ++ .punctuator ")" :: rest) =
      some (parameters.map fun p => ⟨.reference p, false⟩, rest) := by
  have hwithin : Phrase.primary ∈ Phrase.assignment.within 21 := by decide
  have hargs := items_arguments
    (parameters.map fun p => ⟨[.word p], .reference p⟩) ?_ ?_ rest
  · simpa [Function.comp_def] using hargs
  · intro a ha
    rcases List.mem_map.mp ha with ⟨p, hp, rfl⟩
    exact .within 21 hwithin (.reference (h p hp))
  · intro a ha
    rcases List.mem_map.mp ha with ⟨p, hp, rfl⟩
    exact within 21 hwithin (.reference (h p hp)) (reference (h p hp))

/-- Names in parentheses are parameters if an arrow comes next. -/
theorem parameterNames_reference (parameters : List String) :
    parameterNames (parameters.map fun p => ⟨.reference p, false⟩) = parameters := by
  induction parameters with
  | nil => rfl
  | cons p parameters ih =>
      have hstep : parameterNames ((p :: parameters).map fun p => ⟨.reference p, false⟩) =
          p :: parameterNames (parameters.map fun p => ⟨.reference p, false⟩) := rfl
      rw [hstep, ih]

/-- Nothing goes on after a whole expression. -/
theorem assignment_of_leftHand {ts rest : List Token} {t : Tree} {token : Token}
    (htoken : unaryOf? token = none) (h : leftHand (token :: ts) = some (t, rest))
    (hrest : rank rest = 0) (hlength : rest.length ≤ (token :: ts).length) :
    Parser.assignment (token :: ts) = some (t, rest) := by
  have hunary : unary (token :: ts) = some (t, rest) := by
    rw [unary, htoken]
    exact h
  rw [assignment, binary_of_unary hunary hlength, climb_zero_stop (by omega)]
  simp only [Option.bind_eq_bind, Option.bind_some]
  rw [takeMark_eq_none_of_rank (by rw [hrest]; decide)]

/-- An arrow function: the names in its parentheses are no expression. -/
theorem arrow {ts : List Token} {t : Tree} (isAsync : Bool) {parameters : List String}
    (h : ∀ p ∈ parameters, isReference p = true) (ih : Found .assignment ts t) :
    Found .assignment
      ((if isAsync then [.word "async"] else [])
        ++ enclosed "(" ")" (commaSeparated (parameters.map fun p => [.word p]))
        ++ .punctuator "=>" :: ts)
      (.lambda isAsync parameters t) := by
  intro rest hrest
  have hzero : rank rest = 0 := Nat.le_zero.mp hrest
  have hbody : assignment (ts ++ rest) = some (t, rest) := ih rest hrest
  have hparameters := items_parameters h (.punctuator "=>" :: (ts ++ rest))
  simp only [enclosed, List.append_assoc, List.cons_append, List.nil_append]
  have hlength : (ts ++ rest).length ≤
      (commaSeparated (parameters.map fun p => [.word p])
        ++ .punctuator ")" :: .punctuator "=>" :: (ts ++ rest)).length := by
    simp only [List.length_append, List.length_cons]
    omega
  have hrestLength := Nat.le_trans (List.suffix_append ts rest).length_le hlength
  cases isAsync with
  | false =>
      have hprimary : Parser.primary (.punctuator "(" ::
          (commaSeparated (parameters.map fun p => [.word p])
            ++ .punctuator ")" :: .punctuator "=>" :: (ts ++ rest))) =
          some (.lambda false parameters t, rest) := by
        rw [primary, hparameters]
        simp only [Option.bind_eq_bind, Option.bind_some, takeMark_self, hbody,
          parameterNames_reference]
        exact if_pos hlength
      have hmember := member_of_primary (by simp) hprimary (Nat.le_succ_of_le hrestLength)
      rw [members_stop (by omega)] at hmember
      have hleft := leftHand_of_member hmember (Nat.le_succ_of_le hrestLength)
      rw [calls_stop (by omega)] at hleft
      exact assignment_of_leftHand rfl hleft hzero (Nat.le_succ_of_le hrestLength)
  | true =>
      have hasync := reference (by decide : isReference "async" = true)
        (.punctuator "(" :: (commaSeparated (parameters.map fun p => [.word p])
          ++ .punctuator ")" :: .punctuator "=>" :: (ts ++ rest))) rank_parenthesis
      have hmember := member_of_primary (by simp) hasync (List.suffix_append _ _).length_le
      rw [members_parenthesis] at hmember
      have hleft := leftHand_of_member hmember (List.suffix_append _ _).length_le
      rw [calls, hparameters] at hleft
      simp only [Option.bind_eq_bind, Option.bind_some, takeMark_self, hbody,
        parameterNames_reference] at hleft
      rw [if_pos hlength] at hleft
      exact assignment_of_leftHand rfl hleft hzero
        (Nat.le_succ_of_le (Nat.le_succ_of_le hrestLength))

end Found

/-! ## Uniqueness -/

namespace Derives

/-- The parser finds what the grammar derives. -/
theorem found {A : Phrase} {ts : List Token} {t : Tree} (d : Derives A ts t) : Found A ts t := by
  induction d with
  | unit h d ih => exact Found.unit h d ih
  | number value =>
      intro rest _
      simp only [List.singleton_append]
      rw [Parser.primary]
  | string value =>
      intro rest _
      simp only [List.singleton_append]
      rw [Parser.primary]
  | boolean value =>
      intro rest _
      cases value <;> simp [Parser.primary]
  | null =>
      intro rest _
      simp [Parser.primary]
  | undefined =>
      intro rest _
      simp [Parser.primary]
  | reference h => exact Found.reference h
  | parenthesized d ih => exact Found.parenthesized d ih
  | array items d ih => exact Found.array d ih
  | object properties h d ih => exact Found.object h ih
  | dot name h d ih => exact Found.dot name h ih
  | index h d du ih ihu => exact Found.index h ih ihu
  | new args d da ih iha => exact Found.new ih da iha
  | newBare d ih => exact Found.newBare ih
  | call args h d da ih iha => exact Found.call h ih da iha
  | unary op d ih => exact Found.unaryOperation op ih
  | binary op d du ih ihu => exact Found.binaryOperation op d ih ihu
  | conditional d du dv ih ihu ihv => exact Found.conditional ih ihu ihv
  | arrow isAsync parameters h d hbrace ih => exact Found.arrow isAsync h ih

/-- Tokens derive at most one tree. -/
theorem unique {ts : List Token} {t u : Tree} (d : Derives .assignment ts t)
    (du : Derives .assignment ts u) : t = u := by
  have ht : Parser.assignment (ts ++ []) = some (t, []) := d.found [] (Nat.le_refl 0)
  have hu : Parser.assignment (ts ++ []) = some (u, []) := du.found [] (Nat.le_refl 0)
  rw [ht, Option.some_inj, Prod.mk.injEq] at hu
  exact hu.1

end Derives

end Script

end EcmaWriter
