import EcmaWriter.Proofs.TypeNotation.Derivation
import EcmaWriter.Proofs.TypeNotation.Unambiguity

/-!
# EcmaWriter - Type parameters with the names of modifiers

A type parameter is always written with a bound, and before a bound the name of a modifier
is read as the modifier.  So a type in which some type parameter has such a name is read as
no type at all.

In tokens that are derived, `extends` stands after a modifier only as the name of a member
of an object type, and then a mark comes next and no type.  Every production keeps this.
What is written of a type parameter breaks it, and it is still there in what is written
around it.

Main results:

- Definition `TypeNotation.ShowsModifier`: a modifier stands before a bound.
- Theorem `TypeNotation.ShowsModifier.not_derives`: no such tokens are derived.
- Theorem `TypeExpr.showsModifier_layout`: a type parameter with the name of a modifier shows,
  wherever it is in a type.
-/

namespace EcmaWriter

namespace TypeNotation

open Script (commaSeparated enclosed isReference)

/-- Tokens in which a modifier stands before a bound. -/
def ShowsModifier (ts : List Token) : Prop :=
  ∃ name token, isModifier name = true ∧ isStart token = true ∧
    [.word name, .word "extends", token] <:+: ts

/-! ## Tokens that are derived -/

/-- Tokens in which `extends` is the name of a member wherever it stands after a modifier: a
mark comes next. -/
def Unmodified (ts : List Token) : Prop :=
  ∀ name rest, isModifier name = true → .word name :: .word "extends" :: rest <:+ ts →
    rest.head? = some (.punctuator ":") ∨ rest.head? = some (.punctuator "?")

namespace Unmodified

variable {ts us : List Token} {token : Token}

/-- There is no token to be a modifier. -/
theorem nil : Unmodified [] := by
  intro name rest hname hsuffix
  exact absurd (List.suffix_nil.mp hsuffix) (List.cons_ne_nil _ _)

/-- What is put in front is no modifier, or no `extends` comes next. -/
theorem cons (h : Unmodified ts)
    (htoken : ∀ name, token = .word name → isModifier name = true →
      ts.head? ≠ some (.word "extends")) : Unmodified (token :: ts) := by
  intro name rest hname hsuffix
  rcases List.suffix_cons_iff.mp hsuffix with heq | hsuffix
  · obtain ⟨rfl, rfl⟩ := List.cons.inj heq
    exact absurd rfl (htoken name rfl hname)
  · exact h name rest hname hsuffix

/-- A token before anything but `extends` is no modifier. -/
theorem cons_of_head? (h : Unmodified ts) (hhead : ts.head? ≠ some (.word "extends")) :
    Unmodified (token :: ts) :=
  h.cons fun _ _ _ => hhead

/-- A mark is no modifier, whatever comes after it. -/
theorem punctuator (symbol : String) (h : Unmodified ts) :
    Unmodified (.punctuator symbol :: ts) :=
  h.cons fun _ hword => nomatch hword

/-- Two texts, the second of which does not start with `extends`. -/
theorem append (h : Unmodified ts) (h' : Unmodified us)
    (hhead : us.head? ≠ some (.word "extends")) : Unmodified (ts ++ us) := by
  induction ts with
  | nil => exact h'
  | cons token ts ih =>
      have htail : Unmodified ts := by
        intro name rest hname hsuffix
        exact h name rest hname (hsuffix.trans (List.suffix_cons token ts))
      intro name rest hname hsuffix
      rw [List.cons_append] at hsuffix
      rcases List.suffix_cons_iff.mp hsuffix with hwhole | hsuffix
      · obtain ⟨rfl, hafter⟩ := List.cons.inj hwhole
        cases ts with
        | nil =>
            obtain rfl : .word "extends" :: rest = us := hafter
            exact absurd rfl hhead
        | cons next ts =>
            obtain ⟨rfl, rfl⟩ := List.cons.inj hafter
            have hmark := h name ts hname List.suffix_rfl
            cases ts with
            | nil => exact absurd hmark (by simp)
            | cons mark ts => exact hmark
      · exact ih htail name rest hname hsuffix

/-- One token has nothing after it. -/
theorem singleton (token : Token) : Unmodified [token] :=
  nil.cons_of_head? (by simp)

/-- Tokens between two marks. -/
theorem enclosed (opening closing : String) (h : Unmodified ts) :
    Unmodified (Script.enclosed opening closing ts) := by
  have hclosed : Unmodified (ts ++ [.punctuator closing]) :=
    h.append (singleton _) (by simp)
  exact hclosed.punctuator opening

/-- Pieces with commas between them: a comma is neither a modifier nor `extends`. -/
theorem commaSeparated {pieces : List (List Token)} (h : ∀ piece ∈ pieces, Unmodified piece) :
    Unmodified (Script.commaSeparated pieces) := by
  induction pieces with
  | nil => exact nil
  | cons piece pieces ih =>
      rcases List.forall_mem_cons.mp h with ⟨hpiece, hrest⟩
      cases pieces with
      | nil => exact hpiece
      | cons next pieces =>
          rw [Script.commaSeparated]
          · exact hpiece.append ((ih hrest).punctuator ",") (by simp)
          · simp

/-- A list in angle brackets, which may be missing. -/
theorem angled {pieces : List (List Token)} (h : ∀ piece ∈ pieces, Unmodified piece) :
    Unmodified (TypeNotation.angled pieces) := by
  rw [TypeNotation.angled]
  split
  · exact nil
  · exact (commaSeparated h).enclosed "<" ">"

/-- Names with points before them, if `extends` does not come next. -/
theorem dotted (names : List String) (h : Unmodified ts)
    (hhead : ts.head? ≠ some (.word "extends")) :
    Unmodified (TypeNotation.dotted names ++ ts) := by
  induction names with
  | nil => exact h
  | cons name names ih =>
      have hrest : (TypeNotation.dotted names ++ ts).head? ≠ some (.word "extends") := by
        cases names with
        | nil => exact hhead
        | cons next names => simp [TypeNotation.dotted]
      exact (ih.cons_of_head? hrest).punctuator "."

/-- The name of a member may be `extends`, since a mark comes after it. -/
theorem member {f : FieldReading} (h : Unmodified f.tokens) : Unmodified f.written := by
  have htype := h.punctuator ":"
  have hmarked : ∃ symbol more, (symbol = ":" ∨ symbol = "?") ∧
      (if f.isOptional then [.punctuator "?"] else []) ++ .punctuator ":" :: f.tokens =
        .punctuator symbol :: more ∧ Unmodified (.punctuator symbol :: more) := by
    cases f.isOptional with
    | true => exact ⟨"?", _, Or.inr rfl, rfl, htype.punctuator "?"⟩
    | false => exact ⟨":", _, Or.inl rfl, rfl, htype⟩
  obtain ⟨symbol, more, hsymbol, hmarks, hmore⟩ := hmarked
  have hname : Unmodified
      ((if f.isQuoted then .string f.name else .word f.name) :: .punctuator symbol :: more) :=
    hmore.cons_of_head? (by simp)
  rw [FieldReading.written, List.append_assoc, List.cons_append, hmarks]
  cases f.isReadonly with
  | false => exact hname
  | true =>
      intro name rest hmodifier hsuffix
      rcases List.suffix_cons_iff.mp hsuffix with hwhole | hsuffix
      · obtain ⟨-, hafter⟩ := List.cons.inj hwhole
        obtain ⟨-, rfl⟩ := List.cons.inj hafter
        rcases hsymbol with rfl | rfl
        · exact Or.inl rfl
        · exact Or.inr rfl
      · exact hname name rest hmodifier hsuffix

/-- The name of a type parameter with a bound is no modifier. -/
theorem binder {b : BinderReading} (hb : b.isNamed = true)
    (h : ∀ r ∈ b.bound, Unmodified r.tokens ∧ r.tokens.head? ≠ some (.word "extends")) :
    Unmodified b.written := by
  rcases b with ⟨name, bound⟩
  cases bound with
  | none => exact singleton _
  | some r =>
      rcases h r rfl with ⟨hbound, hhead⟩
      simp only [BinderReading.isNamed, Option.isNone_some, Bool.false_or, Bool.and_eq_true,
        Bool.not_eq_true'] at hb
      refine (hbound.cons_of_head? hhead).cons ?_
      rintro other ⟨⟩ hmodifier
      exact absurd (hb.2.symm.trans hmodifier) Bool.false_ne_true

end Unmodified

/-- A token that neither of two texts starts with. -/
theorem head?_append_ne {ts us : List Token} {token : Token} (h : ts.head? ≠ some token)
    (h' : us.head? ≠ some token) : (ts ++ us).head? ≠ some token := by
  cases ts with
  | nil => exact h'
  | cons first ts => exact h

/-- In tokens that are derived no modifier stands before a bound, and no type starts with
`extends`. -/
theorem Derives.unmodified {A : Phrase} {ts : List Token} {t : Tree} (d : Derives A ts t) :
    Unmodified ts ∧ (A ≠ .fields → ts.head? ≠ some (.word "extends")) := by
  induction d with
  | @unit A B ts t h d ih =>
      exact ⟨ih.1, fun _ => ih.2 (Phrase.of_mem_alternatives h).1⟩
  | keyword h =>
      refine ⟨.singleton _, fun _ => ?_⟩
      simp only [List.head?_cons, ne_eq, Option.some.injEq, Script.Token.word.injEq]
      rintro rfl
      exact absurd h (by decide)
  | string value => exact ⟨.singleton _, fun _ => by simp⟩
  | @reference head rest args h d ih =>
      have hangled : Unmodified (angled (args.map Reading.tokens)) := by
        refine .angled ?_
        intro piece hpiece
        obtain ⟨a, ha, rfl⟩ := List.mem_map.mp hpiece
        exact (ih a ha).1
      have hnext : (angled (args.map Reading.tokens)).head? ≠ some (.word "extends") := by
        cases args <;> simp [angled, Script.enclosed]
      have hrest := Unmodified.dotted rest hangled hnext
      have hhead : (dotted rest ++ angled (args.map Reading.tokens)).head? ≠
          some (.word "extends") := by
        cases rest with
        | nil => exact hnext
        | cons name names => simp [dotted]
      refine ⟨hrest.cons_of_head? hhead, fun _ => ?_⟩
      simp only [List.head?_cons, ne_eq, Option.some.injEq, Script.Token.word.injEq]
      rintro rfl
      exact absurd h (by decide)
  | parenthesized d ih => exact ⟨ih.1.enclosed "(" ")", fun _ => by simp [Script.enclosed]⟩
  | object d ih => exact ⟨ih.1.enclosed "\x7b" "\x7d", fun _ => by simp [Script.enclosed]⟩
  | noField => exact ⟨.nil, fun h => absurd rfl h⟩
  | lastField f d ih => exact ⟨ih.1.member, fun h => absurd rfl h⟩
  | moreFields f h d ds ih ihs =>
      exact ⟨ih.1.member.append (ihs.1.punctuator _) (by simp), fun h => absurd rfl h⟩
  | array d ih =>
      have hbrackets := Unmodified.nil.enclosed "[" "]"
      refine ⟨ih.1.append hbrackets (by simp [Script.enclosed]), fun _ => ?_⟩
      exact head?_append_ne (ih.2 (by simp)) (by simp [Script.enclosed])
  | indexed d du ih ihu =>
      refine ⟨ih.1.append (ihu.1.enclosed "[" "]") (by simp [Script.enclosed]), fun _ => ?_⟩
      exact head?_append_ne (ih.2 (by simp)) (by simp [Script.enclosed])
  | operation op d ih =>
      refine ⟨ih.1.cons_of_head? (ih.2 (by simp)), fun _ => ?_⟩
      cases op <;> simp [Operator.word]
  | intersection d du ih ihu =>
      refine ⟨ih.1.append (ihu.1.punctuator "&") (by simp), fun _ => ?_⟩
      exact head?_append_ne (ih.2 (by simp)) (by simp)
  | union d du ih ihu =>
      refine ⟨ih.1.append (ihu.1.punctuator "|") (by simp), fun _ => ?_⟩
      exact head?_append_ne (ih.2 (by simp)) (by simp)
  | leadingBar d ih => exact ⟨ih.1.punctuator "|", fun _ => by simp⟩
  | function binders parameters hb hq db dq d ihb ihq ih =>
      have hbinders : Unmodified (angled (binders.map BinderReading.written)) := by
        refine .angled ?_
        intro piece hpiece
        obtain ⟨b, hmem, rfl⟩ := List.mem_map.mp hpiece
        exact .binder (hb b hmem) fun r hr => (ihb b hmem r hr).imp_right fun h => h (by simp)
      have hparameters : Unmodified
          (Script.commaSeparated (parameters.map ParameterReading.written)) := by
        refine .commaSeparated ?_
        intro piece hpiece
        obtain ⟨q, hmem, rfl⟩ := List.mem_map.mp hpiece
        exact ((ihq q hmem).1.punctuator ":").cons_of_head? (by simp)
      have hheads := hbinders.append (hparameters.enclosed "(" ")") (by simp [Script.enclosed])
      refine ⟨hheads.append (ih.1.punctuator "=>") (by simp), fun _ => ?_⟩
      cases binders <;> simp [angled, Script.enclosed]

/-- Nothing in which a modifier stands before a bound is a type. -/
theorem ShowsModifier.not_derives {ts : List Token} (h : ShowsModifier ts) (A : Phrase)
    (t : Tree) : ¬ Derives A ts t := by
  intro d
  rcases h with ⟨name, token, hname, hstart, before, after, rfl⟩
  have hsuffix : .word name :: .word "extends" :: (token :: after) <:+
      before ++ [.word name, .word "extends", token] ++ after := by
    rw [List.append_assoc]
    exact List.suffix_append before _
  rcases d.unmodified.1 name _ hname hsuffix with hmark | hmark
  all_goals
    obtain rfl := Option.some.inj hmark
    exact absurd hstart (by decide)

/-! ## Parts of what is written -/

section Parts

variable {table : ImportTable} {piece : List Lexeme} {pieces : List (List Lexeme)}

/-- A modifier before a bound is still there in what is written around it. -/
theorem ShowsModifier.mono {ls ms : List Lexeme} (h : ShowsModifier (tokens table ls))
    (hparts : ls <:+: ms) : ShowsModifier (tokens table ms) := by
  rcases h with ⟨name, token, hname, hstart, hls⟩
  rcases hparts with ⟨before, after, rfl⟩
  refine ⟨name, token, hname, hstart, hls.trans ?_⟩
  rw [tokens_append, tokens_append]
  exact List.infix_append _ _ _

/-- Each piece stands in the text that is put together from the pieces. -/
theorem infix_separated (separator : List Lexeme) (h : piece ∈ pieces) :
    piece <:+: Lexeme.separated separator pieces := by
  induction pieces with
  | nil => exact absurd h List.not_mem_nil
  | cons first pieces ih =>
      cases pieces with
      | nil =>
          obtain rfl := List.mem_singleton.mp h
          exact List.infix_rfl
      | cons next pieces =>
          rcases List.mem_cons.mp h with rfl | h
          · rw [Lexeme.separated, List.append_assoc]
            · exact (List.prefix_append _ _).isInfix
            · simp
          · rw [Lexeme.separated]
            · exact (ih h).trans (List.suffix_append _ _).isInfix
            · simp

/-- Each piece stands in the list in angle brackets. -/
theorem infix_angled (h : piece ∈ pieces) : piece <:+: Lexeme.angled pieces := by
  have hlisted := infix_separated [.mark ",", .space] h
  rw [Lexeme.angled, if_neg]
  · exact hlisted.trans (List.infix_append [Lexeme.mark "<"] _ [Lexeme.mark ">"])
  · rw [List.isEmpty_iff]
    exact List.ne_nil_of_mem h

/-- Each member stands between the curly brackets. -/
theorem infix_braced (separator : List Lexeme) (h : piece ∈ pieces) :
    piece <:+: Layout.braced separator pieces := by
  have hseparated := infix_separated separator h
  rw [Layout.braced, if_neg]
  · exact hseparated.trans (List.infix_append _ _ _)
  · rw [List.isEmpty_iff]
    exact List.ne_nil_of_mem h

/-- A text stands in its parentheses. -/
theorem infix_parenthesized (ls : List Lexeme) : ls <:+: Lexeme.parenthesized ls :=
  List.infix_append [Lexeme.mark "("] ls [Lexeme.mark ")"]

/-- A constituent stands as it is or in parentheses. -/
theorem constituent_eq (inIntersection : Bool) (t : TypeExpr) (ls : List Lexeme) :
    Layout.constituent inIntersection t ls = ls ∨
      Layout.constituent inIntersection t ls = Lexeme.parenthesized ls := by
  cases t with
  | function typeParameters parameters result => exact Or.inr rfl
  | union types =>
      rw [Layout.constituent, Lexeme.wrappedIf]
      split
      · exact Or.inr rfl
      · exact Or.inl rfl
  | _ => exact Or.inl rfl

/-- A type stands in what is written of it in a union. -/
theorem infix_constituent (inIntersection : Bool) (t : TypeExpr) (ls : List Lexeme) :
    ls <:+: Layout.constituent inIntersection t ls := by
  rcases constituent_eq inIntersection t ls with h | h
  · exact h.symm ▸ List.infix_rfl
  · exact h.symm ▸ infix_parenthesized ls

/-- Every type that is written of a parameter is part of the parameter. -/
theorem exists_functionTypeParameter (h : piece ∈ pieces) :
    ∃ parameter ∈ Layout.functionTypeParameters pieces, piece <:+: parameter := by
  have hsecond : ((Candidate.mintMany [] pieces.length .first).zip pieces).map Prod.snd = pieces :=
    List.map_snd_zip (by simp)
  rw [← hsecond] at h
  obtain ⟨⟨⟨n, candidate⟩, text⟩, hmem, rfl⟩ := List.mem_map.mp h
  exact ⟨_, List.mem_map_of_mem hmem, (List.suffix_append _ _).isInfix⟩

/-- Each text stands on its line. -/
theorem infix_lines (p : Place) {text : List Lexeme} {texts : List (List Lexeme)}
    (h : text ∈ texts) : text <:+: Layout.lines p texts := by
  have hline : text ++ [.newline] <:+: texts.flatMap (· ++ [.newline]) :=
    List.infix_of_mem_flatten (List.mem_map_of_mem h)
  rw [Layout.lines, if_neg]
  · exact (List.prefix_append _ _).isInfix.trans (hline.trans (List.infix_append _ _ _))
  · rw [List.isEmpty_iff]
    exact List.ne_nil_of_mem h

/-- Every member of an object type is part of its lines. -/
theorem infix_memberLines (p : Place) {members : List MemberType}
    (hlength : pieces.length = members.length) (h : piece ∈ pieces) :
    piece <:+: Layout.memberLines p members pieces := by
  have hsecond : (members.zip pieces).map Prod.snd = pieces :=
    List.map_snd_zip (Nat.le_of_eq hlength)
  rw [← hsecond] at h
  obtain ⟨⟨m, text⟩, hmem, rfl⟩ := List.mem_map.mp h
  exact (List.infix_append _ _ _).trans (infix_lines p (List.mem_map_of_mem hmem))

end Parts

end TypeNotation

/-! ## What is written of types -/

open TypeNotation

variable {table : ImportTable}

/-- The first token of a text is that of its first part. -/
theorem TypeNotation.isStart_append {ls : List Lexeme} (ms : List Lexeme)
    (h : (tokens table ls).head?.any isStart = true) :
    (tokens table (ls ++ ms)).head?.any isStart = true := by
  rw [tokens_append]
  cases hls : tokens table ls with
  | nil =>
      rw [hls] at h
      exact absurd h Bool.false_ne_true
  | cons token ts =>
      rw [hls] at h
      exact h

/-- A type in parentheses starts as types may. -/
theorem TypeNotation.isStart_constituent (inIntersection : Bool) (t : TypeExpr)
    {ls : List Lexeme} (h : (tokens table ls).head?.any isStart = true) :
    (tokens table (Layout.constituent inIntersection t ls)).head?.any isStart = true := by
  rcases constituent_eq inIntersection t ls with heq | heq
  · rwa [heq]
  · rw [heq]
    rfl

/-- What is written of a type starts as types do. -/
theorem TypeExpr.isStart_layout (p : Place) :
    (t : TypeExpr) → (tokens table (t.layout p)).head?.any isStart = true
  | .number | .string | .boolean | .undefined | .null | .never | .void | .unknown
  | .stringLiteral _ | .uniqueSymbol | .imported _ _ _ | .inFile _ _ => rfl
  | .global n arguments => by
      rw [TypeExpr.layout]
      generalize p.types.contains n.text = hidden
      cases hidden <;> rfl
  | .namespaced path n arguments => by
      cases path <;> rfl
  | .object members => by
      rw [TypeExpr.layout, Layout.braced, Layout.memberLines, Layout.lines]
      split <;> split <;> rfl
  | .function [] parameters result => rfl
  | .function (⟨n, constraint⟩ :: typeParameters) parameters result => rfl
  | .union [] => rfl
  | .union [t] => isStart_constituent false t (TypeExpr.isStart_layout p t)
  | .union (t :: next :: types) => by
      have hfirst := isStart_constituent false t (TypeExpr.isStart_layout p t)
      exact isStart_append _ (isStart_append _ hfirst)
  | .intersection left right => by
      have hleft := isStart_constituent true left (TypeExpr.isStart_layout p left)
      exact isStart_append _ (isStart_append _ hleft)

/-- What is written of a type is part of what is written of it in a union. -/
theorem TypeExpr.exists_constituent (p : Place) {ts : List TypeExpr} {piece : List Lexeme}
    (h : piece ∈ TypeExpr.layouts p ts) :
    ∃ constituent ∈ TypeExpr.constituents p ts, piece <:+: constituent := by
  induction ts with
  | nil => exact absurd h List.not_mem_nil
  | cons t ts ih =>
      rcases List.mem_cons.mp h with rfl | h
      · exact ⟨_, List.mem_cons_self, infix_constituent false t _⟩
      · obtain ⟨constituent, hmem, hpart⟩ := ih h
        exact ⟨constituent, List.mem_cons_of_mem _ hmem, hpart⟩

/-- A modifier that is bound shows. -/
theorem TypeNotation.showsModifier_typeParameter {n : Identifier} (hn : isModifier n.text = true)
    {ls : List Lexeme} (h : (tokens table ls).head?.any isStart = true) :
    ShowsModifier (tokens table (Layout.typeParameter n ls)) := by
  obtain ⟨token, htoken, hstart⟩ := (Option.any_eq_true _ _).mp h
  obtain ⟨more, hls⟩ := List.head?_eq_some_iff.mp htoken
  have htokens : tokens table (Layout.typeParameter n ls) =
      [.word n.text, .word "extends", token] ++ more := by
    simp [Layout.typeParameter, Layout.name, hls]
  refine ⟨n.text, token, hn, hstart, ?_⟩
  rw [htokens]
  exact (List.prefix_append _ more).isInfix

mutual

/-- A type parameter with the name of a modifier shows in what is written of a type. -/
theorem TypeExpr.showsModifier_layout (p : Place) :
    (t : TypeExpr) → t.bindsPlainly = false → ShowsModifier (tokens table (t.layout p))
  | .number, h | .string, h | .boolean, h | .undefined, h | .null, h | .never, h | .void, h
  | .unknown, h | .stringLiteral _, h | .uniqueSymbol, h => absurd h.symm Bool.false_ne_true
  | .object members, h => by
      rw [TypeExpr.layout]
      split
      · obtain ⟨piece, hpiece, hshows⟩ := MemberType.exists_showsModifier p members h
        exact hshows.mono (infix_braced _ hpiece)
      · obtain ⟨piece, hpiece, hshows⟩ := MemberType.exists_showsModifier p.deeper members h
        exact hshows.mono (infix_memberLines p (MemberType.length_layouts _ members) hpiece)
  | .function typeParameters parameters result, h => by
      simp only [TypeExpr.bindsPlainly, Bool.and_eq_false_iff] at h
      rw [TypeExpr.layout]
      rcases h with (h | h) | h
      · obtain ⟨piece, hpiece, hshows⟩ :=
          TypeParameter.exists_showsModifier (p.bindTypes typeParameters) typeParameters h
        refine hshows.mono ((infix_angled hpiece).trans ?_)
        rw [List.append_assoc, List.append_assoc]
        exact (List.prefix_append _ _).isInfix
      · obtain ⟨piece, hpiece, hshows⟩ :=
          TypeExpr.exists_showsModifier (p.bindTypes typeParameters) parameters h
        obtain ⟨parameter, hparameter, hpart⟩ := exists_functionTypeParameter hpiece
        have hlisted := (infix_separated [.mark ",", .space] hparameter).trans
          (infix_parenthesized _)
        refine hshows.mono ((hpart.trans hlisted).trans ?_)
        rw [List.append_assoc]
        exact List.infix_append _ _ _
      · have hresult := TypeExpr.showsModifier_layout (p.bindTypes typeParameters) result h
        exact hresult.mono (List.suffix_append _ _).isInfix
  | .union [], h => absurd h.symm Bool.false_ne_true
  | .union (t :: types), h => by
      obtain ⟨piece, hpiece, hshows⟩ := TypeExpr.exists_showsModifier p (t :: types) h
      obtain ⟨constituent, hconstituent, hpart⟩ := TypeExpr.exists_constituent p hpiece
      exact hshows.mono (hpart.trans (infix_separated _ hconstituent))
  | .intersection left right, h => by
      rw [TypeExpr.bindsPlainly, Bool.and_eq_false_iff] at h
      rw [TypeExpr.layout]
      rcases h with h | h
      · have hleft := TypeExpr.showsModifier_layout p left h
        refine hleft.mono ((infix_constituent true left _).trans ?_)
        rw [List.append_assoc]
        exact (List.prefix_append _ _).isInfix
      · have hright := TypeExpr.showsModifier_layout p right h
        exact hright.mono
          ((infix_constituent true right _).trans (List.suffix_append _ _).isInfix)
  | .imported path n arguments, h | .inFile n arguments, h | .global n arguments, h
  | .namespaced path n arguments, h => by
      obtain ⟨piece, hpiece, hshows⟩ := TypeExpr.exists_showsModifier p arguments h
      exact hshows.mono ((infix_angled hpiece).trans (List.suffix_append _ _).isInfix)

/-- A modifier in one of some types is in its text. -/
theorem TypeExpr.exists_showsModifier (p : Place) :
    (ts : List TypeExpr) → TypeExpr.bindPlainly ts = false →
      ∃ piece ∈ TypeExpr.layouts p ts, ShowsModifier (tokens table piece)
  | [], h => absurd h.symm Bool.false_ne_true
  | t :: ts, h => by
      rw [TypeExpr.bindPlainly, Bool.and_eq_false_iff] at h
      rcases h with h | h
      · exact ⟨_, List.mem_cons_self, TypeExpr.showsModifier_layout p t h⟩
      · obtain ⟨piece, hpiece, hshows⟩ := TypeExpr.exists_showsModifier p ts h
        exact ⟨piece, List.mem_cons_of_mem _ hpiece, hshows⟩

/-- A type parameter named as a modifier is written before `extends`; else it is in a
constraint. -/
theorem TypeParameter.exists_showsModifier (p : Place) :
    (parameters : List TypeParameter) → TypeParameter.bindPlainly parameters = false →
      ∃ piece ∈ TypeParameter.layouts p parameters, ShowsModifier (tokens table piece)
  | [], h => absurd h.symm Bool.false_ne_true
  | ⟨n, none⟩ :: parameters, h => by
      simp only [TypeParameter.bindPlainly, TypeExpr.boundBindsPlainly, Bool.and_true,
        Bool.and_eq_false_iff, Bool.not_eq_false'] at h
      rcases h with h | h
      · exact ⟨_, List.mem_cons_self, showsModifier_typeParameter h rfl⟩
      · obtain ⟨piece, hpiece, hshows⟩ := TypeParameter.exists_showsModifier p parameters h
        exact ⟨piece, List.mem_cons_of_mem _ hpiece, hshows⟩
  | ⟨n, some t⟩ :: parameters, h => by
      simp only [TypeParameter.bindPlainly, TypeExpr.boundBindsPlainly, Bool.and_eq_false_iff,
        Bool.not_eq_false'] at h
      rcases h with (h | h) | h
      · exact ⟨_, List.mem_cons_self, showsModifier_typeParameter h (t.isStart_layout p)⟩
      · have hbound := TypeExpr.showsModifier_layout p t h
        exact ⟨_, List.mem_cons_self, hbound.mono (List.suffix_append _ _).isInfix⟩
      · obtain ⟨piece, hpiece, hshows⟩ := TypeParameter.exists_showsModifier p parameters h
        exact ⟨piece, List.mem_cons_of_mem _ hpiece, hshows⟩

/-- A modifier in the type of a member is in the text of the member. -/
theorem MemberType.exists_showsModifier (p : Place) :
    (members : List MemberType) → MemberType.bindPlainly members = false →
      ∃ piece ∈ MemberType.layouts p members, ShowsModifier (tokens table piece)
  | [], h => absurd h.symm Bool.false_ne_true
  | ⟨key, required, readonly, type, document⟩ :: members, h => by
      rw [MemberType.bindPlainly, Bool.and_eq_false_iff] at h
      rcases h with h | h
      · have htype := TypeExpr.showsModifier_layout p type h
        exact ⟨_, List.mem_cons_self, htype.mono (List.suffix_append _ _).isInfix⟩
      · obtain ⟨piece, hpiece, hshows⟩ := MemberType.exists_showsModifier p members h
        exact ⟨piece, List.mem_cons_of_mem _ hpiece, hshows⟩

end

end EcmaWriter
