import EcmaWriter.Layout.Node
import EcmaWriter.Proofs.Lexeme.Spelling
import EcmaWriter.Proofs.TypeNotation.Scanner
import EcmaWriter.Proofs.TypeNotation.Trees

/-!
# EcmaWriter - The lexemes of types keep apart

What is written of a type is cut into the tokens of its lexemes, wherever no word follows
directly.  Lists of lexemes with this property are put together from the end: a blank, a
literal or a bracket may stand before anything, a word only before what ends a word.

Main results:

- Definition `TypeNotation.Scanned`: lexemes that are read one by one.
- Theorem `TypeExpr.scanned_layout`: the lexemes of a type are read one by one.
-/

namespace EcmaWriter

namespace TypeNotation

open Script (isWordStart isWordPart punctuators continuations)
open Lexeme

/-! ## Tokens of lexemes -/

/-- The tokens that a lexeme is read as. White space and documents are none. -/
def lexemeTokens (table : ImportTable) : Lexeme → List Token
  | .word text => [.word text]
  | .literal value => [.string (readBack value)]
  | .mark text => [.punctuator text]
  | .importOf path => [.word ((Lexeme.importOf path).text table)]
  | .globalType hidden n =>
    if hidden then [.word "globalThis", .punctuator ".", .word n.text] else [.word n.text]
  | _ => []

/-- The tokens that lexemes are read as. -/
def tokens (table : ImportTable) (ls : List Lexeme) : List Token :=
  ls.flatMap (lexemeTokens table)

/-- The characters of lexemes. -/
def characters (table : ImportTable) (ls : List Lexeme) : List Char :=
  ls.flatMap fun l => (l.text table).toList

/-- White space and documents. -/
def isGap : Lexeme → Bool
  | .space | .newline | .indent _ | .document _ _ => true
  | _ => false

/-- The marks of types that may stand before anything. -/
def brackets : List String :=
  ["\x7b", "\x7d", "(", ")", "<", ">", ",", ";", ":", "=>"]

/-- Whether a word may stand directly before a lexeme. -/
def endsWord : Lexeme → Bool
  | .mark text => text ∈ "." :: "?" :: brackets
  | .space => true
  | .newline => true
  | _ => false

/-- Lexemes before which a word may stand. -/
def Detached (ls : List Lexeme) : Prop :=
  ∀ l ∈ ls.head?, endsWord l = true

/-- Lexemes whose paths have namespaces and whose text is cut into their tokens, unless it
ends in a word that goes on. -/
structure Scanned (table : ImportTable) (ls : List Lexeme) : Prop where
  mapped : ∀ path ∈ Lexeme.paths ls, ∃ n, table.find? path = some n
  scan_append : ∀ rest us, rest.head?.any isWordPart = false → scan rest = some us →
    scan (characters table ls ++ rest) = some (tokens table ls ++ us)

section Lexemes

variable {table : ImportTable} {ls ms : List Lexeme}

@[simp] theorem tokens_nil : tokens table [] = [] := rfl

@[simp] theorem tokens_cons (l : Lexeme) (ls : List Lexeme) :
    tokens table (l :: ls) = lexemeTokens table l ++ tokens table ls := rfl

@[simp] theorem tokens_append (ls ms : List Lexeme) :
    tokens table (ls ++ ms) = tokens table ls ++ tokens table ms :=
  List.flatMap_append

/-- The characters of the first lexeme come first. -/
theorem characters_cons (l : Lexeme) (ls : List Lexeme) (rest : List Char) :
    characters table (l :: ls) ++ rest =
      (l.text table).toList ++ (characters table ls ++ rest) := by
  rw [characters, List.flatMap_cons, List.append_assoc]
  rfl

/-- The characters of two texts follow each other as the texts do. -/
theorem characters_append (ls ms : List Lexeme) (rest : List Char) :
    characters table (ls ++ ms) ++ rest = characters table ls ++ (characters table ms ++ rest) := by
  rw [characters, List.flatMap_append, List.append_assoc]
  rfl

theorem toList_text_space : (Lexeme.space.text table).toList = [' '] := by
  simp [text, spell]

theorem toList_text_newline : (Lexeme.newline.text table).toList = ['\n'] := by
  simp [text, spell]

/-- What ends a word starts with no part of one. -/
theorem exists_head_of_endsWord (table : ImportTable) {l : Lexeme} (h : endsWord l = true) :
    ∃ c cs, (l.text table).toList = c :: cs ∧ isWordPart c = false := by
  have hmarks : ∀ text ∈ "." :: "?" :: brackets,
      text.toList ≠ [] ∧ text.toList.head?.any isWordPart = false := by
    decide
  cases l with
  | space => exact ⟨' ', [], toList_text_space, by decide⟩
  | newline => exact ⟨'\n', [], toList_text_newline, by decide⟩
  | mark text =>
      rcases hmarks text (of_decide_eq_true h) with ⟨hne, hhead⟩
      obtain ⟨c, cs, hcs⟩ := List.exists_cons_of_ne_nil hne
      rw [hcs] at hhead
      exact ⟨c, cs, hcs, hhead⟩
  | _ => exact absurd h Bool.false_ne_true

/-- A word may stand at the end. -/
theorem detached_nil : Detached [] := by
  intro l hl
  exact absurd hl (by simp)

/-- Whether a word may stand before a text is a matter of its first lexeme. -/
theorem detached_cons {l : Lexeme} (h : endsWord l = true) : Detached (l :: ls) := by
  rintro m ⟨⟩
  exact h

/-- No character of a word comes next, also if the text is empty. -/
theorem Detached.head?_append (h : Detached ls) {rest : List Char}
    (hrest : rest.head?.any isWordPart = false) :
    (characters table ls ++ rest).head?.any isWordPart = false := by
  cases ls with
  | nil => exact hrest
  | cons l ls =>
      obtain ⟨c, cs, hcs, hc⟩ := exists_head_of_endsWord table (h l rfl)
      rw [characters_cons, hcs]
      exact hc

end Lexemes

namespace Scanned

variable {table : ImportTable} {ls ms : List Lexeme}

/-! ### Lists of lexemes -/

/-- Nothing is scanned to no tokens. -/
theorem nil : Scanned table [] := by
  refine ⟨fun path hpath => absurd hpath List.not_mem_nil, ?_⟩
  intro rest us _ hscan
  exact hscan

/-- Two texts are scanned one after the other if a word may end the first. -/
theorem append (h : Scanned table ls) (hms : Scanned table ms) (hdetached : Detached ms) :
    Scanned table (ls ++ ms) := by
  refine ⟨?_, ?_⟩
  · intro path hpath
    rw [paths, List.filterMap_append, List.mem_append] at hpath
    rcases hpath with hpath | hpath
    · exact h.mapped path hpath
    · exact hms.mapped path hpath
  · intro rest us hrest hscan
    rw [characters_append, tokens_append, List.append_assoc]
    exact h.scan_append _ _ (hdetached.head?_append hrest) (hms.scan_append _ _ hrest hscan)

/-- One lexeme before others, from how its text is scanned. -/
theorem cons {l : Lexeme} (hmapped : ∀ path ∈ l.path?, ∃ n, table.find? path = some n)
    (hscan : ∀ rest us, rest.head?.any isWordPart = false →
      scan (characters table ls ++ rest) = some us →
        scan ((l.text table).toList ++ (characters table ls ++ rest)) =
          some (lexemeTokens table l ++ us))
    (h : Scanned table ls) : Scanned table (l :: ls) := by
  refine ⟨?_, ?_⟩
  · intro path hpath
    rw [paths_cons, List.mem_append, Option.mem_toList] at hpath
    rcases hpath with hpath | hpath
    · exact hmapped path hpath
    · exact h.mapped path hpath
  · intro rest us hrest hus
    rw [characters_cons, tokens_cons, List.append_assoc]
    exact hscan rest _ hrest (h.scan_append rest us hrest hus)

/-- White space and documents are gone over. -/
theorem gap {l : Lexeme} (hl : isGap l = true) (h : Scanned table ls) :
    Scanned table (l :: ls) := by
  have hskip : ∀ rest, scan ((l.text table).toList ++ rest) = scan rest := by
    intro rest
    cases l with
    | space =>
        rw [toList_text_space]
        exact scan_blank (by decide) rest
    | newline =>
        rw [toList_text_newline]
        exact scan_blank (by decide) rest
    | indent level => exact scan_indentation level rest
    | document level text => exact scan_documentBlock level text rest
    | _ => exact absurd hl Bool.false_ne_true
  have hnone : lexemeTokens table l = [] ∧ l.path? = none := by
    cases l with
    | space => exact ⟨rfl, rfl⟩
    | newline => exact ⟨rfl, rfl⟩
    | indent level => exact ⟨rfl, rfl⟩
    | document level text => exact ⟨rfl, rfl⟩
    | _ => exact absurd hl Bool.false_ne_true
  refine cons ?_ ?_ h
  · rw [hnone.2]
    simp
  · intro rest us _ hus
    rw [hskip, hnone.1]
    exact hus

/-- Words start as they do in expressions. -/
theorem startsPlainly_of_isWordStart {c : Char} (h : isWordStart c = true) :
    startsPlainly c = true := by
  have hblank : c.isWhitespace = false := by
    refine Bool.eq_false_iff.mpr ?_
    intro hspace
    simp only [Char.isWhitespace, Bool.or_eq_true, decide_eq_true_eq] at hspace
    rcases hspace with ((rfl | rfl) | rfl) | rfl <;> exact absurd h (by decide)
  have hne : ∀ d, isWordStart d = false → c ≠ d := by
    rintro d hd rfl
    exact Bool.false_ne_true (hd.symm.trans h)
  have hslash : c ≠ '/' := hne '/' (by decide)
  have hopening : c ≠ '<' := hne '<' (by decide)
  have hclosing : c ≠ '>' := hne '>' (by decide)
  simp [startsPlainly, hslash, hopening, hclosing, hblank]

/-- A property name starts as words do. -/
theorem exists_isWordStart {text : String} (h : isPropertyName text = true) :
    ∃ c cs, text.toList = c :: cs ∧ isWordStart c = true := by
  rw [isPropertyName] at h
  cases hchars : text.toList with
  | nil =>
      rw [hchars] at h
      exact absurd h (by decide)
  | cons c cs =>
      rw [hchars, hasIdentifierShape, Bool.and_eq_true] at h
      exact ⟨c, cs, rfl, h.1⟩

/-- A word is scanned to its end if no part of a word comes next. -/
theorem scan_word {text : String} (htext : isPropertyName text = true) {rest : List Char}
    {us : List Token} (hrest : rest.head?.any isWordPart = false) (hus : scan rest = some us) :
    scan (text.toList ++ rest) = some (.word text :: us) := by
  have hread := Script.readToken_word htext hrest
  rcases exists_isWordStart htext with ⟨c, cs, hcs, hc⟩
  rw [String.ofList_toList, hcs] at hread
  rw [hcs]
  exact scan_plain (startsPlainly_of_isWordStart hc) hread hus

/-- A word before what ends a word. -/
theorem word {text : String} (htext : isPropertyName text = true) (h : Scanned table ls)
    (hdetached : Detached ls) : Scanned table (.word text :: ls) := by
  refine cons (by simp [path?]) ?_ h
  intro rest us hrest hus
  exact scan_word htext (hdetached.head?_append hrest) hus

/-- The namespace of a module before what ends a word. -/
theorem importOf {path : String} {home : Identifier} (hpath : table.find? path = some home)
    (h : Scanned table ls) (hdetached : Detached ls) : Scanned table (.importOf path :: ls) := by
  have htext : (Lexeme.importOf path).text table = home.text := by
    simp [text, spell, hpath]
  refine cons ?_ ?_ h
  · rintro other ⟨⟩
    exact ⟨home, hpath⟩
  · intro rest us hrest hus
    rw [lexemeTokens, htext]
    exact scan_word home.isPropertyName (hdetached.head?_append hrest) hus

/-- A literal is scanned to its closing quote. -/
theorem literal (value : String) (h : Scanned table ls) :
    Scanned table (.literal value :: ls) := by
  refine cons (by simp [path?]) ?_ h
  intro rest us _ hus
  have hread := Script.readToken_literal value (characters table ls ++ rest)
  have htext : ((Lexeme.literal value).text table).toList =
      '"' :: (escapeText value.toList ++ ['"']) := by
    simp [text, spell, stringLiteral]
  have hchars : (stringLiteral value).toList = '"' :: (escapeText value.toList ++ ['"']) := by
    simp [stringLiteral]
  rw [hchars] at hread
  rw [htext]
  exact scan_plain (by decide) hread hus

/-- A mark before characters that do not make it longer. -/
theorem mark {symbol : String} (hsymbol : symbol ∈ punctuators)
    (hstart : symbol.toList.head?.all startsPlainly = true)
    (hnext : ∀ rest, ∀ c ∈ (characters table ls ++ rest).head?, c ∉ continuations symbol)
    (h : Scanned table ls) : Scanned table (.mark symbol :: ls) := by
  refine cons (by simp [path?]) ?_ h
  intro rest us _ hus
  have hread := Script.readToken_punctuator hsymbol (hnext rest)
  have hne : symbol.toList ≠ [] := by
    intro hnil
    exact absurd (String.toList_eq_nil_iff.mp hnil ▸ hsymbol) (by decide)
  obtain ⟨c, cs, hcs⟩ := List.exists_cons_of_ne_nil hne
  have htext : ((Lexeme.mark symbol).text table).toList = c :: cs := hcs
  rw [hcs] at hread hstart
  rw [htext]
  exact scan_plain hstart hread hus

/-- A bracket or a separator may stand before anything. -/
theorem bracket {symbol : String} (hsymbol : symbol ∈ brackets) (h : Scanned table ls) :
    Scanned table (.mark symbol :: ls) := by
  by_cases hangle : symbol = "<" ∨ symbol = ">"
  · refine cons (by simp [path?]) ?_ h
    intro rest us _ hus
    exact scan_angle hangle hus
  · have hall : ∀ symbol ∈ brackets, ¬(symbol = "<" ∨ symbol = ">") →
        symbol ∈ punctuators ∧ symbol.toList.head?.all startsPlainly = true ∧
          continuations symbol = [] := by
      decide
    rcases hall symbol hsymbol hangle with ⟨hmem, hstart, hnone⟩
    refine mark hmem hstart ?_ h
    rw [hnone]
    exact fun _ _ _ => List.not_mem_nil

/-- A bar or an ampersand before a space. -/
theorem spacedMark {symbol : String} (hsymbol : symbol = "|" ∨ symbol = "&")
    (h : Scanned table ls) : Scanned table (.mark symbol :: .space :: ls) := by
  have hfacts : symbol ∈ punctuators ∧ symbol.toList.head?.all startsPlainly = true ∧
      ' ' ∉ continuations symbol := by
    rcases hsymbol with rfl | rfl <;> decide
  refine mark hfacts.1 hfacts.2.1 ?_ (h.gap rfl)
  intro rest c hc
  rw [characters_cons, toList_text_space] at hc
  obtain rfl := Option.some.inj hc
  exact hfacts.2.2

/-- A question mark before a colon. -/
theorem optional (h : Scanned table ls) :
    Scanned table (.mark "?" :: .mark ":" :: ls) := by
  refine mark (by decide) (by decide) ?_ (h.bracket (by decide))
  intro rest c hc
  have hcolon : ((Lexeme.mark ":").text table).toList = [':'] := by
    simp [text, spell]
  rw [characters_cons, hcolon] at hc
  obtain rfl := Option.some.inj hc
  decide

/-- A point before a name. -/
theorem dot (h : Scanned table ls)
    (hls : ∃ text more, ls = .word text :: more ∧ isPropertyName text = true) :
    Scanned table (.mark "." :: ls) := by
  rcases hls with ⟨text, more, rfl, hname⟩
  refine mark (by decide) (by decide) ?_ h
  intro rest c hc
  rcases exists_isWordStart hname with ⟨d, ds, hds, hd⟩
  have htext : ((Lexeme.word text).text table).toList = d :: ds := hds
  rw [characters_cons, htext] at hc
  obtain rfl := Option.some.inj hc
  have hpoint : continuations "." = ['.'] := by decide
  rw [hpoint, List.mem_singleton]
  rintro rfl
  exact absurd hd (by decide)

/-- A built-in type, also one that is hidden. -/
theorem globalType (hidden : Bool) (n : Identifier) (h : Scanned table ls)
    (hdetached : Detached ls) : Scanned table (.globalType hidden n :: ls) := by
  have hname : Scanned table (.word n.text :: ls) := h.word n.isPropertyName hdetached
  cases hidden with
  | false =>
      refine cons (by simp [path?]) ?_ h
      intro rest us hrest hus
      exact scan_word n.isPropertyName (hdetached.head?_append hrest) hus
  | true =>
      have hlong : Scanned table (.word "globalThis" :: .mark "." :: .word n.text :: ls) :=
        (hname.dot ⟨_, _, rfl, n.isPropertyName⟩).word (by decide) (detached_cons (by decide))
      refine ⟨by simpa [path?] using h.mapped, ?_⟩
      intro rest us hrest hus
      have hscan := hlong.scan_append rest us hrest hus
      have htext : ((Lexeme.globalType true n).text table).toList =
          "globalThis".toList ++ '.' :: n.text.toList := by
        simp [text, spell, qualified]
      rw [characters_cons, htext]
      simpa [characters_cons, text, spell, lexemeTokens] using hscan

/-! ### Forms of types -/

/-- A text in parentheses. -/
theorem parenthesized (h : Scanned table ls) : Scanned table (Lexeme.parenthesized ls) := by
  have hclosed := h.append (nil.bracket (by decide : ")" ∈ brackets)) (detached_cons (by decide))
  exact hclosed.bracket (by decide)

/-- Pieces with a separator that may end a word. -/
theorem separated {l : Lexeme} {more : List Lexeme} {pieces : List (List Lexeme)}
    (hl : endsWord l = true)
    (hseparator : ∀ ms, Scanned table ms → Scanned table (l :: (more ++ ms)))
    (h : ∀ piece ∈ pieces, Scanned table piece) :
    Scanned table (Lexeme.separated (l :: more) pieces) := by
  induction pieces with
  | nil => exact nil
  | cons piece pieces ih =>
      rcases List.forall_mem_cons.mp h with ⟨hpiece, hpieces⟩
      cases pieces with
      | nil => exact hpiece
      | cons next pieces =>
          have hstep : Lexeme.separated (l :: more) (piece :: next :: pieces) =
              piece ++ (l :: (more ++ Lexeme.separated (l :: more) (next :: pieces))) := by
            rw [Lexeme.separated, List.append_assoc, List.cons_append]
            simp
          rw [hstep]
          exact hpiece.append (hseparator _ (ih hpieces)) (detached_cons hl)

/-- Pieces with commas. -/
theorem listed {pieces : List (List Lexeme)} (h : ∀ piece ∈ pieces, Scanned table piece) :
    Scanned table (Lexeme.listed pieces) := by
  refine separated (by decide) ?_ h
  intro ms hms
  exact (hms.gap rfl).bracket (by decide)

/-- Pieces in angle brackets. -/
theorem angled {pieces : List (List Lexeme)} (h : ∀ piece ∈ pieces, Scanned table piece) :
    Scanned table (Lexeme.angled pieces) := by
  rw [Lexeme.angled]
  split
  · exact nil
  · have hclosed := (listed h).append (nil.bracket (by decide : ">" ∈ brackets))
      (detached_cons (by decide))
    exact hclosed.bracket (by decide)

/-- A word may stand before a list in angle brackets, also if it is not there. -/
theorem detached_angled (pieces : List (List Lexeme)) : Detached (Lexeme.angled pieces) := by
  rw [Lexeme.angled]
  split
  · exact detached_nil
  · exact detached_cons (by decide)

/-- A type of a union or an intersection, wrapped or not. -/
theorem constituent (inIntersection : Bool) (t : TypeExpr) (h : Scanned table ls) :
    Scanned table (Layout.constituent inIntersection t ls) := by
  unfold Layout.constituent
  split
  · exact h.parenthesized
  · rw [Lexeme.wrappedIf]
    split
    · exact h.parenthesized
    · exact h
  · exact h

/-- A type parameter with its bound. -/
theorem typeParameter (n : Identifier) (h : Scanned table ls) :
    Scanned table (Layout.typeParameter n ls) := by
  have hbound : Scanned table (.word "extends" :: .space :: ls) :=
    (h.gap rfl).word (by decide) (detached_cons rfl)
  exact (hbound.gap rfl).word n.isPropertyName (detached_cons rfl)

/-- Parameters, whose names are minted. -/
theorem functionTypeParameters {pieces : List (List Lexeme)}
    (h : ∀ piece ∈ pieces, Scanned table piece) :
    ∀ piece ∈ Layout.functionTypeParameters pieces, Scanned table piece := by
  intro piece hpiece
  rcases List.mem_map.mp hpiece with ⟨⟨⟨n, _⟩, ms⟩, hzip, rfl⟩
  have htype := (h ms (List.of_mem_zip hzip).2).gap (l := .space) rfl
  exact (htype.bracket (by decide)).word n.isPropertyName (detached_cons (by decide))

/-- A key, as a word or as a literal. -/
theorem propertyKey (key : String) (h : Scanned table ls) (hdetached : Detached ls) :
    Scanned table (Layout.propertyKey key :: ls) := by
  rw [Layout.propertyKey]
  split
  · exact h.word ‹_› hdetached
  · exact h.literal key

/-- A member of an object type. -/
theorem memberType (key : String) (required readonly : Bool) (h : Scanned table ls) :
    Scanned table (Layout.memberType [Layout.propertyKey key] required readonly ls) := by
  have hcolon : Scanned table (.mark ":" :: .space :: ls) := (h.gap rfl).bracket (by decide)
  have hkey : Scanned table (Layout.propertyKey key ::
      ((if required then [] else [.mark "?"]) ++ .mark ":" :: .space :: ls)) := by
    cases required with
    | true => exact hcolon.propertyKey key (detached_cons (by decide))
    | false => exact (h.gap rfl).optional.propertyKey key (detached_cons (by decide))
  cases readonly with
  | false => simpa [Layout.memberType] using hkey
  | true =>
      have hmember : Scanned table (.word "readonly" :: .space :: Layout.propertyKey key ::
          ((if required then [] else [.mark "?"]) ++ .mark ":" :: .space :: ls)) :=
        (hkey.gap rfl).word (by decide) (detached_cons rfl)
      simpa [Layout.memberType] using hmember

/-- Members of an object type on one line. -/
theorem braced {pieces : List (List Lexeme)} (h : ∀ piece ∈ pieces, Scanned table piece) :
    Scanned table (Layout.braced [.mark ";", .space] pieces) := by
  have hclosing : Scanned table [.mark "\x7d"] := nil.bracket (by decide)
  rw [Layout.braced]
  split
  · exact hclosing.bracket (by decide)
  · have hmembers : Scanned table (Lexeme.separated [.mark ";", .space] pieces) := by
      refine separated (by decide) ?_ h
      intro ms hms
      exact (hms.gap rfl).bracket (by decide)
    have hinside := hmembers.append (hclosing.gap (l := .space) rfl) (detached_cons rfl)
    simpa using (hinside.gap rfl).bracket (by decide)

/-- Lines in braces. -/
theorem lines (p : Place) {texts : List (List Lexeme)} (h : ∀ text ∈ texts, Scanned table text) :
    Scanned table (Layout.lines p texts) := by
  have hclosing : Scanned table [.mark "\x7d"] := nil.bracket (by decide)
  have hbody : Scanned table
      (texts.flatMap (· ++ [.newline]) ++ [.indent p.level, .mark "\x7d"]) := by
    induction texts with
    | nil => exact hclosing.gap rfl
    | cons text texts ih =>
        rcases List.forall_mem_cons.mp h with ⟨hfirst, hrest⟩
        rw [List.flatMap_cons, List.append_assoc, List.append_assoc]
        exact hfirst.append ((ih hrest).gap rfl) (detached_cons rfl)
  rw [Layout.lines]
  split
  · exact hclosing.bracket (by decide)
  · have hinside : Scanned table (.newline ::
        (texts.flatMap (· ++ [.newline]) ++ [.indent p.level, .mark "\x7d"])) := hbody.gap rfl
    simpa using hinside.bracket (by decide : "\x7b" ∈ brackets)

/-- Members of an object type on lines of their own. -/
theorem memberLines (p : Place) (members : List MemberType) {pieces : List (List Lexeme)}
    (h : ∀ piece ∈ pieces, Scanned table piece) :
    Scanned table (Layout.memberLines p members pieces) := by
  refine lines p ?_
  intro line hline
  rcases List.mem_map.mp hline with ⟨⟨m, text⟩, hzip, rfl⟩
  have hmember := (h text (List.of_mem_zip hzip).2).append
    (nil.bracket (by decide : ";" ∈ brackets)) (detached_cons (by decide))
  simp only [List.append_assoc, Layout.memberHead]
  split
  · exact hmember.gap rfl
  · exact (hmember.gap rfl).gap rfl

/-- A name inside namespaces, with what stands after it. -/
theorem segments (path : List Identifier) (n : Identifier) (h : Scanned table ls)
    (hdetached : Detached ls) :
    Scanned table (Layout.segments path ++ .word n.text :: ls) := by
  have hhead : ∀ path : List Identifier, ∃ text more,
      Layout.segments path ++ .word n.text :: ls = .word text :: more ∧
        isPropertyName text = true := by
    intro path
    cases path with
    | nil => exact ⟨_, _, rfl, n.isPropertyName⟩
    | cons q path => exact ⟨_, _, rfl, q.isPropertyName⟩
  induction path with
  | nil => exact h.word n.isPropertyName hdetached
  | cons q path ih =>
      have hrest := ih.dot (hhead path)
      exact hrest.word q.isPropertyName (detached_cons (by decide))

end Scanned

end TypeNotation

/-! ## Types -/

open TypeNotation

variable {table : ImportTable}

mutual

/-- The lexemes of a type are read one by one. -/
theorem TypeExpr.scanned_layout (p : Place) :
    (t : TypeExpr) → {u : Tree} → t.tree? table p.types = some u → Scanned table (t.layout p)
  | .number, _, _ | .string, _, _ | .boolean, _, _ | .undefined, _, _ | .null, _, _
  | .never, _, _ | .void, _, _ | .unknown, _, _ =>
      Scanned.nil.word (by decide) detached_nil
  | .uniqueSymbol, _, _ =>
      ((Scanned.nil.word (by decide) detached_nil).gap rfl).word (by decide) (detached_cons rfl)
  | .stringLiteral value, _, _ => Scanned.nil.literal value
  | .object members, u, h => by
      simp only [TypeExpr.tree?, Option.bind_eq_bind, Option.bind_eq_some_iff] at h
      rcases h with ⟨fields, hfields, -⟩
      rw [TypeExpr.layout]
      split
      · exact Scanned.braced (MemberType.scanned_layouts p members hfields)
      · exact Scanned.memberLines p members (MemberType.scanned_layouts p.deeper members hfields)
  | .function typeParameters parameters result, u, h => by
      simp only [TypeExpr.tree?, Option.bind_eq_bind, Option.bind_eq_some_iff] at h
      rcases h with ⟨binders, hbinders, list, hlist, t, ht, -⟩
      have hangled := Scanned.angled
        (TypeParameter.scanned_layouts (p.bindTypes typeParameters) typeParameters hbinders)
      have hparameters := (Scanned.listed (Scanned.functionTypeParameters
        (TypeExpr.scanned_layouts (p.bindTypes typeParameters) parameters hlist))).parenthesized
      have hresult := TypeExpr.scanned_layout (p.bindTypes typeParameters) result ht
      have harrow : Scanned table (.space :: .mark "=>" :: .space ::
          result.layout (p.bindTypes typeParameters)) :=
        ((hresult.gap rfl).bracket (by decide)).gap rfl
      have hsignature := hangled.append hparameters (detached_cons (by decide))
      simpa [TypeExpr.layout] using hsignature.append harrow (detached_cons rfl)
  | .union types, u, h => by
      simp only [TypeExpr.tree?, Option.bind_eq_bind, Option.bind_eq_some_iff] at h
      rcases h with ⟨list, hlist, -⟩
      rw [TypeExpr.layout]
      split
      · exact Scanned.nil.word (by decide) detached_nil
      · refine Scanned.separated rfl ?_ (TypeExpr.scanned_constituents p types hlist)
        intro ms hms
        exact (hms.spacedMark (Or.inl rfl)).gap rfl
  | .intersection left right, u, h => by
      simp only [TypeExpr.tree?, Option.bind_eq_bind, Option.bind_eq_some_iff] at h
      rcases h with ⟨t, ht, u, hu, -⟩
      have hleft := (TypeExpr.scanned_layout p left ht).constituent true left
      have hright := (TypeExpr.scanned_layout p right hu).constituent true right
      have hmark := (hright.spacedMark (Or.inr rfl)).gap (l := .space) rfl
      simpa [TypeExpr.layout] using hleft.append hmark (detached_cons rfl)
  | .imported path n arguments, u, h => by
      simp only [TypeExpr.tree?, Option.bind_eq_bind, Option.bind_eq_some_iff] at h
      rcases h with ⟨home, hhome, list, hlist, -⟩
      have hangled := Scanned.angled (TypeExpr.scanned_layouts p arguments hlist)
      have hname := hangled.word n.isPropertyName (Scanned.detached_angled _)
      exact (hname.dot ⟨_, _, rfl, n.isPropertyName⟩).importOf hhome (detached_cons (by decide))
  | .inFile n arguments, u, h => by
      simp only [TypeExpr.tree?, Option.bind_eq_bind, Option.bind_eq_some_iff] at h
      rcases h with ⟨list, hlist, -⟩
      have hangled := Scanned.angled (TypeExpr.scanned_layouts p arguments hlist)
      exact hangled.word n.isPropertyName (Scanned.detached_angled _)
  | .global n arguments, u, h => by
      simp only [TypeExpr.tree?, Option.bind_eq_bind, Option.bind_eq_some_iff] at h
      rcases h with ⟨list, hlist, -⟩
      have hangled := Scanned.angled (TypeExpr.scanned_layouts p arguments hlist)
      exact hangled.globalType (p.types.contains n.text) n (Scanned.detached_angled _)
  | .namespaced path n arguments, u, h => by
      simp only [TypeExpr.tree?, Option.bind_eq_bind, Option.bind_eq_some_iff] at h
      rcases h with ⟨list, hlist, -⟩
      have hangled := Scanned.angled (TypeExpr.scanned_layouts p arguments hlist)
      have hpath := hangled.segments path n (Scanned.detached_angled _)
      simpa [TypeExpr.layout, Layout.applied, Layout.name] using hpath

/-- Each of some types is scanned. -/
theorem TypeExpr.scanned_layouts (p : Place) :
    (ts : List TypeExpr) → {list : List Tree} → TypeExpr.trees? table p.types ts = some list →
      ∀ piece ∈ TypeExpr.layouts p ts, Scanned table piece
  | [], _, _ => by simp [TypeExpr.layouts]
  | t :: ts, list, h => by
      simp only [TypeExpr.trees?, Option.bind_eq_bind, Option.bind_eq_some_iff] at h
      rcases h with ⟨u, hu, list, hlist, -⟩
      exact List.forall_mem_cons.mpr
        ⟨TypeExpr.scanned_layout p t hu, TypeExpr.scanned_layouts p ts hlist⟩

/-- Each type of a union is scanned, wrapped or not. -/
theorem TypeExpr.scanned_constituents (p : Place) :
    (ts : List TypeExpr) → {list : List Tree} → TypeExpr.trees? table p.types ts = some list →
      ∀ piece ∈ TypeExpr.constituents p ts, Scanned table piece
  | [], _, _ => by simp [TypeExpr.constituents]
  | t :: ts, list, h => by
      simp only [TypeExpr.trees?, Option.bind_eq_bind, Option.bind_eq_some_iff] at h
      rcases h with ⟨u, hu, list, hlist, -⟩
      exact List.forall_mem_cons.mpr ⟨(TypeExpr.scanned_layout p t hu).constituent false t,
        TypeExpr.scanned_constituents p ts hlist⟩

/-- A constraint is scanned, and so is the word that stands for a missing one. -/
theorem TypeExpr.scanned_bound (p : Place) :
    (t : Option TypeExpr) → {bound : Option Tree} →
      TypeExpr.bound? table p.types t = some bound →
        Scanned table ((TypeExpr.optionLayout p t).getD [.word "unknown"])
  | none, _, _ => Scanned.nil.word (by decide) detached_nil
  | some t, bound, h => by
      simp only [TypeExpr.bound?, Option.bind_eq_bind, Option.bind_eq_some_iff] at h
      rcases h with ⟨u, hu, -⟩
      exact TypeExpr.scanned_layout p t hu

/-- Each type parameter is scanned. -/
theorem TypeParameter.scanned_layouts (p : Place) :
    (parameters : List TypeParameter) → {binders : List Binder} →
      TypeParameter.binders? table p.types parameters = some binders →
        ∀ piece ∈ TypeParameter.layouts p parameters, Scanned table piece
  | [], _, _ => by simp [TypeParameter.layouts]
  | ⟨n, constraint⟩ :: parameters, binders, h => by
      simp only [TypeParameter.binders?, Option.bind_eq_bind, Option.bind_eq_some_iff] at h
      rcases h with ⟨bound, hbound, list, hlist, -⟩
      exact List.forall_mem_cons.mpr ⟨(TypeExpr.scanned_bound p constraint hbound).typeParameter n,
        TypeParameter.scanned_layouts p parameters hlist⟩

/-- Each member of an object type is scanned. -/
theorem MemberType.scanned_layouts (p : Place) :
    (members : List MemberType) → {fields : List Field} →
      MemberType.fields? table p.types members = some fields →
        ∀ piece ∈ MemberType.layouts p members, Scanned table piece
  | [], _, _ => by simp [MemberType.layouts]
  | ⟨.string key, required, readonly, type, document⟩ :: members, fields, h => by
      simp only [MemberType.fields?, Option.bind_eq_bind, Option.bind_eq_some_iff] at h
      rcases h with ⟨t, ht, list, hlist, -⟩
      exact List.forall_mem_cons.mpr
        ⟨(TypeExpr.scanned_layout p type ht).memberType key required readonly,
          MemberType.scanned_layouts p members hlist⟩

end

end EcmaWriter
