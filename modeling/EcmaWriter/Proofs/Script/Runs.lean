import EcmaWriter.Proofs.Script.Scanner

/-!
# EcmaWriter - Lexemes that keep apart

Whether neighbours keep apart depends only on the lexeme at the end of one part and the
lexeme at the start of the next, so parts are put together by what they start and end
with.

Main results:

- Definition `Lexeme.Run`: lexemes that keep apart, by what they start and end with.
- Theorem `Lexeme.Run.append`: runs stand side by side if their neighbours keep apart.
- Definition `Lexeme.Whole`: runs that can stand where an expression can.
-/

namespace EcmaWriter

open Script

/-! ## Neighbours -/

namespace Lexeme

/-- Whether an expression or an item of a list can start with a lexeme. -/
def opens : Lexeme → Bool
  | word _ | digits _ _ | literal _ => true
  | mark text => ["(", "[", "\x7b", "-", "~", "!", "..."].contains text
  | _ => false

/-- Whether an expression can end with a lexeme. -/
def closes : Lexeme → Bool
  | word _ | digits _ _ | literal _ => true
  | mark text => [")", "]", "\x7d"].contains text
  | _ => false

/-- Whether a point can follow a lexeme at the end of an expression. -/
def solid : Lexeme → Bool
  | digits _ pointed => pointed
  | l => l.closes

/-- The lexemes that directly follow an expression, apart from points. -/
def followers : List Lexeme :=
  [space, mark ")", mark "]", mark ",", mark ":", mark "(", mark "["]

/-- The lexemes that directly precede an expression, apart from minus signs. -/
def leaders : List Lexeme :=
  [space, mark "(", mark "[", mark "...", mark "~", mark "!"]

/-- What can be read is not the name of another module. -/
theorem path?_of_isReadable {l : Lexeme} (h : l.isReadable = true) : l.path? = none := by
  cases l with
  | importOf path => exact absurd h Bool.false_ne_true
  | _ => rfl

/-- No longer punctuator starts with one of these. -/
theorem endsBefore_of_mem {text : String}
    (h : text ∈ ["(", ")", "[", "]", "\x7b", "\x7d", "~", "..."]) (c : Char) :
    (mark text).endsBefore c = true := by
  have hnone : ∀ text ∈ ["(", ")", "[", "]", "\x7b", "\x7d", "~", "..."],
      continuations text = [] := by
    decide
  rw [endsBefore, hnone text h]
  rfl

/-- What closes may have any character after it. -/
theorem endsBefore_of_closing {text : String} (h : (mark text).closes = true) (c : Char) :
    (mark text).endsBefore c = true := by
  refine endsBefore_of_mem ?_ c
  rw [closes, List.contains_iff_mem] at h
  simp only [List.mem_cons, List.not_mem_nil, or_false] at h ⊢
  tauto

/-- The end of an expression may stand before anything that goes on with neither a word
nor, after a number, a point. -/
theorem endsBefore_of_closes {l : Lexeme} {c : Char} (hl : l.closes = true)
    (hc : isWordPart c = false) (hpoint : c ≠ '.') : l.endsBefore c = true := by
  cases l with
  | word text => simp [endsBefore, hc]
  | digits value pointed => simp [endsBefore, hc, hpoint]
  | literal value => rfl
  | mark text => exact endsBefore_of_closing hl c
  | _ => exact absurd hl (by simp [closes])

/-- What closes may have each of the followers after it. -/
theorem joins_follower {l m : Lexeme} (hl : l.closes = true) (hm : m ∈ followers) : joins l m := by
  have hfirst : ∀ m ∈ followers, m.first?.all (fun c => !isWordPart c && c != '.') = true := by
    decide
  intro c hc
  have hfollower := hfirst m hm
  rw [Option.mem_def.mp hc, Option.all_some, Bool.and_eq_true, Bool.not_eq_true', bne_iff_ne]
    at hfollower
  exact endsBefore_of_closes hl hfollower.1 hfollower.2

/-- What is solid may have a point after it. -/
theorem joins_point {l : Lexeme} (hl : l.solid = true) : joins l (mark ".") := by
  intro c hc
  obtain rfl : '.' = c := Option.some.inj hc
  cases l with
  | word text => rfl
  | digits value pointed =>
      obtain rfl : pointed = true := hl
      rfl
  | literal value => rfl
  | mark text => exact endsBefore_of_closing hl '.'
  | _ => exact absurd hl (by simp [solid, closes])

/-- A readable word starts as words do. -/
theorem isWordStart_first? {text : String} {c : Char} (h : (word text).isReadable = true)
    (hc : (word text).first? = some c) : isWordStart c = true := by
  rw [first?] at hc
  rw [isReadable] at h
  cases hchars : text.toList with
  | nil => exact absurd (hchars ▸ hc) (by simp)
  | cons d cs =>
      rw [hchars, hasIdentifierShape, Bool.and_eq_true] at h
      rw [hchars] at hc
      obtain rfl : d = c := Option.some.inj hc
      exact h.1

/-- Nothing that an expression starts with makes an operator of a mark before it, except
for a second minus sign. -/
theorem first?_of_opens {m : Lexeme} {c : Char} (hm : m.opens = true) (hread : m.isReadable = true)
    (hc : m.first? = some c) : c ≠ '=' ∧ (m ≠ mark "-" → c ≠ '-') := by
  cases m with
  | word text =>
      have hstart := isWordStart_first? hread hc
      refine ⟨?_, fun _ => ?_⟩
      · rintro rfl
        exact absurd hstart (by decide)
      · rintro rfl
        exact absurd hstart (by decide)
  | digits value pointed =>
      have hdigit : c.isDigit = true :=
        Nat.isDigit_of_mem_toDigits (by decide) (by decide) (List.mem_of_mem_head? hc)
      refine ⟨?_, fun _ => ?_⟩
      · rintro rfl
        exact absurd hdigit (by decide)
      · rintro rfl
        exact absurd hdigit (by decide)
  | literal value =>
      obtain rfl : '"' = c := Option.some.inj hc
      exact ⟨by decide, fun _ => by decide⟩
  | mark text =>
      rw [opens, List.contains_iff_mem] at hm
      have hall : ∀ text ∈ ["(", "[", "\x7b", "-", "~", "!", "..."],
          text.toList.head?.all (fun c => c != '=' && (text == "-" || c != '-')) = true := by
        decide
      have hhead := hall text hm
      rw [show text.toList.head? = some c from hc, Option.all_some, Bool.and_eq_true,
        Bool.or_eq_true, beq_iff_eq, bne_iff_ne, bne_iff_ne] at hhead
      refine ⟨hhead.1, fun hne => hhead.2.resolve_left ?_⟩
      rintro rfl
      exact hne rfl
  | _ => exact absurd hm (by simp [opens])

/-- Each of the leaders may have before it what opens after it. -/
theorem joins_leader {l m : Lexeme} (hl : l ∈ leaders) (hm : m.opens = true)
    (hread : m.isReadable = true) : joins l m := by
  intro c hc
  rcases first?_of_opens hm hread hc with ⟨hequal, -⟩
  simp only [leaders, List.mem_cons, List.not_mem_nil, or_false] at hl
  rcases hl with rfl | rfl | rfl | rfl | rfl | rfl
  · rfl
  · exact endsBefore_of_mem (by decide) c
  · exact endsBefore_of_mem (by decide) c
  · exact endsBefore_of_mem (by decide) c
  · exact endsBefore_of_mem (by decide) c
  · have hnext : continuations "!" = ['=', '='] := by decide
    simp [endsBefore, hnext, hequal]

/-- A minus may have after it what opens, unless that is another minus. -/
theorem joins_minus {m : Lexeme} (hm : m.opens = true) (hread : m.isReadable = true)
    (hminus : m ≠ mark "-") : joins (mark "-") m := by
  intro c hc
  rcases first?_of_opens hm hread hc with ⟨hequal, hne⟩
  have hnext : continuations "-" = ['-', '='] := by decide
  simp [endsBefore, hnext, hequal, hne hminus]

/-- No punctuator goes on with a space. -/
theorem joins_space {text : String} (h : text ∈ punctuators) : joins (mark text) space := by
  have hall : ∀ text ∈ punctuators, (mark text).endsBefore ' ' = true := by decide
  intro c hc
  obtain rfl : ' ' = c := Option.some.inj hc
  exact hall text h

/-! ## Runs -/

/-- Lexemes that can be read, each of which may stand before the next, by what the first
and the last of them are. -/
structure Run (first last : Lexeme → Prop) (ls : List Lexeme) : Prop where
  ne_nil : ls ≠ []
  readable : ∀ l ∈ ls, l.isReadable = true
  chain : ls.IsChain joins
  head : ∀ l ∈ ls.head?, first l
  last : ∀ l ∈ ls.getLast?, last l

/-- A run that can stand where an expression can. -/
def Whole (ls : List Lexeme) : Prop :=
  Run (fun l => l.opens = true) (fun l => l.closes = true) ls

namespace Run

variable {f g f' g' : Lexeme → Prop} {ls ms : List Lexeme}

/-- One lexeme is a run. -/
theorem single {l : Lexeme} (hread : l.isReadable = true) (hf : f l) (hg : g l) : Run f g [l] := by
  refine ⟨by simp, by simpa using hread, List.isChain_singleton l, ?_, ?_⟩
  · rintro m ⟨⟩
    exact hf
  · rintro m ⟨⟩
    exact hg

/-- A lexeme is known by itself. -/
theorem exactly {l : Lexeme} (hread : l.isReadable = true) : Run (· = l) (· = l) [l] :=
  single hread rfl rfl

/-- Runs stand side by side if the end of one may stand before the start of the other. -/
theorem append (h : Run f g ls) (k : Run f' g' ms)
    (hjoins : ∀ l m, g l → f' m → m.isReadable = true → joins l m) : Run f g' (ls ++ ms) := by
  refine ⟨?_, ?_, ?_, ?_, ?_⟩
  · simp [h.ne_nil]
  · intro l hl
    rcases List.mem_append.mp hl with hl | hl
    · exact h.readable l hl
    · exact k.readable l hl
  · refine h.chain.append k.chain ?_
    intro l hl m hm
    exact hjoins l m (h.last l hl) (k.head m hm) (k.readable m (List.mem_of_mem_head? hm))
  · rw [List.head?_append_of_ne_nil _ h.ne_nil]
    exact h.head
  · rw [List.getLast?_append_of_ne_nil _ k.ne_nil]
    exact k.last

/-- A run may be asked for less at its ends. -/
theorem mono (h : Run f g ls) (hf : ∀ l, f l → f' l) (hg : ∀ l, g l → g' l) : Run f' g' ls :=
  { h with
    head := fun l hl => hf l (h.head l hl)
    last := fun l hl => hg l (h.last l hl) }

end Run

namespace Whole

variable {ls ms : List Lexeme}

/-- A whole run with a run that starts with a follower. -/
theorem followed {f g : Lexeme → Prop} (h : Whole ls) (k : Run f g ms)
    (hf : ∀ m, f m → m ∈ followers) : Run (fun l => l.opens = true) g (ls ++ ms) :=
  h.append k fun _ m hl hm _ => joins_follower hl (hf m hm)

/-- A whole run after a run that ends with a leader. -/
theorem led {f g : Lexeme → Prop} (k : Run f g ms) (hg : ∀ m, g m → m ∈ leaders) (h : Whole ls) :
    Run f (fun l => l.closes = true) (ms ++ ls) :=
  k.append h fun l _ hl hm hread => joins_leader (hg l hl) hm hread

/-- What goes on after a whole run may stand between two of them. -/
theorem between {f g : Lexeme → Prop} {separator : List Lexeme} (h : Whole ls)
    (k : Run f g separator) (hf : ∀ m, f m → m ∈ followers) (hg : ∀ m, g m → m ∈ leaders)
    (hms : Whole ms) : Whole (ls ++ separator ++ ms) :=
  (h.followed k hf).append hms fun l _ hl hm hread => joins_leader (hg l hl) hm hread

/-- In brackets, also with nothing inside. -/
theorem run_bracketed {opening closing : String} (h : ls = [] ∨ Whole ls)
    (ho : opening = "(" ∨ opening = "[") (hc : closing = ")" ∨ closing = "]") :
    Run (· = mark opening) (fun l => l.closes = true) (mark opening :: ls ++ [mark closing]) := by
  have hopening : (mark opening).isReadable = true ∧ mark opening ∈ leaders := by
    rcases ho with rfl | rfl <;> decide
  have hclosing : (mark closing).isReadable = true ∧ mark closing ∈ followers ∧
      (mark closing).closes = true := by
    rcases hc with rfl | rfl <;> decide
  have hinside : Run (· = mark opening) (fun l => joins l (mark closing))
      (mark opening :: ls) := by
    rcases h with rfl | h
    · refine .single hopening.1 rfl fun c _ => endsBefore_of_mem ?_ c
      rcases ho with rfl | rfl <;> decide
    · refine (led (.exactly hopening.1) ?_ h).mono (fun _ hl => hl) fun l hl => ?_
      · rintro m rfl
        exact hopening.2
      · exact joins_follower hl hclosing.2.1
  have hwhole := hinside.append (.exactly hclosing.1) fun l m hl hm _ => hm ▸ hl
  refine hwhole.mono (fun _ hl => hl) ?_
  rintro l rfl
  exact hclosing.2.2

/-- A whole run in brackets, or the brackets by themselves. -/
theorem bracketed {opening closing : String} (h : ls = [] ∨ Whole ls)
    (ho : opening = "(" ∨ opening = "[") (hc : closing = ")" ∨ closing = "]") :
    Whole (mark opening :: ls ++ [mark closing]) := by
  refine (run_bracketed h ho hc).mono ?_ fun _ hl => hl
  rintro l rfl
  rcases ho with rfl | rfl <;> decide

/-- Parentheses that may be left out. -/
theorem wrappedIf (h : Whole ls) (needed : Bool) : Whole (Lexeme.wrappedIf needed ls) := by
  cases needed with
  | false => exact h
  | true => exact bracketed (Or.inr h) (Or.inl rfl) (Or.inl rfl)

/-- A mark between two spaces. -/
theorem run_spaced {text : String} (h : text ∈ punctuators) :
    Run (· = space) (· = space) [space, mark text, space] := by
  have hmark : Run (· = mark text) (· = mark text) [mark text] :=
    .exactly (List.contains_iff_mem.mpr h)
  have hspace : Run (· = space) (· = space) [space] := .exactly rfl
  have hleft : Run (· = space) (· = mark text) ([space] ++ [mark text]) := by
    refine hspace.append hmark ?_
    rintro l m rfl rfl - c -
    rfl
  refine hleft.append hspace ?_
  rintro l m rfl rfl -
  exact joins_space h

/-- An operator between operands. -/
theorem spaced {text : String} (h : Whole ls) (htext : text ∈ punctuators) (hms : Whole ms) :
    Whole (ls ++ [space, mark text, space] ++ ms) :=
  h.between (run_spaced htext) (by rintro m rfl; decide) (by rintro m rfl; decide) hms

/-- A comma or a colon with a space after it. -/
theorem run_punctuated {text : String} (h : text ∈ punctuators) :
    Run (· = mark text) (· = space) [mark text, space] := by
  have hmark : (mark text).isReadable = true := List.contains_iff_mem.mpr h
  refine Run.append (.exactly hmark) (.exactly rfl) ?_
  rintro l m rfl rfl -
  exact joins_space h

/-- Whole runs with commas between them. -/
theorem listed {pieces : List (List Lexeme)} (hne : pieces ≠ []) (h : ∀ ls ∈ pieces, Whole ls) :
    Whole (Lexeme.listed pieces) := by
  induction pieces with
  | nil => exact absurd rfl hne
  | cons ls pieces ih =>
      rcases List.forall_mem_cons.mp h with ⟨hls, hpieces⟩
      cases pieces with
      | nil => exact hls
      | cons ms pieces =>
          exact hls.between (run_punctuated (by decide)) (by rintro m rfl; decide)
            (by rintro m rfl; decide) (ih (by simp) hpieces)

/-- A list can be empty. -/
theorem nil_or_listed {pieces : List (List Lexeme)} (h : ∀ ls ∈ pieces, Whole ls) :
    Lexeme.listed pieces = [] ∨ Whole (Lexeme.listed pieces) := by
  cases pieces with
  | nil => exact Or.inl rfl
  | cons ls pieces => exact Or.inr (listed (by simp) h)

/-- A keyword with a space before an expression. -/
theorem keyworded {text : String} (htext : hasIdentifierShape text.toList = true) (h : Whole ls) :
    Whole ([word text, space] ++ ls) := by
  have hword : Run (fun l => l.opens = true) (fun l => l.closes = true) [word text] :=
    .single htext rfl rfl
  have hhead : Run (fun l => l.opens = true) (· = space) ([word text] ++ [space]) :=
    followed hword (.exactly rfl) (by rintro m rfl; decide)
  exact led hhead (by rintro m rfl; decide) h

/-- What stands in brackets directly after an expression. -/
theorem suffixed {opening closing : String} (h : Whole ls) (hms : ms = [] ∨ Whole ms)
    (ho : opening = "(" ∨ opening = "[") (hc : closing = ")" ∨ closing = "]") :
    Whole (ls ++ (mark opening :: ms ++ [mark closing])) := by
  refine h.followed (run_bracketed hms ho hc) ?_
  rintro m rfl
  rcases ho with rfl | rfl <;> decide

/-- A name after a point. -/
theorem dotted {key : String} (hkey : isPropertyName key = true)
    (h : Run (fun l => l.opens = true) (fun l => l.solid = true) ls) :
    Whole (ls ++ [mark ".", word key]) := by
  have hword : Run (· = word key) (fun l => l.closes = true) [word key] := .single hkey rfl rfl
  have hname : Run (· = mark ".") (fun l => l.closes = true) ([mark "."] ++ [word key]) := by
    refine Run.append (.exactly (by decide)) hword ?_
    rintro l m rfl rfl hread c hc
    have hnext : continuations "." = ['.'] := by decide
    have hne : c ≠ '.' := by
      rintro rfl
      exact absurd (isWordStart_first? hread hc) (by decide)
    simp [endsBefore, hnext, hne]
  refine h.append hname ?_
  rintro l m hl rfl -
  exact joins_point hl

end Whole

end Lexeme

end EcmaWriter
