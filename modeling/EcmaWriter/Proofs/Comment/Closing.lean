import EcmaWriter.Layout.Module
import EcmaWriter.Proofs.Lexeme.Spelling
import Mathlib.Data.List.Chain
import Mathlib.Data.List.TakeWhile

/-!
# EcmaWriter - Where comments end

A block comment ends at the first `*/` after its beginning.  The comments of a generated
file hold text from outside: documents, and the links that the banner credits.  Such text
is disarmed before it is written, and no end of a comment arises where pieces of it meet
each other or what stands around them.  So every comment ends where it is meant to end.

A document is written line by line.  What its lines say can be read off the comment: it is
the disarmed document without the blanks at the ends of its lines.

Main results:

- Definition `Unclosed`: texts that do not end a comment.
- Theorem `unclosed_disarm`: a disarmed text does not end a comment.
- Theorem `isDocumentComment_documentBlock`: what a document is written as.
- Theorem `comments_close_once`: the comments of a generated file end with their last two
  characters and not before.
-/

namespace EcmaWriter

/-! ## Ends of comments -/

/-- The characters that end a block comment. -/
def commentEnd : List Char :=
  ['*', '/']

/-- A text does not end a comment anywhere. -/
def Unclosed (cs : List Char) : Prop :=
  ¬ commentEnd <:+: cs

/-- The first end of a comment in a text is at the end of the text. -/
def ClosesAtEnd (cs : List Char) : Prop :=
  ∃ body, cs = body ++ commentEnd ∧ Unclosed (body ++ ['*'])

/-- A text is unclosed if no star in it has a slash after it. -/
theorem unclosed_iff_isChain {cs : List Char} :
    Unclosed cs ↔ cs.IsChain fun c d => c = '*' → d ≠ '/' := by
  rw [List.isChain_iff_forall_rel_of_append_cons_cons]
  constructor
  · rintro h c d before after rfl rfl rfl
    exact h ⟨before, after, by simp [commentEnd]⟩
  · rintro h ⟨before, after, hcs⟩
    have hmeet : cs = before ++ '*' :: '/' :: after := by simp [← hcs, commentEnd]
    exact h hmeet rfl rfl

namespace Unclosed

variable {cs ds : List Char}

/-- Nothing closes no comment. -/
@[simp] theorem nil : Unclosed [] :=
  unclosed_iff_isChain.mpr .nil

/-- Two texts close no comment if the end is not made where they meet. -/
theorem append (h : Unclosed cs) (h' : Unclosed ds)
    (hjoin : cs.getLast? = some '*' → ds.head? ≠ some '/') : Unclosed (cs ++ ds) := by
  rw [unclosed_iff_isChain] at h h' ⊢
  rw [List.isChain_append]
  refine ⟨h, h', ?_⟩
  rintro c hc d hd rfl rfl
  exact hjoin hc hd

/-- The start of a text closes no comment if the text closes none. -/
theorem of_append_left (h : Unclosed (cs ++ ds)) : Unclosed cs :=
  fun hend => h (hend.trans (List.prefix_append cs ds).isInfix)

/-- Nor does the end of it. -/
theorem of_append_right (h : Unclosed (cs ++ ds)) : Unclosed ds :=
  fun hend => h (hend.trans (List.suffix_append cs ds).isInfix)

/-- A text without stars. -/
theorem of_not_mem (h : '*' ∉ cs) : Unclosed cs :=
  fun hend => h (hend.subset List.mem_cons_self)

/-- A text before something that does not start with a slash. -/
theorem append_of_head? (h : Unclosed cs) (h' : Unclosed ds) (hhead : ds.head? ≠ some '/') :
    Unclosed (cs ++ ds) :=
  h.append h' fun _ => hhead

end Unclosed

/-! ## Disarmed texts -/

/-- A character that does not start the end of a comment is kept. -/
theorem disarm_cons {c : Char} {cs : List Char} (h : c = '*' → cs.head? ≠ some '/') :
    disarm (c :: cs) = c :: disarm cs := by
  rw [disarm]
  rintro rest rfl rfl
  exact h rfl rfl

/-- A disarmed text starts as the text does. -/
theorem head?_disarm (cs : List Char) : (disarm cs).head? = cs.head? := by
  cases cs with
  | nil => rfl
  | cons c cs =>
      by_cases h : c = '*' → cs.head? ≠ some '/'
      · rw [disarm_cons h]
        rfl
      · simp only [Classical.not_imp, not_not] at h
        rcases h with ⟨rfl, hslash⟩
        obtain ⟨more, rfl⟩ := List.head?_eq_some_iff.mp hslash
        rfl

/-- Only spaces are added to disarmed text. -/
theorem mem_disarm {c : Char} {cs : List Char} (h : c ∈ disarm cs) : c ∈ cs ∨ c = ' ' := by
  fun_induction disarm cs with
  | case1 cs ih => grind
  | case2 d cs _ ih => grind
  | case3 => exact absurd h List.not_mem_nil

/-- A disarmed text does not end a comment: the slash of an end has a space before it, and no
other slash gets a star before it. -/
theorem unclosed_disarm (cs : List Char) : Unclosed (disarm cs) := by
  rw [unclosed_iff_isChain]
  fun_induction disarm cs with
  | case1 cs ih =>
      have hslash : ('/' :: disarm cs).IsChain fun c d => c = '*' → d ≠ '/' :=
        List.isChain_cons.mpr ⟨fun d _ hc => absurd hc (by decide), ih⟩
      exact .cons_cons (fun _ => by decide) (.cons_cons (fun h => absurd h (by decide)) hslash)
  | case2 c cs hclose ih =>
      refine List.isChain_cons.mpr ⟨?_, ih⟩
      rintro d hd rfl rfl
      rw [Option.mem_def, head?_disarm] at hd
      obtain ⟨more, rfl⟩ := List.head?_eq_some_iff.mp hd
      exact hclose more rfl rfl
  | case3 => exact .nil

/-! ## Lines -/

/-- Text without line breaks is one line. -/
theorem lines_of_not_mem {cs : List Char} (h : '\n' ∉ cs) : lines cs = [cs] := by
  induction cs with
  | nil => rfl
  | cons c cs ih =>
      rw [List.mem_cons, not_or] at h
      rw [lines, if_neg (Ne.symm h.1), ih h.2]

/-- A line feed ends the line before it. -/
theorem lines_append_newline {cs : List Char} (h : '\n' ∉ cs) (ds : List Char) :
    lines (cs ++ '\n' :: ds) = cs :: lines ds := by
  induction cs with
  | nil => rfl
  | cons c cs ih =>
      rw [List.mem_cons, not_or] at h
      rw [List.cons_append, lines, if_neg (Ne.symm h.1), ih h.2]

/-- Lines that line feeds end, and a last line. -/
theorem lines_flatMap_append {ls : List (List Char)} {last : List Char}
    (hls : ∀ line ∈ ls, '\n' ∉ line) (hlast : '\n' ∉ last) :
    lines (ls.flatMap (· ++ ['\n']) ++ last) = ls ++ [last] := by
  induction ls with
  | nil => exact lines_of_not_mem hlast
  | cons line ls ih =>
      rw [List.forall_mem_cons] at hls
      rw [List.flatMap_cons, List.append_assoc, List.append_assoc, List.singleton_append,
        lines_append_newline hls.1, ih hls.2, List.cons_append]

/-- No line has a line break in it. -/
theorem not_mem_of_mem_lines {cs line : List Char} (h : line ∈ lines cs) : '\n' ∉ line := by
  induction cs generalizing line with
  | nil =>
      rw [List.mem_singleton.mp h]
      exact List.not_mem_nil
  | cons c cs ih =>
      rw [lines] at h
      split at h
      · rcases List.mem_cons.mp h with rfl | h
        · exact List.not_mem_nil
        · exact ih h
      · rename_i hc
        split at h
        · rw [List.mem_singleton.mp h, List.mem_singleton]
          exact Ne.symm hc
        · rename_i first rest heq
          rcases List.mem_cons.mp h with rfl | h
          · rw [List.mem_cons, not_or]
            exact ⟨Ne.symm hc, ih (heq ▸ List.mem_cons_self)⟩
          · exact ih (heq ▸ List.mem_cons_of_mem _ h)

/-- To trim a text adds nothing to it. -/
theorem trimEnd_sublist (cs : List Char) : (trimEnd cs).Sublist cs := by
  have h := (List.dropWhile_sublist (l := cs.reverse) isBlank).reverse
  rwa [List.reverse_reverse] at h

/-- Only blank text is trimmed to nothing. -/
theorem trimEnd_eq_nil_iff {cs : List Char} : trimEnd cs = [] ↔ cs.all isBlank = true := by
  rw [trimEnd, List.reverse_eq_nil_iff, List.dropWhile_eq_nil_iff, List.all_eq_true]
  simp

/-- Trimming leaves nothing of a blank text, and something of any other. -/
theorem trim_eq_nil_iff {cs : List Char} : trim cs = [] ↔ cs.all isBlank = true := by
  rw [trim, trimEnd_eq_nil_iff, trimStart]
  induction cs with
  | nil => rfl
  | cons c cs ih =>
      by_cases hc : isBlank c = true
      · rw [List.dropWhile_cons_of_pos hc, List.all_cons, hc, Bool.true_and, ih]
      · rw [List.dropWhile_cons_of_neg hc]

/-! ## Documents -/

/-- What stands in a line of a document block after the indentation. -/
def starred : List Char → List Char
  | [] => [' ', '*']
  | c :: cs => ' ' :: '*' :: ' ' :: c :: cs

/-- What a line of a document block says: the text after the indentation, the star and the
space that follows it. -/
def statedText (indent line : List Char) : List Char :=
  match line.drop (indent.length + 2) with
  | ' ' :: cs => cs
  | cs => cs

/-- A comment holds a document: it ends with its last two characters, its first and its last
line open and close it, and each line between them has a star and says what a line of the
document says. -/
structure IsDocumentComment (indent document comment : List Char)
    (middle : List (List Char)) : Prop where
  closes : ClosesAtEnd comment
  lines_eq : lines comment =
    (indent ++ ['/', '*', '*']) :: middle ++ [indent ++ [' ', '*', '/']]
  starts : ∀ line ∈ middle, indent ++ [' ', '*'] <+: line
  states : middle.map (statedText indent) =
    (lines (trim document)).map fun line => disarm (trimEnd line)

/-- A line of a document is its disarmed text after a star. -/
theorem toList_documentLine (line : List Char) :
    (documentLine line).toList = starred (disarm (trimEnd line)) ++ ['\n'] := by
  unfold documentLine
  cases htrim : trimEnd line with
  | nil => rfl
  | cons c cs =>
      have hhead := head?_disarm (c :: cs)
      cases hdisarm : disarm (c :: cs) with
      | nil => simp [hdisarm] at hhead
      | cons d ds => simp [hdisarm, starred]

/-- A line starts with its indentation and a star. -/
theorem prefix_starred (indent text : List Char) :
    indent ++ [' ', '*'] <+: indent ++ starred text := by
  rw [List.prefix_append_right_inj]
  cases text with
  | nil => exact List.prefix_rfl
  | cons c cs => exact ⟨' ' :: c :: cs, rfl⟩

/-- What a line says is the text that was put on it. -/
theorem statedText_starred (indent text : List Char) :
    statedText indent (indent ++ starred text) = text := by
  rw [statedText, ← List.drop_drop, List.drop_left]
  cases text <;> rfl

/-- The star before a text closes no comment. -/
theorem unclosed_starred {text : List Char} (h : Unclosed text) : Unclosed (starred text) := by
  cases text with
  | nil => exact unclosed_iff_isChain.mpr (by decide)
  | cons c cs =>
      have hopen : Unclosed [' ', '*', ' '] := unclosed_iff_isChain.mpr (by decide)
      exact hopen.append h fun hlast => absurd hlast (by decide)

/-- The star before a text adds no line break. -/
theorem not_mem_starred {text : List Char} (h : '\n' ∉ text) : '\n' ∉ starred text := by
  cases text with
  | nil => decide
  | cons c cs => simpa [starred] using h

/-- Spaces before a text do not end a comment with it. -/
theorem unclosed_indented {text : List Char} (n : Nat) (h : Unclosed text) :
    Unclosed (List.replicate n ' ' ++ text) := by
  have hspaces : '*' ∉ List.replicate n ' ' := fun hmem =>
    absurd (List.eq_of_mem_replicate hmem) (by decide)
  exact (Unclosed.of_not_mem hspaces).append h fun hlast =>
    absurd (List.mem_of_getLast? hlast) hspaces

/-- Lines that do not end a comment do not end it together. -/
theorem unclosed_flatMap_lines {ls : List (List Char)} (h : ∀ line ∈ ls, Unclosed line) :
    Unclosed (ls.flatMap (· ++ ['\n'])) := by
  induction ls with
  | nil => exact .nil
  | cons line ls ih =>
      rw [List.forall_mem_cons] at h
      have hnewline : Unclosed ['\n'] := .of_not_mem (by decide)
      refine (h.1.append_of_head? hnewline (by decide)).append (ih h.2) ?_
      intro hlast
      rw [List.getLast?_concat] at hlast
      exact absurd (Option.some.inj hlast) (by decide)

/-- The lines of a document block but the last one. -/
def documentLines (indent : List Char) (ls : List (List Char)) : List (List Char) :=
  (indent ++ ['/', '*', '*']) :: ls.map fun line => indent ++ starred (disarm (trimEnd line))

/-- A blank document is not written. -/
theorem documentBlock_of_isBlankDocument (indent : String) {document : String}
    (h : isBlankDocument document = true) : documentBlock indent document = "" := by
  rw [documentBlock, trim_eq_nil_iff.mpr h]

/-- A document is a line for each of its lines, between the ends of a comment. -/
theorem toList_documentBlock (indent : List Char) {document : String}
    (h : isBlankDocument document = false) :
    (documentBlock (String.ofList indent) document).toList =
      (documentLines indent (lines (trim document.toList))).flatMap (· ++ ['\n'])
        ++ (indent ++ [' ', '*', '/']) ++ ['\n'] := by
  have hjoin : ∀ ls : List (List Char),
      (String.join (ls.map fun line => String.ofList indent ++ documentLine line)).toList =
        (ls.map fun line => indent ++ starred (disarm (trimEnd line))).flatMap (· ++ ['\n']) := by
    intro ls
    rw [String.toList_join, List.flatMap_map, List.flatMap_map]
    exact List.flatMap_congr fun line _ => by simp [toList_documentLine]
  unfold documentBlock
  split
  · rename_i htrim
    rw [isBlankDocument, trim_eq_nil_iff.mp htrim] at h
    exact absurd h (by decide)
  · rename_i c cs htrim
    simp [documentLines, hjoin, htrim]

/-- Nothing before the last slash of a document block ends the comment: not in a line, not
where a line starts and not where one meets the next. -/
theorem unclosed_documentLines (n : Nat) (ls : List (List Char)) :
    Unclosed ((documentLines (List.replicate n ' ') ls).flatMap (· ++ ['\n'])
      ++ (List.replicate n ' ' ++ [' ', '*'])) := by
  have hlines : ∀ line ∈ documentLines (List.replicate n ' ') ls, Unclosed line := by
    rw [documentLines, List.forall_mem_cons, List.forall_mem_map]
    refine ⟨unclosed_indented n (unclosed_iff_isChain.mpr (by decide)), ?_⟩
    intro line _
    exact unclosed_indented n (unclosed_starred (unclosed_disarm _))
  have hlast : Unclosed (List.replicate n ' ' ++ [' ', '*']) :=
    unclosed_indented n (unclosed_iff_isChain.mpr (by decide))
  refine (unclosed_flatMap_lines hlines).append_of_head? hlast ?_
  cases n <;> simp [List.replicate_succ]

/-- No line of a document block has a line feed in it. -/
theorem not_mem_documentLines {indent : List Char} (hindent : '\n' ∉ indent) (cs : List Char) :
    ∀ line ∈ documentLines indent (lines cs), '\n' ∉ line := by
  rw [documentLines, List.forall_mem_cons, List.forall_mem_map]
  refine ⟨by simpa using hindent, ?_⟩
  intro line hline
  have hfeed : '\n' ∉ disarm (trimEnd line) := by
    intro hmem
    rcases mem_disarm hmem with hmem | heq
    · exact not_mem_of_mem_lines hline ((trimEnd_sublist line).subset hmem)
    · exact absurd heq (by decide)
  rw [List.mem_append, not_or]
  exact ⟨hindent, not_mem_starred hfeed⟩

/-- What stands between the marks of a document block. -/
theorem exists_documentBody (n : Nat) {document : String}
    (h : isBlankDocument document = false) :
    ∃ body, Unclosed (body ++ ['*']) ∧
      (documentBlock (String.ofList (List.replicate n ' ')) document).toList =
        List.replicate n ' ' ++ (['/', '*'] ++ body ++ commentEnd) ++ ['\n'] := by
  let indent := List.replicate n ' '
  let middle := (lines (trim document.toList)).map fun line =>
    indent ++ starred (disarm (trimEnd line))
  refine ⟨['*', '\n'] ++ middle.flatMap (· ++ ['\n']) ++ indent ++ [' '], ?_, ?_⟩
  · have hlines := unclosed_documentLines n (lines (trim document.toList))
    rw [documentLines] at hlines
    have hopen : Unclosed ((indent ++ ['/', '*']) ++
        (['*', '\n'] ++ middle.flatMap (· ++ ['\n']) ++ indent ++ [' '] ++ ['*'])) := by
      simpa [indent, middle] using hlines
    exact hopen.of_append_right
  · rw [toList_documentBlock _ h]
    simp [documentLines, commentEnd, indent, middle]

/-- Nothing is written for a blank document; any other becomes a comment that holds it. -/
theorem isDocumentComment_documentBlock (n : Nat) {document : String}
    (h : isBlankDocument document = false) :
    ∃ comment middle,
      (documentBlock (String.ofList (List.replicate n ' ')) document).toList = comment ++ ['\n'] ∧
        IsDocumentComment (List.replicate n ' ') document.toList comment middle := by
  let indent := List.replicate n ' '
  have hindent : '\n' ∉ indent := fun hmem =>
    absurd (List.eq_of_mem_replicate hmem) (by decide)
  refine ⟨_, (lines (trim document.toList)).map fun line =>
    indent ++ starred (disarm (trimEnd line)), toList_documentBlock indent h, ?_, ?_, ?_, ?_⟩
  · refine ⟨(documentLines indent (lines (trim document.toList))).flatMap (· ++ ['\n'])
      ++ (indent ++ [' ']), by simp [commentEnd], ?_⟩
    have hlines := unclosed_documentLines n (lines (trim document.toList))
    simpa [indent] using hlines
  · exact lines_flatMap_append (not_mem_documentLines hindent _) (by simpa using hindent)
  · rw [List.forall_mem_map]
    exact fun line _ => prefix_starred _ _
  · rw [List.map_map]
    exact List.map_congr_left fun line _ => statedText_starred _ _

/-! ## Credits -/

/-- A comment around a text that ends no comment and does not start with a slash. -/
theorem closesAtEnd_delimited {body : List Char} (h : Unclosed body)
    (hhead : body.head? ≠ some '/') :
    ClosesAtEnd (['/', '*'] ++ body ++ commentEnd) := by
  have hopen : Unclosed ['/', '*'] := unclosed_iff_isChain.mpr (by decide)
  have hstar : Unclosed ['*'] := unclosed_iff_isChain.mpr (by decide)
  exact ⟨_, rfl, (hopen.append_of_head? h hhead).append_of_head? hstar (by decide)⟩

/-- What the banner credits ends no comment, and fixed words stand around it. -/
theorem exists_credit (links : List String) :
    ∃ credit, Unclosed credit ∧ (bannerBody links).toList =
      " generated by ".toList ++ credit ++ ". Do not edit! ".toList := by
  cases links with
  | nil => exact ⟨"gen-js".toList, .of_not_mem (by decide), by decide⟩
  | cons link links =>
      refine ⟨disarm (", ".intercalate (link :: links)).toList, unclosed_disarm _, ?_⟩
      simp only [bannerBody, String.toList_append, String.toList_ofList]

/-- The credit line does not end its comment, whatever the links. -/
theorem unclosed_bannerBody (links : List String) : Unclosed (bannerBody links).toList := by
  obtain ⟨credit, hcredit, heq⟩ := exists_credit links
  have hbefore : Unclosed " generated by ".toList := .of_not_mem (by decide)
  have hafter : Unclosed ". Do not edit! ".toList := .of_not_mem (by decide)
  rw [heq]
  exact (hbefore.append hcredit fun hlast => absurd hlast (by decide)).append_of_head? hafter
    (by decide)

/-- The comment at the top of a file ends where it should. -/
theorem closesAtEnd_credit (links : List String) :
    ClosesAtEnd (['/', '*'] ++ (bannerBody links).toList ++ commentEnd) := by
  refine closesAtEnd_delimited (unclosed_bannerBody links) ?_
  obtain ⟨credit, -, heq⟩ := exists_credit links
  simp [heq]

/-- The banner is two comments. -/
theorem spellAll_banner (table : ImportTable) (links : List String) :
    spellAll table (Layout.banner links) = .ok (String.ofList
      ((['/', '*'] ++ " eslint-disable ".toList ++ commentEnd) ++ '\n' ::
        (['/', '*'] ++ (bannerBody links).toList ++ commentEnd))) := by
  have hjoin : String.join ["/*" ++ " eslint-disable " ++ "*/", "\n",
      "/*" ++ bannerBody links ++ "*/"] = String.ofList
        ((['/', '*'] ++ " eslint-disable ".toList ++ commentEnd) ++ '\n' ::
          (['/', '*'] ++ (bannerBody links).toList ++ commentEnd)) := by
    rw [← String.toList_inj, String.toList_join]
    simp [commentEnd]
  rw [← hjoin]
  rfl

/-! ## Comments of a file -/

/-- No comment of a generated file ends before its last two characters.  A blank document is
not written; any other is a comment that holds it, whatever the spaces before it.  The banner
is two comments, whichever links it credits.  The document of a function, made of its own and
those of its parameters, is no exception. -/
theorem comments_close_once (table : ImportTable) :
    (∀ (n : Nat) (document : String),
      let indent := List.replicate n ' '
      let text := documentBlock (String.ofList indent) document
      if isBlankDocument document then text = ""
      else ∃ comment middle, text.toList = comment ++ ['\n'] ∧
        IsDocumentComment indent document.toList comment middle) ∧
    (∀ links, ∃ first second,
      spellAll table (Layout.banner links) = .ok (String.ofList (first ++ '\n' :: second)) ∧
        ClosesAtEnd first ∧ ClosesAtEnd second) ∧
    ∀ f : FunctionDefinition, ∃ text,
      spellAll table (Layout.documentOf f.fullDocument) = .ok text ∧
        if isBlankDocument f.fullDocument then text = ""
        else ∃ comment middle, text.toList = comment ++ ['\n'] ∧
          IsDocumentComment [] f.fullDocument.toList comment middle := by
  refine ⟨?_, ?_, ?_⟩
  · intro n document
    dsimp only
    split
    · exact documentBlock_of_isBlankDocument _ ‹_›
    · exact isDocumentComment_documentBlock n (Bool.eq_false_iff.mpr ‹_›)
  · intro links
    exact ⟨_, _, spellAll_banner table links,
      closesAtEnd_delimited (.of_not_mem (by decide)) (by decide),
      closesAtEnd_credit links⟩
  · intro f
    by_cases hblank : isBlankDocument f.fullDocument = true
    · rw [Layout.documentOf, if_pos hblank]
      exact ⟨"", rfl, by rw [if_pos hblank]⟩
    · rw [Layout.documentOf, if_neg hblank]
      refine ⟨_, spellAll_singleton rfl, ?_⟩
      rw [if_neg hblank]
      exact isDocumentComment_documentBlock 0 (Bool.eq_false_iff.mpr hblank)

end EcmaWriter
