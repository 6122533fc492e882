import EcmaWriter.Proofs.ObjectLiteral.Layout

/-!
# EcmaWriter - Reading assignments

A reader of assignment statements.  What stands before the operator has to be a left-hand side:
an operand, which is a literal, a name or something in brackets, perhaps after `new`, and then a
chain of member names, brackets and type lists.  A statement cannot start with a brace, which
would open a block.  The value goes up to the semicolon at the end and has no comma of its own.

A type list stands directly after what it belongs to.  Before some tokens it is not read as one:
then its less-than sign compares, and a comparison is no left-hand side.

Main results:

- Definition `Assignment.read`: the target, the operator and the value of a statement.
- Theorem `Assignment.afterList_listed`: types in a type list are read up to its end.
- Theorems `Assignment.readChain_parenthesized`, `readChain_squared`, `readChain_dotted`,
  `readChain_angled`: the links of a chain.
-/

namespace EcmaWriter

open Script
open ObjectLiteral (isSpace trim readGroup readGroup_append)

/-- What an assignment statement is read as. -/
structure AssignmentReading where
  target : List Char
  operator : Option AssignmentOperator
  value : List Char
deriving DecidableEq

namespace Assignment

/-! ## Brackets and type lists -/

/-- The text after the bracket that closes an open one. -/
def afterGroup (closing : Char) (cs : List Char) : Option (List Char) :=
  (readGroup ⟨.code, [closing]⟩ cs).map Prod.snd

/-- The text after the sign that closes the outermost of the type lists that are open. -/
def afterList (c : Cursor) : List Char → Option (List Char)
  | [] => none
  | x :: cs =>
    (c.advance x).bind fun next =>
      if next.lists + next.pending ≠ 0 then afterList next cs
      else if x = '>' then some cs else none

/-- The next token, with what follows it. Spaces before it are dropped. -/
def readNext (cs : List Char) : Option (Script.Token × List Char) :=
  readToken (cs.dropWhile isSpace)

/-- The tokens before which a type list is not read. Most operators that do not assign are left
out: no assignment goes on with them in any case. -/
def refusedMarks : List String :=
  [".", "?.", "[", "<", "<<", ">>=", ">>>=", "/="]

/-- Whether a type list is not read because of what comes after it. -/
def refusesList (cs : List Char) : Bool :=
  match readNext cs with
  | some (.punctuator mark, _) => refusedMarks.contains mark
  | _ => false

/-- To pass over characters does not make more of them. -/
theorem length_dropWhile_le {p : Char → Bool} (cs : List Char) :
    (cs.dropWhile p).length ≤ cs.length :=
  (List.dropWhile_suffix p).length_le

/-- A token takes at least one character. -/
theorem length_of_readNext {cs rest : List Char} {token : Script.Token}
    (h : readNext cs = some (token, rest)) : rest.length < cs.length :=
  Nat.lt_of_lt_of_le (length_of_readToken h) (length_dropWhile_le cs)

/-- So does a group in brackets, with its closing bracket. -/
theorem length_of_readGroup {r : Reader} {cs inside rest : List Char}
    (h : readGroup r cs = some (inside, rest)) : rest.length < cs.length := by
  induction cs generalizing r inside with
  | nil => contradiction
  | cons x cs ih =>
      obtain ⟨next, -, h⟩ := Option.bind_eq_some_iff.mp h
      split at h
      · obtain ⟨-, rfl⟩ := Prod.mk.inj (Option.some.inj h)
        exact Nat.lt_succ_self _
      · obtain ⟨⟨inner, after⟩, hinner, heq⟩ := Option.map_eq_some_iff.mp h
        obtain ⟨-, rfl⟩ := Prod.mk.inj heq
        exact Nat.lt_succ_of_lt (ih hinner)

/-- So does what is passed over as a group. -/
theorem length_of_afterGroup {closing : Char} {cs rest : List Char}
    (h : afterGroup closing cs = some rest) : rest.length < cs.length := by
  obtain ⟨⟨inside, after⟩, hgroup, rfl⟩ := Option.map_eq_some_iff.mp h
  exact length_of_readGroup hgroup

/-- So does a type list. -/
theorem length_of_afterList {c : Cursor} {cs rest : List Char} (h : afterList c cs = some rest) :
    rest.length < cs.length := by
  induction cs generalizing c with
  | nil => contradiction
  | cons x cs ih =>
      obtain ⟨next, -, h⟩ := Option.bind_eq_some_iff.mp h
      split at h
      · exact Nat.lt_succ_of_lt (ih h)
      · split at h
        · exact Option.some.inj h ▸ Nat.lt_succ_self _
        · contradiction

/-! ## Targets -/

/-- The bracket that closes what an operand opens. A brace at the start of a statement opens a
block. -/
def closingMark? (isFirst : Bool) (mark : String) : Option Char :=
  if mark = "(" then some ')'
  else if mark = "[" then some ']'
  else if mark = "\x7b" ∧ isFirst = false then some '\x7d'
  else none

/-- Whether a word is an operand. -/
def isOperand (word : String) : Bool :=
  isReference word || ["true", "false", "null", "undefined"].contains word

/-- Whether there are operands that start with a character, perhaps after spaces. -/
def mayStartOperand (c : Char) : Bool :=
  isSpace c || (c = '"' ∨ c = Char.ofNat 39) || c.isDigit || isWordStart c || (closing? c).isSome

/-- The text after an operand. -/
def readOperand (isFirst : Bool) (cs : List Char) : Option (List Char) :=
  match _htoken : readNext cs with
  | some (.number _, rest) => some rest
  | some (.string _, rest) => some rest
  | some (.word word, rest) =>
    if word = "new" then readOperand false rest
    else if isOperand word then some rest else none
  | some (.punctuator mark, rest) => do afterGroup (← closingMark? isFirst mark) rest
  | none => none
termination_by cs.length
decreasing_by
  exact length_of_readNext _htoken

/-- What may come next in a chain. -/
inductive Link
  /-- A link was read, up to some text. -/
  | read (rest : List Char)
  /-- The chain has ended. -/
  | absent
  /-- No chain goes on like this, and nothing else that a target may be followed by. -/
  | refused

/-- A link in brackets. -/
def Link.ofGroup (closing : Char) (cs : List Char) : Link :=
  match afterGroup closing cs with
  | some rest => .read rest
  | none => .refused

/-- The next link of a chain. -/
def readLink (cs : List Char) : Link :=
  match cs with
  | '<' :: rest =>
    match afterList (.outside 1 0) rest with
    | some after => if refusesList after then .refused else .read after
    | none => .absent
  | cs =>
    match cs.dropWhile isSpace with
    | '(' :: rest => .ofGroup ')' rest
    | '[' :: rest => .ofGroup ']' rest
    | '.' :: rest =>
      match readToken rest with
      | some (.word _, after) => .read after
      | _ => .refused
    | _ => .absent

/-- So does each link of a chain. -/
theorem length_of_readLink {cs rest : List Char} (h : readLink cs = .read rest) :
    rest.length < cs.length := by
  have hgroup : ∀ {closing : Char} {inside : List Char}, Link.ofGroup closing inside = .read rest →
      rest.length < inside.length := by
    intro closing inside hgroup
    rw [Link.ofGroup] at hgroup
    split at hgroup
    · exact Link.read.inj hgroup ▸ length_of_afterGroup ‹_›
    · contradiction
  have hblanks := length_dropWhile_le (p := isSpace) cs
  unfold readLink at h
  split at h
  · split at h
    · split at h
      · contradiction
      · exact Link.read.inj h ▸ Nat.lt_succ_of_lt (length_of_afterList ‹_›)
    · contradiction
  · split at h
    · rename_i heq
      rw [heq] at hblanks
      exact Nat.lt_of_lt_of_le (Nat.lt_succ_of_lt (hgroup h)) hblanks
    · rename_i heq
      rw [heq] at hblanks
      exact Nat.lt_of_lt_of_le (Nat.lt_succ_of_lt (hgroup h)) hblanks
    · rename_i heq
      rw [heq] at hblanks
      split at h
      · have hname := Nat.lt_succ_of_lt (length_of_readToken ‹_›)
        exact Link.read.inj h ▸ Nat.lt_of_lt_of_le hname hblanks
      · contradiction
    · contradiction

/-- The text after a chain. -/
def readChain (cs : List Char) : Option (List Char) :=
  match _hlink : readLink cs with
  | .read rest => readChain rest
  | .absent => some cs
  | .refused => none
termination_by cs.length
decreasing_by
  exact length_of_readLink _hlink

/-- The text after a target. -/
def readTarget (isFirst : Bool) (cs : List Char) : Option (List Char) :=
  (readOperand isFirst cs).bind readChain

/-! ## Statements -/

/-- The operators of assignments. -/
def operators : List (String × Option AssignmentOperator) :=
  [("=", none), ("**=", some .exponentiation), ("*=", some .multiplication),
    ("/=", some .division), ("%=", some .remainder), ("+=", some .addition),
    ("-=", some .subtraction), ("<<=", some .leftShift), (">>=", some .signedRightShift),
    (">>>=", some .unsignedRightShift), ("&=", some .bitwiseAnd), ("^=", some .bitwiseXor),
    ("|=", some .bitwiseOr), ("&&=", some .logicalAnd), ("||=", some .logicalOr),
    ("??=", some .nullishCoalescing)]

/-- The operator of an assignment, and the text after it. -/
def readOperator (cs : List Char) : Option (Option AssignmentOperator × List Char) :=
  match readNext cs with
  | some (.punctuator mark, rest) => (operators.lookup mark).map (·, rest)
  | _ => none

/-- The value before the semicolon at the end. -/
def readValue (cs : List Char) : Option (List Char) :=
  if cs.getLast? = some ';' ∧ Cursor.start.run cs.dropLast = some Cursor.start then
    some (trim cs.dropLast)
  else none

/-- Read an assignment statement. -/
def read (cs : List Char) : Option AssignmentReading := do
  let rest ← readTarget true cs
  let (operator, after) ← readOperator rest
  let value ← readValue after
  return ⟨cs.take (cs.length - rest.length), operator, value⟩

/-! ## Going over type lists -/

/-- Whether a cursor has one type list more open, or about to open, than another one. -/
inductive Above : Cursor → Cursor → Prop
  | list (r : Reader) (pending : Nat) (equals : Bool) (lists : Nat) :
      Above ⟨r, pending, equals, lists⟩ ⟨r, pending, equals, lists + 1⟩
  | pending (r : Reader) (pending : Nat) (equals : Bool) (lists : Nat) :
      Above ⟨r, pending, equals, lists⟩ ⟨r, pending + 1, equals, lists⟩

/-- A reader that is still in a list knows of one. -/
theorem Above.ne_zero {c c' : Cursor} (h : Above c c') : c'.lists + c'.pending ≠ 0 := by
  cases h <;> simp

/-- After a character there is still one list more, unless it was closed or was an operator. -/
theorem Above.listsAfter {c c' : Cursor} (h : Above c c') (x : Char) :
    c'.listsAfter x = c.listsAfter x + 1 ∨ c'.listsAfter x = c.listsAfter x := by
  cases h with
  | list r pending equals lists =>
      simp only [Cursor.listsAfter]
      split_ifs <;> omega
  | pending r pending equals lists =>
      simp only [Cursor.listsAfter]
      split_ifs <;> omega

/-- Both cursors go on in the same way, until they are the same. -/
theorem Above.advance {c c' d : Cursor} {x : Char} (h : Above c c') (hd : c.advance x = some d) :
    ∃ d', c'.advance x = some d' ∧ (Above d d' ∨ d = d') := by
  have hseparates : c'.separates x = false := by
    rw [Cursor.separates, decide_eq_false h.ne_zero, Bool.and_false]
  have hlists := h.listsAfter x
  rw [Cursor.advance] at hd
  split at hd
  · contradiction
  obtain ⟨r, hr, rfl⟩ := Option.map_eq_some_iff.mp hd
  have hstep : c'.reader.step x = some r := by cases h <;> exact hr
  have houtside : c'.isOutside = c.isOutside := by cases h <;> rfl
  rw [Cursor.advance, hseparates, if_neg Bool.false_ne_true, hstep, houtside]
  refine ⟨_, rfl, ?_⟩
  split
  · by_cases hless : x = '<'
    · subst hless
      cases h with
      | list => exact Or.inl (.list _ _ _ _)
      | pending => exact Or.inl (.pending _ _ _ _)
    · rw [if_neg hless, if_neg hless]
      rcases hlists with hmore | hsame
      · rw [hmore]
        exact Or.inl (.list _ _ _ _)
      · exact Or.inr (by rw [hsame])
  · cases h with
    | list => exact Or.inl (.list _ _ _ _)
    | pending => exact Or.inl (.pending _ _ _ _)

section

variable {table : ImportTable} {cs : List Char} {pieces : List (List Lexeme)}

/-- A list is not closed in a text after which there is still one list more. -/
theorem afterList_append {c c' d d' : Cursor} (h : Above c c') (hc : c.run cs = some d)
    (hc' : c'.run cs = some d') (hne : d ≠ d') (rest : List Char) :
    afterList c' (cs ++ rest) = afterList d' rest := by
  induction cs generalizing c c' with
  | nil =>
      obtain rfl := Option.some.inj hc'
      rfl
  | cons x cs ih =>
      obtain ⟨next, hnext, hrest⟩ := Option.bind_eq_some_iff.mp hc
      obtain ⟨next', hnext', habove⟩ := h.advance hnext
      have hrest' : next'.run cs = some d' := by
        rwa [Cursor.run_cons, hnext', Option.bind_some] at hc'
      rcases habove with habove | rfl
      · rw [List.cons_append, afterList, hnext', Option.bind_some, if_pos habove.ne_zero]
        exact ih habove hrest hrest'
      · exact absurd (Option.some.inj (hrest.symm.trans hrest')) hne

/-- Text that is gone over leaves the end of a list where it was. -/
theorem afterList_of_fluent (h : Fluent cs) {pending lists : Nat} (hpos : lists + pending ≠ 0)
    (rest : List Char) :
    afterList (.outside pending lists) (cs ++ rest) =
      afterList (.outside 0 (lists + pending)) rest := by
  cases lists with
  | succ lists =>
      refine afterList_append (.list _ _ _ _) (h pending lists) (h pending (lists + 1)) ?_ rest
      intro heq
      have hlists := congrArg Cursor.lists heq
      simp only [Cursor.outside] at hlists
      omega
  | zero =>
      obtain ⟨pending, rfl⟩ := Nat.exists_eq_succ_of_ne_zero (Nat.zero_add pending ▸ hpos)
      refine afterList_append (.pending _ _ _ _) (h pending 0) (h (pending + 1) 0) ?_ rest
      intro heq
      have hlists := congrArg Cursor.lists heq
      simp only [Cursor.outside] at hlists
      omega

/-- Types in a type list are read up to its end. -/
theorem afterList_listed (hne : pieces ≠ [])
    (h : ∀ ls ∈ pieces, Fluent (Lexeme.characters table ls)) {pending lists : Nat}
    (hlists : lists + pending = 1) (rest : List Char) :
    afterList (.outside pending lists)
      (Lexeme.characters table (Lexeme.listed pieces) ++ '>' :: rest) = some rest := by
  induction pieces generalizing pending lists with
  | nil => exact absurd rfl hne
  | cons ls pieces ih =>
      rw [List.forall_mem_cons] at h
      have hls := fun rest => afterList_of_fluent h.1 (hlists ▸ Nat.one_ne_zero) rest
      rw [hlists] at hls
      cases pieces with
      | nil => exact hls ('>' :: rest)
      | cons ms pieces =>
          have hcomma : ∀ rest, afterList (.outside 0 1) (',' :: ' ' :: rest) =
              afterList (.outside 0 1) rest := fun _ => rfl
          have htext : Lexeme.characters table (Lexeme.listed (ls :: ms :: pieces)) ++ '>' :: rest =
              Lexeme.characters table ls ++ ',' :: ' ' ::
                (Lexeme.characters table (Lexeme.listed (ms :: pieces)) ++ '>' :: rest) := by
            simp [Lexeme.listed, Lexeme.separated, Lexeme.text, Lexeme.spell]
          rw [htext, hls, hcomma]
          exact ih (List.cons_ne_nil ms pieces) h.2 rfl

end

/-! ## Brackets -/

/-- What is in brackets is read up to the bracket that closes it. -/
theorem afterGroup_append {opening closing : Char} (hpair : closing? opening = some closing)
    {cs : List Char} (h : SelfContained cs) (rest : List Char) :
    afterGroup closing (cs ++ closing :: rest) = some rest := by
  have hclose : readGroup ⟨.code, [closing]⟩ (closing :: rest) = some ([], rest) := by
    unfold closing? at hpair
    split at hpair
    case h_4 => contradiction
    all_goals
      obtain rfl := Option.some.inj hpair
      rfl
  have hgroup : readGroup ⟨.code, [closing]⟩ (cs ++ closing :: rest) = some (cs ++ [], rest) :=
    (readGroup_append (h []) (closing :: rest)).trans (congrArg (Option.map _) hclose)
  rw [afterGroup, hgroup]
  rfl

/-! ## Tokens -/

section

variable {cs rest : List Char}

/-- Spaces before a token do not matter. -/
theorem readNext_space (cs : List Char) : readNext (' ' :: cs) = readNext cs := rfl

/-- A token is read at once if there is no space before it. -/
theorem readNext_of_head (h : ∀ c ∈ cs.head?, isSpace c = false) : readNext cs = readToken cs := by
  cases cs with
  | nil => rfl
  | cons c cs => rw [readNext, List.dropWhile_cons_of_neg (by simp [h c rfl])]

/-- A word is read to its end. -/
theorem readNext_word (h : hasIdentifierShape cs = true)
    (hrest : rest.head?.any isWordPart = false) :
    readNext (cs ++ rest) = some (.word (String.ofList cs), rest) := by
  rw [readNext_of_head, readToken_word h hrest]
  cases cs with
  | nil => exact absurd h (by decide)
  | cons c cs =>
      rw [hasIdentifierShape, Bool.and_eq_true] at h
      rintro d ⟨⟩
      exact decide_eq_false (isWordStart_facts h.1).2.2

/-- A number is read to its end, with the point if it has one. -/
theorem readNext_number (n : Nat) (pointed : Bool) (hrest : rest.head?.any isWordPart = false)
    (hpoint : pointed = false → rest.head? ≠ some '.') :
    readNext (Nat.toDigits 10 n ++ ((if pointed then ['.'] else []) ++ rest)) =
      some (.number n, rest) := by
  rw [readNext_of_head, readToken_number n pointed rest hrest hpoint]
  obtain ⟨c, cs, hcs⟩ := List.exists_cons_of_ne_nil (Nat.toDigits_ne_nil (n := n) (b := 10))
  have hc : c.isDigit = true :=
    Nat.isDigit_of_mem_toDigits (by decide) (by decide) (hcs ▸ List.mem_cons_self)
  rw [hcs]
  rintro d ⟨⟩
  refine decide_eq_false ?_
  rintro rfl
  exact absurd hc (by decide)

/-- A literal is read to its closing quote, as what it stands for. -/
theorem readNext_literal (value : String) (rest : List Char) :
    readNext ((stringLiteral value).toList ++ rest) =
      some (.string (Lexeme.readBack value), rest) := by
  have hhead : (stringLiteral value).toList ++ rest =
      '"' :: (escapeText value.toList ++ '"' :: rest) := by
    simp [stringLiteral]
  rw [readNext_of_head, readToken_literal]
  · rfl
  · rw [hhead]
    rintro d ⟨⟩
    rfl

/-- A mark is read if no longer one starts there. -/
theorem readNext_punctuator {symbol : String} (h : symbol ∈ punctuators)
    (hrest : ∀ c ∈ rest.head?, c ∉ continuations symbol) :
    readNext (symbol.toList ++ rest) = some (.punctuator symbol, rest) := by
  have hspace : ∀ symbol ∈ punctuators, symbol.toList.head?.any (!isSpace ·) = true := by
    decide
  obtain ⟨c, hc, hhead⟩ := (Option.any_eq_true ..).mp (hspace symbol h)
  obtain ⟨cs, hcs⟩ := List.head?_eq_some_iff.mp hc
  rw [readNext_of_head, readToken_punctuator h hrest]
  rw [hcs]
  rintro d ⟨⟩
  exact (Bool.not_eq_true' _).mp hhead

/-- A token that starts with no quote, digit or letter is a punctuator that starts with the same
character. -/
theorem exists_readNext_eq {c : Char} {token : Script.Token} (hspace : isSpace c = false)
    (hquote : ¬(c = '"' ∨ c = Char.ofNat 39)) (hdigit : c.isDigit = false)
    (hstart : isWordStart c = false) (h : readNext (c :: cs) = some (token, rest)) :
    ∃ symbol, token = .punctuator symbol ∧ symbol.toList.head? = some c := by
  have hhead : ∀ d ∈ (c :: cs).head?, isSpace d = false := by
    rintro d ⟨⟩
    exact hspace
  rw [readNext_of_head hhead, readToken, if_neg hquote, if_neg (Bool.eq_false_iff.mp hdigit),
    if_neg (Bool.eq_false_iff.mp hstart), readPunctuator] at h
  obtain ⟨symbol, hsymbol, heq⟩ := Option.bind_eq_some_iff.mp h
  obtain ⟨rfl, -⟩ := Prod.mk.inj (Option.some.inj heq)
  have hne : ∀ symbol ∈ punctuators, symbol.toList ≠ [] := by decide
  have hprefix : symbol.toList <+: c :: cs := by
    have hfound := List.find?_some hsymbol
    exact List.isPrefixOf_iff_prefix.mp hfound
  obtain ⟨d, ds, hds⟩ := List.exists_cons_of_ne_nil (hne symbol (List.mem_of_find?_eq_some hsymbol))
  rw [hds, List.cons_prefix_cons] at hprefix
  exact ⟨symbol, rfl, by rw [hds, hprefix.1]; rfl⟩

end

/-! ## Operands -/

section

variable {isFirst : Bool} {cs rest : List Char}

/-- A number is an operand. -/
theorem readOperand_number {n : Nat} (h : readNext cs = some (.number n, rest)) :
    readOperand isFirst cs = some rest := by
  unfold readOperand
  split <;> simp_all

/-- A text is an operand. -/
theorem readOperand_string {w : String} (h : readNext cs = some (.string w, rest)) :
    readOperand isFirst cs = some rest := by
  unfold readOperand
  split <;> simp_all

/-- A word is an operand unless it is a keyword; `new` comes before one. -/
theorem readOperand_word {word : String} (h : readNext cs = some (.word word, rest)) :
    readOperand isFirst cs =
      if word = "new" then readOperand false rest
      else if isOperand word then some rest else none := by
  rw [readOperand]
  split <;> simp_all

/-- A bracket is an operand, to the bracket that closes it. -/
theorem readOperand_punctuator {mark : String}
    (h : readNext cs = some (.punctuator mark, rest)) :
    readOperand isFirst cs =
      (closingMark? isFirst mark).bind fun closing => afterGroup closing rest := by
  unfold readOperand
  split <;> simp_all

/-- No operand starts with another mark than an opening bracket. -/
theorem readOperand_eq_none {c : Char} (h : mayStartOperand c = false) :
    readOperand isFirst (c :: cs) = none := by
  simp only [mayStartOperand, Bool.or_eq_false_iff, decide_eq_false_iff_not,
    Option.isSome_eq_false_iff, Option.isNone_iff_eq_none] at h
  obtain ⟨⟨⟨⟨hspace, hquote⟩, hdigit⟩, hstart⟩, hbracket⟩ := h
  cases hnext : readNext (c :: cs) with
  | none =>
      unfold readOperand
      split <;> simp_all
  | some pair =>
      obtain ⟨token, rest⟩ := pair
      obtain ⟨symbol, rfl, hhead⟩ := exists_readNext_eq hspace hquote hdigit hstart hnext
      have hclosing : closingMark? isFirst symbol = none := by
        have hne : ∀ bracket d, bracket.toList.head? = some d → closing? d ≠ none →
            symbol ≠ bracket := by
          rintro bracket d hbracket' hd rfl
          rw [hhead] at hbracket'
          exact hd (Option.some.inj hbracket' ▸ hbracket)
        rw [closingMark?, if_neg (hne "(" '(' rfl (by decide)),
          if_neg (hne "[" '[' rfl (by decide)),
          if_neg fun h => hne "\x7b" '\x7b' rfl (by decide) h.1]
      rw [readOperand_punctuator hnext, hclosing]
      rfl

end

/-! ## Links -/

section

variable {cs rest : List Char}

/-- A link is passed over. -/
theorem readChain_of_read (h : readLink cs = .read rest) : readChain cs = readChain rest := by
  rw [readChain]
  split <;> simp_all

/-- A link that is refused ends the chain with a fault. -/
theorem readChain_of_refused (h : readLink cs = .refused) : readChain cs = none := by
  rw [readChain]
  split <;> simp_all

/-- A chain ends before anything but a point, an opening bracket or a type list. -/
theorem readChain_of_head (hlist : cs.head? ≠ some '<')
    (h : ∀ c ∈ (cs.dropWhile isSpace).head?, c ∉ ['(', '[', '.']) : readChain cs = some cs := by
  have hlink : readLink cs = .absent := by
    unfold readLink
    split
    · exact absurd rfl hlist
    · split
      · rename_i heq
        exact absurd (by simp) (h '(' (by rw [heq]; rfl))
      · rename_i heq
        exact absurd (by simp) (h '[' (by rw [heq]; rfl))
      · rename_i heq
        exact absurd (by simp) (h '.' (by rw [heq]; rfl))
      · rfl
  unfold readChain
  split <;> simp_all

/-- A self-contained group ends at its closing bracket. -/
theorem ofGroup_append {opening closing : Char} (hpair : closing? opening = some closing)
    (h : SelfContained cs) (rest : List Char) :
    Link.ofGroup closing (cs ++ closing :: rest) = .read rest := by
  rw [Link.ofGroup, afterGroup_append hpair h]

/-- Arguments are a link. -/
theorem readChain_parenthesized (h : SelfContained cs) (rest : List Char) :
    readChain ('(' :: (cs ++ ')' :: rest)) = readChain rest := by
  have hpair : closing? '(' = some ')' := rfl
  exact readChain_of_read (ofGroup_append hpair h rest)

/-- A space before arguments does not matter. -/
theorem readChain_spaced (h : SelfContained cs) (rest : List Char) :
    readChain (' ' :: '(' :: (cs ++ ')' :: rest)) = readChain rest := by
  have hpair : closing? '(' = some ')' := rfl
  exact readChain_of_read (ofGroup_append hpair h rest)

/-- A key in square brackets is a link. -/
theorem readChain_squared (h : SelfContained cs) (rest : List Char) :
    readChain ('[' :: (cs ++ ']' :: rest)) = readChain rest := by
  have hpair : closing? '[' = some ']' := rfl
  exact readChain_of_read (ofGroup_append hpair h rest)

/-- A name after a point is a link. -/
theorem readChain_dotted (h : hasIdentifierShape cs = true)
    (hrest : rest.head?.any isWordPart = false) :
    readChain ('.' :: (cs ++ rest)) = readChain rest := by
  refine readChain_of_read ?_
  have hlink : readLink ('.' :: (cs ++ rest)) =
      match readToken (cs ++ rest) with
      | some (.word _, after) => .read after
      | _ => .refused := rfl
  rw [hlink, readToken_word h hrest]

/-! ### Type lists -/

variable {table : ImportTable} {pieces : List (List Lexeme)}

/-- A type list starts and ends with an angle bracket. -/
theorem characters_angled (hne : pieces ≠ []) (rest : List Char) :
    Lexeme.characters table (Lexeme.angled pieces) ++ rest =
      '<' :: (Lexeme.characters table (Lexeme.listed pieces) ++ '>' :: rest) := by
  rw [Lexeme.angled, List.isEmpty_eq_false_iff.mpr hne]
  simp [Lexeme.text, Lexeme.spell]

/-- Text that opens the type lists before it does not go on with an operator, be it after a
less-than sign of its own. -/
theorem continues_of_fluent (h : Fluent cs) :
    (∃ x tail, cs = x :: tail ∧ x ≠ '<' ∧ x ≠ '=') ∨
      ∃ x tail, cs = '<' :: x :: tail ∧ x ≠ '=' := by
  have hdiffer : (Cursor.outside 1 0).run cs ≠ (Cursor.outside 0 0).run cs := by
    rw [h 1 0, h 0 0]
    decide
  rcases cs with _ | ⟨x, cs⟩
  · exact absurd (Option.some.inj (h 1 0)) (by decide)
  by_cases hless : x = '<'
  · subst hless
    rcases cs with _ | ⟨x, tail⟩
    · exact absurd (Option.some.inj (h 0 0)) (by decide)
    · refine Or.inr ⟨x, tail, rfl, ?_⟩
      rintro rfl
      exact hdiffer rfl
  · refine Or.inl ⟨x, cs, rfl, hless, ?_⟩
    rintro rfl
    exact hdiffer rfl

/-- The less-than sign of a type list is a token of its own, or with the next one. -/
theorem exists_readNext_less (h : Fluent cs) (rest : List Char) : ∃ symbol ∈ ["<", "<<"], ∃ after,
    readNext ('<' :: (cs ++ rest)) = some (.punctuator symbol, after) := by
  rcases continues_of_fluent h with ⟨x, tail, rfl, hless, hequals⟩ | ⟨x, tail, rfl, hequals⟩
  · have hx : ∀ c ∈ (x :: tail ++ rest).head?, c ∉ continuations "<" := by
      rintro c ⟨⟩ hmem
      have hall : continuations "<" ⊆ ['<', '='] := by decide
      exact (List.mem_pair.mp (hall hmem)).elim hless hequals
    exact ⟨"<", by simp, x :: tail ++ rest, readNext_punctuator (by decide) hx⟩
  · have hx : ∀ c ∈ (x :: tail ++ rest).head?, c ∉ continuations "<<" := by
      rintro c ⟨⟩ hmem
      have hall : continuations "<<" ⊆ ['='] := by decide
      exact hequals (List.mem_singleton.mp (hall hmem))
    exact ⟨"<<", by simp, x :: tail ++ rest, readNext_punctuator (by decide) hx⟩

/-- The lexemes of a type list start with a less-than sign, and with a type after it. -/
theorem exists_characters_angled (hne : pieces ≠ [])
    (h : ∀ ls ∈ pieces, Fluent (Lexeme.characters table ls)) (rest : List Char) :
    ∃ cs more, Fluent cs ∧
      Lexeme.characters table (Lexeme.angled pieces) ++ rest = '<' :: (cs ++ more) := by
  rw [characters_angled hne]
  rcases pieces with _ | ⟨ls, _ | ⟨ms, pieces⟩⟩
  · exact absurd rfl hne
  · exact ⟨_, '>' :: rest, h ls List.mem_cons_self, rfl⟩
  · refine ⟨_, ',' :: ' ' :: (Lexeme.characters table (Lexeme.listed (ms :: pieces)) ++
      '>' :: rest), h ls List.mem_cons_self, ?_⟩
    simp [Lexeme.listed, Lexeme.separated, Lexeme.text, Lexeme.spell]

/-- No type list stands directly after another one. -/
theorem refusesList_angled (hne : pieces ≠ [])
    (h : ∀ ls ∈ pieces, Fluent (Lexeme.characters table ls)) (rest : List Char) :
    refusesList (Lexeme.characters table (Lexeme.angled pieces) ++ rest) = true := by
  obtain ⟨cs, more, hcs, htext⟩ := exists_characters_angled hne h rest
  obtain ⟨symbol, hsymbol, after, hnext⟩ := exists_readNext_less hcs more
  have hrefused : ["<", "<<"] ⊆ refusedMarks := by decide
  rw [htext, refusesList, hnext]
  exact List.contains_iff_mem.mpr (hrefused hsymbol)

/-- A type list is a link if nothing comes after it that refuses one. -/
theorem readChain_angled (hne : pieces ≠ [])
    (h : ∀ ls ∈ pieces, Fluent (Lexeme.characters table ls)) (rest : List Char) :
    readChain (Lexeme.characters table (Lexeme.angled pieces) ++ rest) =
      if refusesList rest then none else readChain rest := by
  have hlink : readLink ('<' :: (Lexeme.characters table (Lexeme.listed pieces) ++ '>' :: rest)) =
      if refusesList rest then .refused else .read rest := by
    rw [readLink, afterList_listed hne h rfl]
  rw [characters_angled hne]
  split
  · rename_i hrefused
    exact readChain_of_refused (hlink.trans (if_pos hrefused))
  · rename_i hrefused
    exact readChain_of_read (hlink.trans (if_neg hrefused))

end

end Assignment

end EcmaWriter
