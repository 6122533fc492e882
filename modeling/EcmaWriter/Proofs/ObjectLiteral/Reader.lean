import EcmaWriter.Proofs.Nesting.Reader
import EcmaWriter.Proofs.Script.Grammar
import EcmaWriter.Proofs.Script.Scanner
import Mathlib.Data.List.DropRight

/-!
# EcmaWriter - Reading object literals

A reader of object literals.  It cuts what stands in the braces into members, at the commas
that are in no string, comment, bracket or type list, and reads each member for the property
that it defines.  The rules are those of the language: what follows three points is spread; a
key in brackets is computed; a word or a string before a colon is the name of a property,
except that `__proto__` sets the prototype there; and a word by itself is the name of a
property and the value of a variable.  A literal that sets the prototype twice is refused.

A type list opens with a less-than sign and closes with a greater-than sign.  A less-than sign
that comes before a space or an equals sign belongs to an operator, and so does a greater-than
sign after an equals sign or outside of type lists.

Main results:

- Definitions `Cursor.run`, `Cursor.split`: going over text, and cutting it at commas.
- Definition `ObjectLiteral.read`: the properties of an object literal.
- Theorem `Cursor.split_append_comma`: text without a comma of its own is one piece.
- Theorem `Fluent.bracketed`: what is in brackets has no comma of its own.
-/

namespace EcmaWriter

open Script

/-! ## Cutting at commas -/

/-- How far a reader is that looks for commas. -/
structure Cursor where
  reader : Reader
  /-- The less-than signs just read, which open type lists unless they are an operator. -/
  pending : Nat
  /-- Whether an equals sign was just read. -/
  equals : Bool
  /-- The type lists that are open. -/
  lists : Nat
deriving DecidableEq

namespace Cursor

/-- Outside of all brackets, strings and comments. -/
def isOutside (c : Cursor) : Bool :=
  (c.reader.context = .code || c.reader.context = .slash) && c.reader.awaited.isEmpty

/-- Whether a character is a comma between members. -/
def separates (c : Cursor) (x : Char) : Bool :=
  c.isOutside && x = ',' && c.lists + c.pending = 0

/-- The type lists that are open after a character. -/
def listsAfter (c : Cursor) (x : Char) : Nat :=
  if x = '<' ∨ x = ' ' ∨ x = '=' then c.lists
  else if x = '>' ∧ c.equals = false then c.lists + c.pending - 1
  else c.lists + c.pending

/-- One character that is no comma between members. -/
def advance (c : Cursor) (x : Char) : Option Cursor :=
  if c.separates x then none
  else (c.reader.step x).map fun reader =>
    if c.isOutside then ⟨reader, if x = '<' then c.pending + 1 else 0, x = '=', c.listsAfter x⟩
    else { c with reader }

/-- How far a reader gets in a text without a comma between members. -/
def run (c : Cursor) (cs : List Char) : Option Cursor :=
  cs.foldlM advance c

/-- Outside of everything, with some type lists open and some about to open. -/
def outside (pending lists : Nat) : Cursor :=
  ⟨Reader.start, pending, false, lists⟩

/-- At the start of a member. -/
def start : Cursor :=
  outside 0 0

/-- Cut a text at the commas between members. It has to end outside of everything. -/
def split (c : Cursor) : List Char → Option (List (List Char))
  | [] => if c = start then some [[]] else none
  | x :: cs =>
    if c.separates x then (split start cs).map ([] :: ·)
    else (c.advance x).bind fun c => (split c cs).map (·.modifyHead (x :: ·))

@[simp] theorem run_nil (c : Cursor) : c.run [] = some c := rfl

@[simp] theorem run_cons (c : Cursor) (x : Char) (cs : List Char) :
    c.run (x :: cs) = (c.advance x).bind fun c => c.run cs := rfl

/-- Two texts are gone over one after the other. -/
theorem run_append (c : Cursor) (cs ds : List Char) :
    c.run (cs ++ ds) = (c.run cs).bind fun c => c.run ds :=
  List.foldlM_append

/-- Where the first text leaves the reader the second one starts. -/
theorem run_append_of_eq {c c' : Cursor} {cs : List Char} (h : c.run cs = some c')
    (ds : List Char) : c.run (cs ++ ds) = c'.run ds := by
  rw [run_append, h]
  rfl

/-- What is gone over without a comma between members is not cut. -/
theorem split_append {c c' : Cursor} {cs : List Char} (h : c.run cs = some c')
    (ds : List Char) : c.split (cs ++ ds) = (c'.split ds).map (·.modifyHead (cs ++ ·)) := by
  induction cs generalizing c with
  | nil =>
    obtain rfl := Option.some.inj h
    rw [List.nil_append]
    cases c.split ds with
    | none => rfl
    | some pieces => cases pieces <;> rfl
  | cons x cs ih =>
    obtain ⟨next, hnext, hrest⟩ := Option.bind_eq_some_iff.mp h
    have hseparates : c.separates x = false := by
      rw [Bool.eq_false_iff]
      intro hseparates
      rw [advance, if_pos hseparates] at hnext
      cases hnext
    rw [List.cons_append, split, hseparates, if_neg Bool.false_ne_true, hnext, Option.bind_some,
      ih hrest, Option.map_map]
    congr 1
    funext pieces
    cases pieces <;> rfl

/-- A member before a comma. -/
theorem split_append_comma {cs : List Char} (h : start.run cs = some start) (ds : List Char) :
    start.split (cs ++ ',' :: ds) = (start.split ds).map (cs :: ·) := by
  have hcomma : start.split (',' :: ds) = (start.split ds).map ([] :: ·) := rfl
  rw [split_append h, hcomma, Option.map_map]
  congr 1
  funext pieces
  exact congrArg (· :: pieces) (List.append_nil cs)

/-- The last member. -/
theorem split_of_run {cs : List Char} (h : start.run cs = some start) :
    start.split cs = some [cs] := by
  have hnil : start.split [] = some [[]] := rfl
  rw [← List.append_nil cs, split_append h, hnil]
  rfl

/-- A comma between the members of a type list. -/
theorem run_comma (lists : Nat) :
    (outside 0 (lists + 1)).run [',', ' '] = some (outside 0 (lists + 1)) := by
  have hseparates : (outside 0 (lists + 1)).separates ',' = false := by
    simp [separates, outside]
  rw [run_cons, advance, hseparates]
  rfl

end Cursor

/-! ## Text without commas of its own -/

/-- Text that is gone over outside of everything. It ends there, and type lists that were about
to open are open. -/
def Fluent (cs : List Char) : Prop :=
  ∀ pending lists,
    (Cursor.outside pending lists).run cs = some (Cursor.outside 0 (lists + pending))

/-- Text that is gone over outside of everything, unless type lists are about to open. -/
def Steady (cs : List Char) : Prop :=
  ∀ lists, (Cursor.outside 0 lists).run cs = some (Cursor.outside 0 lists)

/-- Text that can be a member of a list. -/
def Undivided (cs : List Char) : Prop :=
  Cursor.start.run cs = some Cursor.start

section

variable {cs ds : List Char}

/-- What is gone over wherever it stands is gone over where no list is about to open. -/
theorem Fluent.steady (h : Fluent cs) : Steady cs :=
  h 0

/-- What is gone over in lists is gone over outside of them. -/
theorem Steady.undivided (h : Steady cs) : Undivided cs :=
  h 0

/-- What is gone over wherever it stands can be a member. -/
theorem Fluent.undivided (h : Fluent cs) : Undivided cs :=
  h.steady.undivided

/-- Two steady texts, one after the other. -/
theorem Steady.append (h : Steady cs) (h' : Steady ds) : Steady (cs ++ ds) := by
  intro lists
  rw [Cursor.run_append_of_eq (h lists)]
  exact h' lists

/-- After a fluent text no list is about to open, so a steady one may follow. -/
theorem Fluent.append (h : Fluent cs) (h' : Steady ds) : Fluent (cs ++ ds) := by
  intro pending lists
  rw [Cursor.run_append_of_eq (h pending lists)]
  exact h' (lists + pending)

/-- Two undivided texts, one after the other. -/
theorem Undivided.append (h : Undivided cs) (h' : Undivided ds) : Undivided (cs ++ ds) := by
  rw [Undivided, Cursor.run_append_of_eq h]
  exact h'

/-- Nothing is steady. -/
theorem Steady.nil : Steady [] :=
  fun _ => rfl

/-- A space is steady. -/
theorem steady_space : Steady [' '] :=
  fun _ => rfl

/-! ### Characters -/

/-- Commas and the characters that have a part in type lists. -/
def separators : List Char :=
  [',', '<', '>', '=', ' ']

/-- Characters that have no part in type lists, and are no commas. -/
def isOrdinary (x : Char) : Bool :=
  !separators.contains x

/-- Characters that mean nothing outside of strings and comments. -/
def isQuiet (x : Char) : Bool :=
  isInert x && isOrdinary x

/-- An ordinary character opens the type lists that are about to open. -/
theorem advance_of_isOrdinary {x : Char} {r : Reader} (h : isOrdinary x = true)
    (hstep : Reader.stepCode [] x = some r) (pending lists : Nat) :
    (Cursor.outside pending lists).advance x = some ⟨r, 0, false, lists + pending⟩ := by
  rw [isOrdinary, Bool.not_eq_true', ← Bool.not_eq_true, List.contains_iff_mem] at h
  simp only [separators, List.mem_cons, List.not_mem_nil, or_false, not_or] at h
  obtain ⟨hcomma, hless, hgreater, hequals, hspace⟩ := h
  have hreader : (Cursor.outside pending lists).reader.step x = some r := hstep
  have hlists : (Cursor.outside pending lists).listsAfter x = lists + pending := by
    simp [Cursor.listsAfter, Cursor.outside, hless, hgreater, hequals, hspace]
  have hseparates : (Cursor.outside pending lists).separates x = false := by
    simp [Cursor.separates, hcomma]
  have houtside : (Cursor.outside pending lists).isOutside = true := rfl
  rw [Cursor.advance, hseparates, if_neg Bool.false_ne_true, hreader, Option.map_some, houtside,
    if_pos rfl, hlists]
  simp [hless, hequals]

/-- Quiet characters are fluent, at least one of them. -/
theorem Fluent.of_isQuiet (hne : cs ≠ []) (h : cs.all isQuiet = true) : Fluent cs := by
  induction cs with
  | nil => exact absurd rfl hne
  | cons x cs ih =>
    rw [List.all_cons, Bool.and_eq_true, isQuiet, Bool.and_eq_true] at h
    obtain ⟨⟨hinert, hordinary⟩, hrest⟩ := h
    have hsteady : Steady cs := by
      by_cases hcs : cs = []
      · exact hcs ▸ .nil
      · exact (ih hcs hrest).steady
    intro pending lists
    rw [Cursor.run_cons, advance_of_isOrdinary hordinary (stepCode_of_isInert hinert [])]
    exact hsteady (lists + pending)

/-- Inside of something a cursor only keeps up with its reader. -/
theorem advance_of_inside {c : Cursor} (h : c.isOutside = false) (x : Char) :
    c.advance x = (c.reader.step x).map fun reader => { c with reader } := by
  have hseparates : c.separates x = false := by
    rw [Cursor.separates, h, Bool.false_and, Bool.false_and]
  rw [Cursor.advance, hseparates, h]
  simp only [Bool.false_eq_true, if_false]

/-! ### Brackets -/

namespace Reader

/-- A reader that waits for more brackets further out. -/
def under (r : Reader) (outer : List Char) : Reader :=
  ⟨r.context, r.awaited ++ outer⟩

/-- Brackets around a text do not change how it is gone over. -/
theorem stepCode_append {awaited : List Char} {x : Char} {r : Reader}
    (h : stepCode awaited x = some r) (outer : List Char) :
    stepCode (awaited ++ outer) x = some (r.under outer) := by
  rw [stepCode] at h ⊢
  split at h
  case h_1 => exact congrArg _ (congrArg (under · outer) (Option.some.inj h))
  case h_2 =>
    have hhead : awaited.head? = some x → (awaited ++ outer).head? = some x ∧
        (awaited ++ outer).tail = awaited.tail ++ outer := by
      cases awaited with
      | nil => exact fun h => absurd h (Option.some_ne_none x).symm
      | cons c awaited => exact fun h => ⟨h, rfl⟩
    split_ifs at h ⊢ with hquote hslash hclosing houter hinner hinner
    · exact congrArg _ (congrArg (under · outer) (Option.some.inj h))
    · exact congrArg _ (congrArg (under · outer) (Option.some.inj h))
    · rw [(hhead hinner).2]
      exact congrArg _ (congrArg (under · outer) (Option.some.inj h))
    · exact absurd (hhead hinner).1 houter
    · exact congrArg _ (congrArg (under · outer) (Option.some.inj h))

/-- Brackets further out make no difference. -/
theorem step_under {r r' : Reader} {x : Char} (h : r.step x = some r') (outer : List Char) :
    (r.under outer).step x = some (r'.under outer) := by
  obtain ⟨context, awaited⟩ := r
  cases context with
  | code => exact stepCode_append h outer
  | slash =>
    simp only [step, under] at h ⊢
    split_ifs at h ⊢
    · exact congrArg _ (congrArg (under · outer) (Option.some.inj h))
    · exact stepCode_append h outer
  | _ =>
    simp only [step, under] at h ⊢
    split_ifs at h ⊢ <;> exact congrArg _ (congrArg (under · outer) (Option.some.inj h))

end Reader

/-- A cursor in brackets goes as far as the reader that does not know of them. -/
theorem run_under {r r' : Reader} {d : Char} (h : r.scan cs = some r') (lists : Nat) :
    (⟨r.under [d], 0, false, lists⟩ : Cursor).run cs = some ⟨r'.under [d], 0, false, lists⟩ := by
  induction cs generalizing r with
  | nil =>
    obtain rfl := Option.some.inj h
    rfl
  | cons x cs ih =>
    obtain ⟨next, hnext, hrest⟩ := Option.bind_eq_some_iff.mp h
    have houtside : (⟨r.under [d], 0, false, lists⟩ : Cursor).isOutside = false := by
      simp [Cursor.isOutside, Reader.under]
    rw [Cursor.run_cons, advance_of_inside houtside, Reader.step_under hnext]
    exact ih hrest

/-- What is in brackets has no comma of its own. -/
theorem Fluent.bracketed {c d : Char} (hpair : closing? c = some d) (h : SelfContained cs) :
    Fluent (c :: (cs ++ [d])) := by
  intro pending lists
  have hordinary : isOrdinary c = true := by
    unfold closing? at hpair
    split at hpair
    case h_4 => exact absurd hpair (Option.some_ne_none d).symm
    all_goals rfl
  have hopen : Reader.stepCode [] c = some ⟨.code, [d]⟩ := by
    rw [Reader.stepCode, hpair]
  have hclose : (⟨⟨.code, [d]⟩, 0, false, lists + pending⟩ : Cursor).run [d] =
      some (Cursor.outside 0 (lists + pending)) := by
    unfold closing? at hpair
    split at hpair
    case h_4 => exact absurd hpair (Option.some_ne_none d).symm
    all_goals
      rw [← Option.some.inj hpair]
      rfl
  have hinside : (⟨⟨.code, [d]⟩, 0, false, lists + pending⟩ : Cursor).run cs =
      some ⟨⟨.code, [d]⟩, 0, false, lists + pending⟩ := run_under (h []) (lists + pending)
  rw [Cursor.run_cons, advance_of_isOrdinary hordinary hopen, Option.bind_some,
    Cursor.run_append_of_eq hinside, hclose]

/-! ### Strings -/

/-- No escape leaves its string. -/
theorem run_escapeForm {x : Char} {next : Option Char} {text : List Char}
    (h : EscapeForm x next text) (lists : Nat) :
    (⟨⟨.string, []⟩, 0, false, lists⟩ : Cursor).run text =
      some ⟨⟨.string, []⟩, 0, false, lists⟩ := by
  have hplain : ∀ {x : Char}, IsPlain x →
      (⟨⟨.string, []⟩, 0, false, lists⟩ : Cursor).advance x =
        some ⟨⟨.string, []⟩, 0, false, lists⟩ := fun h => by
    rw [advance_of_inside rfl, Reader.step_string h]
    rfl
  cases h with
  | letter l hletter hvalue =>
      rcases of_mem_shortEscapes hletter with ⟨-, -, hline, -⟩
      have hopen : (⟨⟨.string, []⟩, 0, false, lists⟩ : Cursor).run ['\\'] =
          some ⟨⟨.escape, []⟩, 0, false, lists⟩ := rfl
      refine (Cursor.run_append_of_eq hopen [l]).trans ?_
      rw [Cursor.run_cons, advance_of_inside rfl, Reader.step_escape hline]
      rfl
  | nul => rfl
  | two n hcontrol hvalue =>
      have hopen : (⟨⟨.string, []⟩, 0, false, lists⟩ : Cursor).run ['\\', 'x'] =
          some ⟨⟨.string, []⟩, 0, false, lists⟩ := rfl
      refine (Cursor.run_append_of_eq hopen _).trans ?_
      rw [Cursor.run_cons, hplain (isPlain_upperHexDigit _ (by omega)), Option.bind_some,
        Cursor.run_cons, hplain (isPlain_upperHexDigit _ (by omega))]
      rfl
  | four d hdigit hvalue =>
      have hopen : (⟨⟨.string, []⟩, 0, false, lists⟩ : Cursor).run ['\\', 'u', '2', '0', '2'] =
          some ⟨⟨.string, []⟩, 0, false, lists⟩ := rfl
      refine (Cursor.run_append_of_eq hopen _).trans ?_
      rw [Cursor.run_cons, hplain (isPlain_of_mem hdigit)]
      rfl
  | plain h =>
      rw [Cursor.run_cons, hplain h]
      rfl

/-- Escaped text does not lead out of its string. -/
theorem run_escapeText (cs : List Char) (lists : Nat) :
    (⟨⟨.string, []⟩, 0, false, lists⟩ : Cursor).run (escapeText cs) =
      some ⟨⟨.string, []⟩, 0, false, lists⟩ := by
  fun_induction escapeText cs with
  | case1 => rfl
  | case2 cs ih => exact ih
  | case3 c cs _ ih =>
      rw [Cursor.run_append_of_eq (run_escapeForm (escapeForm_escapeChar c _) lists)]
      exact ih

/-- A literal is gone over to its closing quote. -/
theorem Fluent.stringLiteral (value : String) : Fluent (stringLiteral value).toList := by
  intro pending lists
  have htext : (EcmaWriter.stringLiteral value).toList =
      '"' :: (escapeText value.toList ++ ['"']) := by
    simp [EcmaWriter.stringLiteral]
  have hopen : Reader.stepCode [] '"' = some ⟨.string, []⟩ := rfl
  rw [htext, Cursor.run_cons, advance_of_isOrdinary (by decide) hopen, Option.bind_some,
    Cursor.run_append_of_eq (run_escapeText _ _)]
  rfl

end

/-! ## Reading members -/

/-- What a member of an object literal does. -/
inductive MemberReading
  /-- Define an own property with a known name. -/
  | own (key : String) (value : List Char)
  /-- Set the prototype. -/
  | prototype (value : List Char)
  /-- Define an own property with a computed name. -/
  | computed (key value : List Char)
  /-- Copy the properties of a value. -/
  | spread (value : List Char)
deriving DecidableEq

/-- Whether a member sets the prototype. -/
def MemberReading.isPrototype : MemberReading → Bool
  | prototype _ => true
  | _ => false

namespace ObjectLiteral

/-- Whether a character is a space. -/
def isSpace (c : Char) : Bool :=
  c = ' '

/-- Text without the spaces around it. -/
def trim (cs : List Char) : List Char :=
  (cs.dropWhile isSpace).rdropWhile isSpace

/-- The text up to where a reader is outside of everything, and the text after it. -/
def readGroup (r : Reader) : List Char → Option (List Char × List Char)
  | [] => none
  | x :: cs =>
    (r.step x).bind fun r =>
      if r = Reader.start then some ([], cs)
      else (readGroup r cs).map fun (inside, rest) => (x :: inside, rest)

/-- The value after a colon. -/
def readValue (cs : List Char) : Option (List Char) :=
  match cs.dropWhile isSpace with
  | ':' :: value => some (trim value)
  | _ => none

/-- A property with a name and a value that are written with a colon. -/
def named (key : String) (value : List Char) : MemberReading :=
  if key = "__proto__" then .prototype value else .own key value

/-- Read a member that starts with a name. -/
def readNamed (cs : List Char) : Option MemberReading :=
  let name := String.ofList (cs.takeWhile isWordPart)
  let rest := cs.dropWhile isWordPart
  if cs.head?.any isWordStart = false then none
  else if rest.all isSpace then
    if isReference name then some (.own name name.toList) else none
  else (readValue rest).map (named name)

/-- Read a member. -/
def readMember (cs : List Char) : Option MemberReading :=
  match cs.dropWhile isSpace with
  | '.' :: '.' :: '.' :: value => some (.spread (trim value))
  | '[' :: rest => do
    let (key, rest) ← readGroup ⟨.code, [']']⟩ rest
    return .computed (trim key) (← readValue rest)
  | '"' :: rest => do
    let (key, rest) ← readCharacters '"' rest
    return named (String.ofList key) (← readValue rest)
  | cs => readNamed cs

/-- Read an object literal. The prototype may be set once. -/
def read (cs : List Char) : Option (List MemberReading) :=
  match cs with
  | '\x7b' :: rest =>
    if rest.getLast? = some '\x7d' then
      if rest.dropLast.all isSpace then some []
      else do
        let members ← (← Cursor.start.split rest.dropLast).mapM readMember
        if (members.filter MemberReading.isPrototype).length ≤ 1 then some members else none
    else none
  | _ => none

/-! ### Blanks -/

section

variable {cs after : List Char}

/-- White space at the end is trimmed. -/
theorem trim_append (cs : List Char) (h : after.all isSpace = true) :
    trim (cs ++ after) = trim cs := by
  rw [List.all_eq_true] at h
  rw [trim, trim, List.dropWhile_append]
  split
  · rename_i hempty
    rw [List.isEmpty_iff.mp hempty, List.dropWhile_eq_nil_iff.mpr h]
  · have hreverse : ∀ c ∈ after.reverse, isSpace c = true :=
      fun c hc => h c (List.mem_reverse.mp hc)
    rw [List.rdropWhile, List.reverse_append, List.dropWhile_append_of_pos hreverse]
    rfl

/-- Text without white space stays as it is. -/
theorem trim_eq_self (h : ∀ c ∈ cs, isSpace c = false) : trim cs = cs := by
  have hstart : cs.dropWhile isSpace = cs := by
    cases cs with
    | nil => rfl
    | cons c cs => exact List.dropWhile_cons_of_neg (by simp [h c List.mem_cons_self])
  rw [trim, hstart, List.rdropWhile_eq_self_iff]
  intro hne
  simp [h _ (List.getLast_mem hne)]

/-- A space before a member does not matter. -/
theorem readMember_space (cs : List Char) : readMember (' ' :: cs) = readMember cs := rfl

/-- There is no member without a character. -/
theorem readMember_of_all_isSpace (h : cs.all isSpace = true) : readMember cs = none := by
  rw [readMember, List.dropWhile_eq_nil_iff.mpr (List.all_eq_true.mp h)]
  rfl

/-- A value after a colon and a space. -/
theorem readValue_colon (value : List Char) (h : after.all isSpace = true) :
    readValue (':' :: ' ' :: (value ++ after)) = some (trim value) := by
  have hvalue : readValue (':' :: ' ' :: (value ++ after)) = some (trim (value ++ after)) := rfl
  rw [hvalue, trim_append value h]

/-! ### Members -/

/-- Three points before an expression are a spread. -/
theorem readMember_spread (value : List Char) (h : after.all isSpace = true) :
    readMember ('.' :: '.' :: '.' :: (value ++ after)) = some (.spread (trim value)) := by
  have hvalue : readMember ('.' :: '.' :: '.' :: (value ++ after)) =
      some (.spread (trim (value ++ after))) := rfl
  rw [hvalue, trim_append value h]

/-- What is in brackets is read to the bracket that closes it. -/
theorem readGroup_append {r r' : Reader} {d : Char} (h : r.scan cs = some r')
    (rest : List Char) : readGroup (r.under [d]) (cs ++ rest) =
      (readGroup (r'.under [d]) rest).map fun (inside, rest) => (cs ++ inside, rest) := by
  induction cs generalizing r with
  | nil =>
    obtain rfl := Option.some.inj h
    rw [List.nil_append]
    cases readGroup (r.under [d]) rest <;> rfl
  | cons x cs ih =>
    obtain ⟨next, hnext, hrest⟩ := Option.bind_eq_some_iff.mp h
    have hinside : next.under [d] ≠ Reader.start := by
      simp [Reader.under, Reader.start]
    rw [List.cons_append, readGroup, Reader.step_under hnext, Option.bind_some, if_neg hinside,
      ih hrest, Option.map_map]
    rfl

/-- A key in square brackets is an expression. -/
theorem readMember_computed {key : List Char} (hkey : SelfContained key) (value : List Char)
    (h : after.all isSpace = true) :
    readMember ('[' :: (key ++ ']' :: ':' :: ' ' :: (value ++ after))) =
      some (.computed (trim key) (trim value)) := by
  have hgroup : readGroup ⟨.code, [']']⟩ (key ++ ']' :: ':' :: ' ' :: (value ++ after)) =
      some (key ++ [], ':' :: ' ' :: (value ++ after)) :=
    readGroup_append (hkey []) (']' :: ':' :: ' ' :: (value ++ after))
  have hread : readMember ('[' :: (key ++ ']' :: ':' :: ' ' :: (value ++ after))) =
      (readGroup ⟨.code, [']']⟩ (key ++ ']' :: ':' :: ' ' :: (value ++ after))).bind fun pair =>
        (readValue pair.2).bind fun value => some (.computed (trim pair.1) value) := rfl
  rw [hread, hgroup, Option.bind_some, readValue_colon value h, List.append_nil]
  rfl

/-- A key in quotes is what the literal stands for. -/
theorem readMember_quoted (key : String) (value : List Char) (h : after.all isSpace = true) :
    readMember ((stringLiteral key).toList ++ ':' :: ' ' :: (value ++ after)) =
      some (named (Lexeme.readBack key) (trim value)) := by
  have htext : (stringLiteral key).toList ++ ':' :: ' ' :: (value ++ after) =
      '"' :: (escapeText key.toList ++ '"' :: ':' :: ' ' :: (value ++ after)) := by
    simp [stringLiteral]
  have hread : ∀ cs, readMember ('"' :: cs) = (readCharacters '"' cs).bind fun pair =>
      (readValue pair.2).bind fun value => some (named (String.ofList pair.1) value) :=
    fun _ => rfl
  rw [htext, hread, readCharacters_escapeText, Option.bind_some, readValue_colon value h]
  rfl

/-- A word is read up to what is no part of it. -/
theorem readMember_word {name : String} (hname : isPropertyName name = true) {rest : List Char}
    (hrest : rest.head?.any isWordPart = false) :
    readMember (name.toList ++ rest) =
      if rest.all isSpace then if isReference name then some (.own name name.toList) else none
      else (readValue rest).map (named name) := by
  rw [isPropertyName] at hname
  cases hcs : name.toList with
  | nil =>
    rw [hcs] at hname
    exact absurd hname Bool.false_ne_true
  | cons c cs =>
    rw [hcs, hasIdentifierShape, Bool.and_eq_true, List.all_eq_true] at hname
    have hstart : isWordStart c = true := hname.1
    have hpart : ∀ d ∈ c :: cs, isWordPart d = true := by
      refine List.forall_mem_cons.mpr ⟨?_, hname.2⟩
      simp only [isWordStart, isWordPart, Char.isAlphanum, Bool.or_eq_true] at hstart ⊢
      tauto
    obtain ⟨htake, hdrop⟩ := takeWhile_run hpart hrest
    have hnot : ∀ d, isWordStart d = false → c ≠ d := by
      rintro d hd rfl
      exact Bool.false_ne_true (hd.symm.trans hstart)
    have hspace : (c :: cs ++ rest).dropWhile isSpace = c :: cs ++ rest :=
      List.dropWhile_cons_of_neg (by simpa [isSpace] using hnot ' ' (by decide))
    have hread : readMember (c :: cs ++ rest) = readNamed (c :: cs ++ rest) := by
      rw [readMember, hspace]
      split
      · exact absurd (List.cons.inj ‹_›).1 (hnot '.' (by decide))
      · exact absurd (List.cons.inj ‹_›).1 (hnot '[' (by decide))
      · exact absurd (List.cons.inj ‹_›).1 (hnot '"' (by decide))
      · rfl
    have hhead : ¬ (c :: cs ++ rest).head?.any isWordStart = false := by
      simpa using hstart
    rw [hread, readNamed, htake, hdrop, if_neg hhead, ← hcs, String.ofList_toList]

/-- A bare key is its name. -/
theorem readMember_bare {key : String} (hkey : isPropertyName key = true) (value : List Char)
    (h : after.all isSpace = true) :
    readMember (key.toList ++ ':' :: ' ' :: (value ++ after)) =
      some (named key (trim value)) := by
  have hcolon : (':' :: ' ' :: (value ++ after)).all isSpace = false := rfl
  rw [readMember_word hkey rfl, hcolon, if_neg Bool.false_ne_true, readValue_colon value h]
  rfl

/-- A name by itself is the key and the value. -/
theorem readMember_shorthand {name : String} (hname : isPropertyName name = true)
    (hreference : isReference name = true) (h : after.all isSpace = true) :
    readMember (name.toList ++ after) = some (.own name name.toList) := by
  have hafter : after.head?.any isWordPart = false := by
    cases after with
    | nil => rfl
    | cons c after =>
      rw [List.all_cons, Bool.and_eq_true, isSpace, decide_eq_true_iff] at h
      exact h.1 ▸ rfl
  rw [readMember_word hname hafter, if_pos h, if_pos hreference]

end

end ObjectLiteral

end EcmaWriter
