import EcmaWriter.Proofs.Identifier.Enumeration
import EcmaWriter.Proofs.Identifier.Search
import EcmaWriter.Tree.OfJson

/-!
# EcmaWriter - Identifiers are legal names

A text is made into an identifier in three steps, each of which could undo what another has
done.  None does: a reserved word has no underscore and starts with a letter, so the first two
steps neither make a reserved word nor change one, and the third only adds at the end.

Main results:

- Theorem `Identifier.toList_text_ofString`: the identifier of a text, character by character.
- Theorem `Identifier.ofString_legal`: wherever identifiers come from, they are legal names.
-/

namespace EcmaWriter.Identifier

/-! ## Characters -/

/-- Put an underscore for every character that is illegal in an identifier. -/
def replaceIllegal (cs : List Char) : List Char :=
  cs.map fun c => if isIdentifierPart c then c else '_'

/-- Whether a name is empty or starts with a digit. -/
def lacksStart (cs : List Char) : Bool :=
  cs.head?.all Char.isDigit

theorem isIdentifierPart_of_isDigit {c : Char} (h : c.isDigit = true) :
    isIdentifierPart c = true := by
  have hpart : isIdentifierPart c = ((c.isAlpha || c.isDigit) || c == '_' || c == '$') := rfl
  rw [hpart, h, Bool.or_true]
  rfl

theorem isIdentifierPart_of_isIdentifierStart {c : Char} (h : isIdentifierStart c = true) :
    isIdentifierPart c = true ∧ c.isDigit = false := by
  have hletter : ∀ i < 52, isIdentifierPart (candidateChar i) = true ∧
      (candidateChar i).isDigit = false := by decide
  rw [isIdentifierStart, Bool.or_eq_true, Bool.or_eq_true, beq_iff_eq, beq_iff_eq] at h
  rcases h with (halpha | rfl) | rfl
  · obtain ⟨i, hi, rfl⟩ := exists_candidateChar_of_isAlpha halpha
    exact hletter i hi
  · decide
  · decide

/-! ## Replacing and putting in front -/

/-- The characters are replaced one by one, and only a missing start puts one more in front. -/
theorem legalize_eq (cs : List Char) :
    legalize cs = (if lacksStart cs then ['_'] else []) ++ replaceIllegal cs := by
  cases cs with
  | nil => rfl
  | cons c cs =>
      have hstart : lacksStart (c :: cs) = c.isDigit := rfl
      have hlegalize : legalize (c :: cs) =
          if (if isIdentifierPart c then c else '_').isDigit then '_' :: replaceIllegal (c :: cs)
          else replaceIllegal (c :: cs) := rfl
      have hdigit : (if isIdentifierPart c then c else '_').isDigit = c.isDigit := by
        cases hpart : isIdentifierPart c with
        | true => rw [if_pos rfl]
        | false =>
            rw [if_neg Bool.false_ne_true]
            cases hc : c.isDigit with
            | true =>
                rw [isIdentifierPart_of_isDigit hc] at hpart
                exact hpart.symm
            | false => rfl
      rw [hlegalize, hdigit, hstart]
      cases c.isDigit <;> rfl

theorem replaceIllegal_eq_self {cs : List Char} (h : ∀ c ∈ cs, isIdentifierPart c = true) :
    replaceIllegal cs = cs :=
  (List.map_congr_left fun c hc => if_pos (h c hc)).trans (List.map_id' cs)

/-- Without an underscore in the outcome, nothing has been replaced. -/
theorem replaceIllegal_of_not_mem {cs : List Char} (h : '_' ∉ replaceIllegal cs) :
    replaceIllegal cs = cs := by
  refine replaceIllegal_eq_self fun c hc => ?_
  by_contra hpart
  have hmem : '_' ∈ replaceIllegal cs := List.mem_map.mpr ⟨c, hc, if_neg hpart⟩
  exact h hmem

/-- A name of the right shape stays as it is. -/
theorem legalize_of_hasIdentifierShape {cs : List Char} (h : hasIdentifierShape cs = true) :
    lacksStart cs = false ∧ replaceIllegal cs = cs := by
  cases cs with
  | nil => exact absurd h Bool.false_ne_true
  | cons c cs =>
      rw [hasIdentifierShape, Bool.and_eq_true, List.all_eq_true] at h
      obtain ⟨hpart, hdigit⟩ := isIdentifierPart_of_isIdentifierStart h.1
      exact ⟨hdigit, replaceIllegal_eq_self (List.forall_mem_cons.mpr ⟨hpart, h.2⟩)⟩

/-- No reserved word has an underscore, and all of them have the shape of an identifier. -/
theorem facts_of_isReservedWord {text : String} (h : isReservedWord text = true) :
    '_' ∉ text.toList ∧ hasIdentifierShape text.toList = true := by
  have hall : ∀ word ∈ reservedWords,
      '_' ∉ word.toList ∧ hasIdentifierShape word.toList = true := by decide
  exact hall text (List.contains_iff_mem.mp h)

/-- A reserved word comes from itself only. -/
theorem isReservedWord_legalize (raw : String) :
    isReservedWord (String.ofList (legalize raw.toList)) = isReservedWord raw := by
  rw [Bool.eq_iff_iff]
  constructor
  · intro h
    have hnone := (facts_of_isReservedWord h).1
    rw [String.toList_ofList, legalize_eq, List.mem_append, not_or] at hnone
    have hstart : lacksStart raw.toList = false := by
      cases hlacks : lacksStart raw.toList with
      | true =>
          rw [hlacks, if_pos rfl] at hnone
          exact absurd List.mem_cons_self hnone.1
      | false => rfl
    rwa [legalize_eq, hstart, if_neg Bool.false_ne_true, List.nil_append,
      replaceIllegal_of_not_mem hnone.2, String.ofList_toList] at h
  · intro h
    obtain ⟨hstart, hsame⟩ := legalize_of_hasIdentifierShape (facts_of_isReservedWord h).2
    rwa [legalize_eq, hstart, if_neg Bool.false_ne_true, List.nil_append, hsame,
      String.ofList_toList]

/-! ## The identifier of a text -/

/-- The identifier of a text has its characters, the illegal ones replaced, and one underscore
more in front where the start is missing and at the end of a reserved word. -/
theorem toList_text_ofString (raw : String) :
    (ofString raw).text.toList = (if lacksStart raw.toList then ['_'] else []) ++
      replaceIllegal raw.toList ++ (if isReservedWord raw then ['_'] else []) := by
  by_cases hbare : isBareName raw = true
  · have hparts := hbare
    rw [isBareName, Bool.and_eq_true, Bool.not_eq_true'] at hparts
    obtain ⟨hstart, hsame⟩ := legalize_of_hasIdentifierShape hparts.1
    rw [text_ofString hbare, hstart, hsame, hparts.2, if_neg Bool.false_ne_true,
      List.nil_append, List.append_nil]
  · rw [← legalize_eq, ← isReservedWord_legalize, ofString, dif_neg hbare]
    by_cases hreserved : isReservedWord (String.ofList (legalize raw.toList)) = true
    · rw [dif_pos hreserved, if_pos hreserved, String.toList_ofList]
    · rw [dif_neg hreserved, if_neg hreserved, String.toList_ofList, List.append_nil]

/-- A text is kept exactly if it is a legal name. -/
theorem text_ofString_eq_iff (raw : String) :
    (ofString raw).text = raw ↔ isBareName raw = true := by
  constructor
  · intro h
    rw [← h]
    exact (ofString raw).isBare
  · exact text_ofString

/-! ## Identifiers in trees -/

theorem refuse_ne_ok {α : Type} (v : Draft) (expected : Expected) (a : α) :
    v.refuse expected ≠ .ok a := by
  rw [Draft.refuse]
  cases v.found <;> exact nofun

theorem string_eq_ok {s : Standing} {v : Draft} {text : String}
    (h : Decoder.string s v = .ok text) : v = .string (some text) := by
  cases v with
  | string found =>
      cases found with
      | some found => rw [Except.ok.inj h]
      | none => exact absurd h (refuse_ne_ok _ _ _)
  | _ => exact absurd h (refuse_ne_ok _ _ _)

/-- Identifiers are read from strings, each made into a legal name. -/
theorem decoder_eq_ok_iff {s : Standing} {v : Draft} {name : Identifier} :
    decoder s v = .ok name ↔ ∃ text, v = .string (some text) ∧ name = ofString text := by
  constructor
  · intro h
    rw [decoder, Decoder.map] at h
    cases hstring : Decoder.string s v with
    | error fault =>
        rw [hstring] at h
        exact nomatch h
    | ok text =>
        rw [hstring] at h
        exact ⟨text, string_eq_ok hstring, (Except.ok.inj h).symm⟩
  · rintro ⟨text, rfl, rfl⟩
    rfl

/-- The identifier of any text is a legal name.  It is the text itself exactly if that is a
legal name, and otherwise the text with each illegal character replaced by an underscore, one
for one, and at most one more in front and one more at the end; to make an identifier of it
again changes nothing.  So all identifiers are legal names, those that are read from JSON too,
and so are the names that searches for free names find, as they stand. -/
theorem ofString_legal :
    (∀ raw : String, isBareName (ofString raw).text = true ∧
      ((ofString raw).text = raw ↔ isBareName raw = true) ∧
      ofString (ofString raw).text = ofString raw ∧
      (ofString raw).text.toList = (if lacksStart raw.toList then ['_'] else []) ++
        replaceIllegal raw.toList ++ (if isReservedWord raw then ['_'] else [])) ∧
      (∀ name : Identifier, EcmaWriter.isPropertyName name.text = true ∧
        isReservedWord name.text = false ∧ ofString name.text = name) ∧
      (∀ s v name, decoder s v = .ok name ↔
        ∃ text, v = .string (some text) ∧ name = ofString text) ∧
      ∀ inUse c found, Candidate.Finds inUse c found →
        EcmaWriter.isPropertyName found.1 = true ∧ isReservedWord found.1 = false := by
  have hparts : ∀ text, isBareName text = true →
      EcmaWriter.isPropertyName text = true ∧ isReservedWord text = false := by
    intro text h
    rwa [isBareName, Bool.and_eq_true, Bool.not_eq_true'] at h
  refine ⟨?_, ?_, fun s v name => decoder_eq_ok_iff, ?_⟩
  · intro raw
    exact ⟨(ofString raw).isBare, text_ofString_eq_iff raw, ofString_text _,
      toList_text_ofString raw⟩
  · intro name
    obtain ⟨hproperty, hreserved⟩ := hparts name.text name.isBare
    exact ⟨hproperty, hreserved, ofString_text name⟩
  · intro inUse c found h
    obtain ⟨k, hk, -, rfl⟩ := Candidate.finds_iff.mp h
    exact hparts k.text (Candidate.isBareName_text_of_isFree hk.free)

/-- A search that passes over a reserved word, and texts that need each of the three steps. -/
theorem ofString_legal_after_reserved_word :
    Candidate.Finds [] ⟨252⟩ ("dp", ⟨254⟩) ∧ isReservedWord "dp" = false ∧
      isReservedWord "do" = true ∧ (ofString "do").text.toList = ['d', 'o', '_'] ∧
      (ofString "1 é").text.toList = ['_', '1', '_', '_'] := by
  obtain ⟨hofString, -, -, hfinds⟩ := ofString_legal
  have hfound : Candidate.Finds [] ⟨252⟩ ("dp", ⟨254⟩) := by
    have hsecond : (Candidate.mk 253).text = "dp" := by decide +kernel
    exact .further (by decide) (by decide +kernel) (hsecond ▸ .here (by decide) (by decide +kernel))
  exact ⟨hfound, (hfinds _ _ _ hfound).2, by decide, (hofString "do").2.2.2.trans (by decide),
    (hofString "1 é").2.2.2.trans (by decide)⟩

end EcmaWriter.Identifier
