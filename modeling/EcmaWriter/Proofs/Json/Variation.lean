import EcmaWriter.Json.Decoder
import EcmaWriter.Proofs.Json.Compact
import Mathlib.Data.List.Forall2

/-!
# EcmaWriter - Variations of JSON forms

A tree may be given by values that differ from its JSON form.  The members of an object may
come in any order, among others whose keys have no meaning.  Fields may be left out if they
are `null` or have their default.  A record may be an array of its fields in the order of
declaration, and a choice between variants an array of name and contents.  All of this may
happen anywhere in a tree, independently.

A record is known by its fields, which tell which of them have a default.  An object whose
first key is `type` is a choice between variants.

Main results:

- Definition `Draft.IsOrdinary`: values that may stand for a key without a meaning.
- Definition `Json.Varies`: the variations of a JSON form.
- Theorem `Json.varies_draft`: a JSON form is a variation of itself.
-/

namespace EcmaWriter

namespace Draft

/-- Whether a value is ordinary JSON: complete, with a text for every string and a value for
every number. -/
inductive IsOrdinary : Draft → Prop
  | null : IsOrdinary .null
  | boolean (value : Bool) : IsOrdinary (.boolean value)
  | number {value : Numeral} (h : value.hasValue = true) : IsOrdinary (.number value)
  | string (text : String) : IsOrdinary (.string (some text))
  | array {items : List Draft} (h : ∀ v ∈ items, IsOrdinary v) : IsOrdinary (.array items true)
  | object {members : List (Option String × Draft)}
      (hkeys : ∀ member ∈ members, member.1.isSome = true)
      (hvalues : ∀ member ∈ members, IsOrdinary member.2) : IsOrdinary (.object members true)

end Draft

namespace Json

/-! ## What may be left out -/

/-- The fields that have a default, for each record that has such fields. -/
def defaultedFields : List (List String × List String) := [
  (["definitions", "statements"], ["definitions", "statements"]),
  (["export", "name", "type_parameters", "document", "ty"],
    ["export", "type_parameters", "document"]),
  (["export", "is_async", "name", "document", "type_parameters", "parameters", "return_type",
      "statements"],
    ["export", "is_async", "document", "type_parameters", "parameters", "statements"]),
  (["name", "document", "ty"], ["document"]),
  (["export", "name", "document", "ty", "expr"], ["export", "document"]),
  (["condition", "then_statements", "else_statements"], ["else_statements"]),
  (["is_async", "name", "type_parameters", "parameters", "return_type", "statements"],
    ["is_async", "type_parameters", "parameters"]),
  (["expr", "spread"], ["spread"]),
  (["is_async", "type_parameters", "parameters", "return_type", "statements"],
    ["is_async", "type_parameters", "parameters"]),
  (["expr", "arguments"], ["arguments"]),
  (["name", "required", "readonly", "ty", "document"], ["document"]),
  (["type_parameters", "parameters", "return_type"], ["type_parameters"]),
  (["name", "arguments"], ["arguments"])]

/-- Whether a value is an absent option. -/
def isNull : Json → Bool
  | .null => true
  | _ => false

/-- Whether a value is the default of the fields with values of its kind. -/
def isDefault : Json → Bool
  | .boolean value => !value
  | .string value => value.isEmpty
  | .array items => items.isEmpty
  | _ => false

/-- Whether an object with these keys is a choice between variants. -/
def isChoice (keys : List String) : Bool :=
  keys.head? == some "type"

/-- Whether a member of an object with these keys may be left out. -/
def mayBeLeftOut (keys : List String) (key : String) (value : Json) : Bool :=
  !isChoice keys &&
    (value.isNull ||
      ((defaultedFields.lookup keys).getD []).contains key && value.isDefault)

/-- The keys that have a meaning in an object with these keys. -/
def knownKeys (keys : List String) : List String :=
  if isChoice keys then ["type", "value"] else keys

/-- Whether a member has a key other than the known ones, and an ordinary value. -/
def IsUnknown (known : List String) (member : Option String × Draft) : Prop :=
  ∃ key v, member = (some key, v) ∧ key ∉ known ∧ v.IsOrdinary

theorem IsUnknown.mono {known fewer : List String} {member : Option String × Draft}
    (h : IsUnknown known member) (hfewer : fewer ⊆ known) : IsUnknown fewer member := by
  obtain ⟨key, v, heq, hkey, hv⟩ := h
  exact ⟨key, v, heq, fun hmem => hkey (hfewer hmem), hv⟩

/-! ## Variations -/

mutual

/-- The variations of a JSON form. -/
inductive Varies : Json → Draft → Prop
  | null : Varies .null .null
  | boolean (value : Bool) : Varies (.boolean value) (.boolean value)
  | number (value : Int) : Varies (.number value) (.number (.ofInt value))
  | string (value : String) : Varies (.string value) (.string (some value))
  | array {items : List Json} {vs : List Draft} (h : List.Forall₂ Varies items vs) :
      Varies (.array items) (.array vs true)
  /-- The members of an object in any order, among others. -/
  | object {members : List (String × Json)} {kept others written : List (Option String × Draft)}
      (hkept : KeptMembers (members.map Prod.fst) members kept)
      (hothers : ∀ member ∈ others, IsUnknown (knownKeys (members.map Prod.fst)) member)
      (hwritten : written.Perm (kept ++ others)) :
      Varies (.object members) (.object written true)
  /-- A record as an array. -/
  | record {members : List (String × Json)} {vs : List Draft}
      (hrecord : isChoice (members.map Prod.fst) = false)
      (hkept : KeptValues (members.map Prod.fst) members vs) :
      Varies (.object members) (.array vs true)
  /-- A variant without contents as an array. -/
  | bare (name : String) :
      Varies (.object [("type", .string name)]) (.array [.string (some name), .null] true)
  /-- A variant with contents as an array. -/
  | carrying (name : String) {contents : Json} {v : Draft} (h : Varies contents v) :
      Varies (.object [("type", .string name), ("value", contents)])
        (.array [.string (some name), v] true)

/-- The members of an object with some keys that are not left out. -/
inductive KeptMembers :
    List String → List (String × Json) → List (Option String × Draft) → Prop
  | nil {keys : List String} : KeptMembers keys [] []
  | keep {keys : List String} {key : String} {value : Json} {v : Draft}
      {members : List (String × Json)} {kept : List (Option String × Draft)}
      (hvalue : Varies value v) (hmembers : KeptMembers keys members kept) :
      KeptMembers keys ((key, value) :: members) ((some key, v) :: kept)
  | leave {keys : List String} {key : String} {value : Json}
      {members : List (String × Json)} {kept : List (Option String × Draft)}
      (hvalue : mayBeLeftOut keys key value = true) (hmembers : KeptMembers keys members kept) :
      KeptMembers keys ((key, value) :: members) kept

/-- The values of an object with some keys that are not left out, in the order of their
keys. Only those at the end may be left out. -/
inductive KeptValues : List String → List (String × Json) → List Draft → Prop
  | leave {keys : List String} {members : List (String × Json)}
      (h : ∀ member ∈ members, mayBeLeftOut keys member.1 member.2 = true) :
      KeptValues keys members []
  | keep {keys : List String} {key : String} {value : Json} {v : Draft}
      {members : List (String × Json)} {vs : List Draft} (hvalue : Varies value v)
      (hmembers : KeptValues keys members vs) :
      KeptValues keys ((key, value) :: members) (v :: vs)

end

mutual

/-- A JSON form is a variation of itself. -/
theorem varies_draft (j : Json) : j.Varies j.draft := by
  cases j with
  | null => exact .null
  | boolean value => exact .boolean value
  | number value => exact .number value
  | string value => exact .string value
  | array items => exact .array (forall₂_varies items)
  | object members =>
      refine .object (keptMembers_varies _ members) ?_ (.of_eq (List.append_nil _).symm)
      intro member hmember
      exact absurd hmember List.not_mem_nil

theorem forall₂_varies (items : List Json) : List.Forall₂ Varies items (itemDrafts items) := by
  cases items with
  | nil => exact .nil
  | cons item items => exact .cons (varies_draft item) (forall₂_varies items)

theorem keptMembers_varies (keys : List String) (members : List (String × Json)) :
    KeptMembers keys members (memberDrafts members) := by
  rcases members with _ | ⟨⟨key, value⟩, members⟩
  · exact .nil
  · exact .keep (varies_draft value) (keptMembers_varies keys members)

end

/-- The members that are kept have their keys. -/
theorem KeptMembers.exists_key {keys : List String} {members : List (String × Json)}
    {kept : List (Option String × Draft)} (h : KeptMembers keys members kept)
    {member : Option String × Draft} (hmember : member ∈ kept) :
    ∃ key ∈ members.map Prod.fst, member.1 = some key := by
  induction members generalizing kept with
  | nil =>
      cases h
      exact absurd hmember List.not_mem_nil
  | cons first members ih =>
      obtain _ | ⟨_, h⟩ | ⟨_, h⟩ := h
      · rcases List.mem_cons.mp hmember with rfl | hmember
        · exact ⟨_, List.mem_cons_self, rfl⟩
        · obtain ⟨key, hkey, heq⟩ := ih h hmember
          exact ⟨key, List.mem_cons_of_mem _ hkey, heq⟩
      · obtain ⟨key, hkey, heq⟩ := ih h hmember
        exact ⟨key, List.mem_cons_of_mem _ hkey, heq⟩

section

variable {members : List (String × Json)} {v : Draft}

/-- Every variation of a record is an object or an array of its fields. -/
theorem Varies.cases_record (h : (Json.object members).Varies v)
    (hrecord : isChoice (members.map Prod.fst) = false) :
    (∃ kept others written, v = .object written true ∧
        KeptMembers (members.map Prod.fst) members kept ∧
        (∀ member ∈ others, IsUnknown (members.map Prod.fst) member) ∧
        written.Perm (kept ++ others)) ∨
      ∃ vs, v = .array vs true ∧ KeptValues (members.map Prod.fst) members vs := by
  cases h with
  | object hkept hothers hwritten =>
      rw [knownKeys, hrecord] at hothers
      exact Or.inl ⟨_, _, _, rfl, hkept, hothers, hwritten⟩
  | record _ hvalues => exact Or.inr ⟨_, rfl, hvalues⟩
  | bare _ => contradiction
  | carrying _ _ => contradiction

/-- Every variation of a variant without contents has its name. -/
theorem Varies.cases_bare {name : String} (h : (Json.object [("type", .string name)]).Varies v) :
    (∃ others written, v = .object written true ∧
        (∀ member ∈ others, IsUnknown ["type", "value"] member) ∧
        written.Perm ([(some "type", .string (some name))] ++ others)) ∨
      v = .array [.string (some name), .null] true := by
  cases h with
  | record hrecord _ => contradiction
  | bare _ => exact Or.inr rfl
  | object hkept hothers hwritten =>
      obtain _ | ⟨hname, hkept⟩ | ⟨hleft, _⟩ := hkept
      · cases hname
        cases hkept
        exact Or.inl ⟨_, _, rfl, hothers, hwritten⟩
      · contradiction

/-- Every variation of a variant with contents has its name and a variation of them. -/
theorem Varies.cases_carrying {name : String} {contents : Json}
    (h : (Json.object [("type", .string name), ("value", contents)]).Varies v) :
    ∃ w, contents.Varies w ∧
      ((∃ others written, v = .object written true ∧
          (∀ member ∈ others, IsUnknown ["type", "value"] member) ∧
          written.Perm ([(some "type", .string (some name)), (some "value", w)] ++ others)) ∨
        v = .array [.string (some name), w] true) := by
  cases h with
  | record hrecord _ => contradiction
  | carrying _ hw => exact ⟨_, hw, Or.inr rfl⟩
  | object hkept hothers hwritten =>
      obtain _ | ⟨hname, hkept⟩ | ⟨hleft, _⟩ := hkept
      · obtain _ | ⟨hw, hkept⟩ | ⟨hleft, _⟩ := hkept
        · cases hname
          cases hkept
          exact ⟨_, hw, Or.inl ⟨_, _, rfl, hothers, hwritten⟩⟩
        · contradiction
      · contradiction

end

end Json

end EcmaWriter
