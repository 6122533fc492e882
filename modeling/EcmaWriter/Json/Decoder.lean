import EcmaWriter.Json.Draft
import EcmaWriter.Json.Fault

/-!
# EcmaWriter - Decoders

A decoder takes a draft to a value of some type and goes through the draft from
left to right, so that the first thing wrong with the text is what it reports.
Decoders for whole forms are built here from decoders for their parts:

- `Decoder.list`, `Decoder.option`: arrays and nullable values;
- `Decoder.choice`: one of several names;
- `Decoder.record`: named fields, as an object in any order or as an array in the
  order of declaration;
- `Decoder.tagged`: one of several variants, as an object with `type` and `value`
  or as an array of the two.

A tagged value whose `value` comes before its `type` is held back until the type
is known. All of a held-back value must be sound before any of it is decoded, and
decoding it differs from decoding the text in a few places, which is why a decoder
knows where it stands.

Main definitions:

- `Decoder`: decoders.
- `Decoder.run`: decode a draft.
- `Decoder.runText`: decode a text.
-/

namespace EcmaWriter

/-- Where a decoder stands: how many more arrays and objects may be entered, and
whether it reads a value that was held back. -/
structure Standing where
  room : Nat
  held : Bool

namespace Standing

/-- At the outermost value. Arrays and objects may nest 127 deep. -/
def outermost : Standing :=
  ⟨127, false⟩

/-- Enter an array or object. -/
def enter (s : Standing) : Except ReadFault Standing :=
  match s.room with
  | 0 => .error .malformed
  | room + 1 => .ok { s with room }

/-- Where a held-back value is decoded. -/
def hold (s : Standing) : Standing :=
  { s with held := true }

end Standing

/-- A way to read values of a type. -/
abbrev Decoder (α : Type) : Type :=
  Standing → Draft → Except ReadFault α

namespace Draft

/-- What a message says was found at a draft. -/
def found : Draft → Except ReadFault Found
  | .null => .ok .null
  | .boolean value => .ok (.boolean value)
  | .number (.integer value) => .ok (.integer value)
  | .number (.real negative significand exponent) =>
    match Numeral.float? negative significand exponent with
    | some value => .ok (.real value)
    | none => .error .malformed
  | .string (some text) => .ok (.string text)
  | .string none => .error .malformed
  | .array _ _ => .ok .sequence
  | .object _ _ => .ok .map
  | .keyless _ => .ok .map
  | .gap => .error .malformed

/-- The fault of a draft that is of another kind than expected. -/
def refuse {α : Type} (v : Draft) (expected : Expected) : Except ReadFault α := do
  .error (.data (.wrongType (← v.found) expected))

mutual

/-- Whether a value is sound throughout: complete, with every string and number
readable, and not nested deeper than there is room. -/
def isSound (room : Nat) : Draft → Bool
  | .number value => value.hasValue
  | .string text => text.isSome
  | .array items closed =>
    match room with
    | 0 => false
    | room + 1 => areSound room items && closed
  | .object members closed =>
    match room with
    | 0 => false
    | room + 1 => areMembersSound room members && closed
  | .keyless _ => false
  | .gap => false
  | _ => true

/-- Whether all items are sound. -/
def areSound (room : Nat) : List Draft → Bool
  | [] => true
  | v :: vs => v.isSound room && areSound room vs

/-- Whether all keys and values are sound. -/
def areMembersSound (room : Nat) : List (Option String × Draft) → Bool
  | [] => true
  | (key, v) :: members => key.isSome && v.isSound room && areMembersSound room members

end

end Draft

namespace Decoder

variable {α β : Type}

/-- Refuse what was found because of a fault in its form. -/
def fail (fault : DataFault) : Except ReadFault α :=
  .error (.data fault)

/-- Require that an array or object is closed where its contents end. -/
def requireClosed (closed : Bool) (value : α) : Except ReadFault α :=
  if closed then .ok value else .error .malformed

/-! ## Simple values -/

/-- A string. -/
def string : Decoder String
  | _, .string (some text) => .ok text
  | _, v => v.refuse .string

/-- A boolean. -/
def boolean : Decoder Bool
  | _, .boolean value => .ok value
  | _, v => v.refuse .boolean

/-- A whole number of 32 bits. -/
def integer32 : Decoder Int32
  | _, .number (.integer value) =>
    if Int32.minValue.toInt ≤ value ∧ value ≤ Int32.maxValue.toInt then .ok (Int32.ofInt value)
    else fail (.wrongValue (.integer value) .integer32)
  | _, v => v.refuse .integer32

/-- A value of which another is made. -/
def map (f : α → β) (d : Decoder α) : Decoder β :=
  fun s v => (d s v).map f

/-- A value or `null`. -/
def option (d : Decoder α) : Decoder (Option α)
  | _, .null => .ok none
  | s, v => (d s v).map some

/-! ## Arrays -/

/-- The items of an array, one after the other. -/
def items (d : Decoder α) (s : Standing) : List Draft → Except ReadFault (List α)
  | [] => .ok []
  | v :: vs => do
    let a ← d s v
    let as ← items d s vs
    return a :: as

/-- An array. -/
def list (d : Decoder α) : Decoder (List α)
  | s, .array vs closed => do
    let as ← items d (← s.enter) vs
    requireClosed closed as
  | _, v => v.refuse .sequence

/-! ## Names -/

/-- The value that a name stands for. -/
def named (options : List (String × α)) (name : String) : Except ReadFault α :=
  match options.lookup name with
  | some a => .ok a
  | none => fail (.unknownVariant name (options.map Prod.fst))

/-- The value after a name that stands alone. A held-back one may be empty in two
ways. -/
def nothing : Decoder Unit
  | _, .null => .ok ()
  | ⟨_, true⟩, .object [] _ => .ok ()
  | _, v => v.refuse .unit

/-- One of several names. The name is a string or the only key of an object, whose
value is then `null`. -/
def choice (options : List (String × α)) : Decoder α
  | _, .string (some name) => named options name
  | ⟨room, false⟩, .object ((some name, v) :: members) closed => do
    let s ← Standing.enter ⟨room, false⟩
    let a ← named options name
    nothing s v
    requireClosed (closed && members.isEmpty) a
  | ⟨room, false⟩, .keyless v => do
    let _ ← Standing.enter ⟨room, false⟩
    v.refuse .variantIdentifier
  | ⟨_, false⟩, _ => .error .malformed
  | s, .object [(some name, v)] _ => do
    let a ← named options name
    nothing s v
    return a
  | _, .object _ _ => fail (.wrongValue .map .singleKeyMap)
  | _, v => v.refuse .stringOrMap

/-! ## Records -/

/-- A field of a record. A field with a value for its absence may be left out. -/
structure Field (α : Type) where
  name : String
  decoder : Decoder α
  absent : Option α

/-- A field that must be there. -/
def required (name : String) (d : Decoder α) : Field α :=
  ⟨name, d, none⟩

/-- A field that has a default. -/
def defaulted (name : String) (d : Decoder α) (absent : α) : Field α :=
  ⟨name, d, some absent⟩

/-- A field that may be absent or `null`. -/
def optional (name : String) (d : Decoder α) : Field (Option α) :=
  ⟨name, option d, some none⟩

/-- The fields of a record, in the order of declaration. -/
inductive Fields : List Type → Type 1
  | nil : Fields []
  | cons {α : Type} {αs : List Type} (field : Field α) (fields : Fields αs) : Fields (α :: αs)

/-- The values of the fields of a record. -/
def Values : List Type → Type
  | [] => Unit
  | α :: αs => α × Values αs

/-- The values of fields as far as they were met. -/
def Slots : List Type → Type
  | [] => Unit
  | α :: αs => Option α × Slots αs

namespace Fields

/-- Number of fields. -/
def size {αs : List Type} : Fields αs → Nat
  | .nil => 0
  | .cons _ fields => fields.size + 1

/-- No field met yet. -/
def vacant {αs : List Type} : Fields αs → Slots αs
  | .nil => ()
  | .cons _ fields => (none, fields.vacant)

/-- Decode the value of a key, unless no field has that name. -/
def store {αs : List Type} (s : Standing) (key : String) (v : Draft) :
    Fields αs → Slots αs → Except ReadFault (Option (Slots αs))
  | .nil, _ => .ok none
  | .cons field fields, (slot, slots) =>
    if field.name = key then
      match slot with
      | some _ => fail (.duplicateField key)
      | none => do return some (some (← field.decoder s v), slots)
    else do return (← fields.store s key v slots).map ((slot, ·))

/-- Go through the members of an object. The value of an unknown key is skipped,
which needs it to be complete and no more. -/
def storeAll {αs : List Type} (fields : Fields αs) (s : Standing) :
    List (Option String × Draft) → Slots αs → Except ReadFault (Slots αs)
  | [], slots => .ok slots
  | (none, _) :: _, _ => .error .malformed
  | (some key, v) :: members, slots => do
    match ← fields.store s key v slots with
    | some slots => fields.storeAll s members slots
    | none => if v.isComplete then fields.storeAll s members slots else .error .malformed

/-- The values at the end of an object. -/
def settle {αs : List Type} : Fields αs → Slots αs → Except ReadFault (Values αs)
  | .nil, _ => .ok ()
  | .cons field fields, (slot, slots) =>
    match slot <|> field.absent with
    | some a => do return (a, ← fields.settle slots)
    | none => fail (.missingField field.name)

/-- The values of an array, the first of which belongs to the field at `index`.
The second result is what is left of the array. -/
def inOrder {αs : List Type} (s : Standing) (closed : Bool) (length : ExpectedLength)
    (index : Nat) : Fields αs → List Draft → Except ReadFault (Values αs × List Draft)
  | .nil, vs => .ok ((), vs)
  | .cons field fields, [] =>
    if closed then
      match field.absent with
      | some a => do
        let (as, vs) ← fields.inOrder s closed length (index + 1) []
        return ((a, as), vs)
      | none => fail (.wrongLength index length)
    else .error .malformed
  | .cons field fields, v :: vs => do
    let a ← field.decoder s v
    let (as, vs) ← fields.inOrder s closed length (index + 1) vs
    return ((a, as), vs)

end Fields

/-- Require that an array has no elements beyond the first `count`. -/
def requireEnd (s : Standing) (count : Nat) (rest : List Draft) (closed : Bool) (a : α) :
    Except ReadFault α :=
  if s.held && !rest.isEmpty then fail (.wrongLength (count + rest.length) (.elements count))
  else requireClosed (closed && rest.isEmpty) a

/-- A record. -/
def record {αs : List Type} (name : String) (fields : Fields αs) (make : Values αs → α) :
    Decoder α
  | s, .array vs closed => do
    let s ← s.enter
    let (as, rest) ← fields.inOrder s closed (.record name fields.size) 0 vs
    requireEnd s fields.size rest closed (make as)
  | s, .object members closed => do
    let s ← s.enter
    let slots ← fields.storeAll s members fields.vacant
    requireClosed closed ()
    return make (← fields.settle slots)
  | s, .keyless _ => do
    let _ ← s.enter
    .error .malformed
  | _, v => v.refuse (.record name)

/-! ## Tagged unions -/

/-- A variant of a tagged union: a value by itself, or one with contents. -/
inductive Variant (α : Type)
  | bare (name : String) (value : α)
  | carrying (name : String) (contents : Decoder α)

namespace Variant

/-- The name of a variant. -/
def name : Variant α → String
  | .bare name _ => name
  | .carrying name _ => name

/-- A variant whose contents another value is made of. -/
def of (name : String) (make : β → α) (contents : Decoder β) : Variant α :=
  .carrying name (contents.map make)

/-- Decode the contents of a variant. -/
def decode (union : String) : Variant α → Decoder α
  | .carrying _ contents, s, v => contents s v
  | .bare _ value, _, .null => .ok value
  | .bare name _, s, v => do
    match v with
    | .array _ _ | .object _ _ | .keyless _ => let _ ← s.enter
    | _ => pure ()
    v.refuse (.unitVariant union name)

end Variant

/-- How far an object with `type` and `value` has been read. -/
inductive Progress (α : Type)
  | start
  | typed (variant : Variant α)
  | held (value : Draft)
  | complete (value : α)

/-- The variants by name. -/
def byName (variants : List (Variant α)) : List (String × Variant α) :=
  variants.map fun variant => (variant.name, variant)

/-- Read one member of an object with `type` and `value`. -/
def progress (union : String) (variants : List (Variant α)) (s : Standing)
    (key : String) (v : Draft) (p : Progress α) : Except ReadFault (Progress α) :=
  if key = "type" then
    match p with
    | .start => do return .typed (← choice (byName variants) s v)
    | .held value => do
      let variant ← choice (byName variants) s v
      return .complete (← variant.decode union s.hold value)
    | _ => fail (.duplicateField key)
  else if key = "value" then
    match p with
    | .start => if v.isSound s.room then .ok (.held v) else .error .malformed
    | .typed variant => do return .complete (← variant.decode union s v)
    | _ => fail (.duplicateField key)
  else if v.isComplete then .ok p
  else .error .malformed

/-- Read the members of an object with `type` and `value`. -/
def progressAll (union : String) (variants : List (Variant α)) (s : Standing) :
    List (Option String × Draft) → Progress α → Except ReadFault (Progress α)
  | [], p => .ok p
  | (none, _) :: _, _ => .error .malformed
  | (some key, v) :: members, p => do
    progressAll union variants s members (← progress union variants s key v p)

/-- The value at the end of an object with `type` and `value`. -/
def conclude : Progress α → Except ReadFault α
  | .complete value => .ok value
  | .typed (.bare _ value) => .ok value
  | .typed (.carrying _ _) => fail (.missingField "value")
  | _ => fail (.missingField "type")

/-- The variant that the first element of an array names. A held-back one may give
its place among the variants. -/
def variantOf (variants : List (Variant α)) : Decoder (Variant α)
  | _, .string (some name) => named (byName variants) name
  | ⟨_, true⟩, .number (.integer (.ofNat i)) =>
    match variants[i]? with
    | some variant => .ok variant
    | none => fail (.wrongValue (.integer i) (.variantIndex variants.length))
  | _, v => v.refuse .variantIdentifier

/-- A value of a tagged union. -/
def tagged (union : String) (variants : List (Variant α)) : Decoder α
  | s, .array [] closed => do
    let _ ← s.enter
    requireClosed closed ()
    fail (.wrongLength 0 (.taggedUnion union))
  | s, .array (tag :: vs) closed => do
    let s ← s.enter
    let variant ← variantOf variants s tag
    match vs with
    | [] =>
      requireClosed closed ()
      fail (.wrongLength 1 (.taggedUnion union))
    | v :: rest => do
      let a ← variant.decode union s v
      requireEnd s 2 rest closed a
  | s, .object members closed => do
    let s ← s.enter
    let p ← progressAll union variants s members .start
    requireClosed closed ()
    conclude p
  | s, .keyless _ => do
    let _ ← s.enter
    .error .malformed
  | _, v => v.refuse (.taggedUnion union)

/-! ## Whole texts -/

/-- Decode a draft. -/
def run (d : Decoder α) (v : Draft) : Except ReadFault α :=
  d .outermost v

/-- Decode a text. Nothing but separators may follow the value. -/
def runText (d : Decoder α) (text : String) : Except ReadFault α := do
  let document := Document.ofText text
  let a ← d.run document.value
  if document.trailing then .error .malformed else return a

end Decoder

end EcmaWriter
