import EcmaWriter.Proofs.Identifier.Legality
import EcmaWriter.Proofs.Json.Lossless

/-!
# EcmaWriter - The room that JSON forms of decoded values need

A JSON form writes what a text may leave out: an empty list stands one level below the record it
belongs to.  In most records another field nests as deep as that, and was there to be read.  Only
the name of a type may be all that its record has, and so its JSON form may nest one deeper than
the text did.

Decoders are confined if the JSON form of what they return fits into the room that there was,
except for the missing type arguments of names at the bottom.  Each way to put decoders together
keeps them confined.

Main results:

- Definition `Json.Fits`: JSON forms that fit into some room.
- Theorem `Json.Fits.exists_standsAt`: what does not fit has the name of a type at the bottom.
- Definition `Decoder.Confined`: decoders whose results fit.
- Theorems `Decoder.Confined.record`, `Decoder.Confined.tagged`: records and choices of confined
  decoders are confined.
-/

namespace EcmaWriter

namespace Json

/-- The JSON form of the name of a type without type arguments. -/
def unapplied (name : Identifier) : Json :=
  .object [("name", identifier name), ("arguments", .array [])]

/-! ## Values inside of values -/

/-- Whether a value stands in another one at some depth. The outermost value is at depth one. -/
inductive StandsAt (v : Json) : Nat → Json → Prop
  | whole : StandsAt v 1 v
  | item {n : Nat} {items : List Json} {j : Json} (hj : j ∈ items) (h : StandsAt v n j) :
      StandsAt v (n + 1) (.array items)
  | member {n : Nat} {members : List (String × Json)} {member : String × Json}
      (hmember : member ∈ members) (h : StandsAt v n member.2) :
      StandsAt v (n + 1) (.object members)

/-- Items nest as deep as the deepest of them. -/
theorem lt_itemDepth_iff {n : Nat} {items : List Json} :
    n < itemDepth items ↔ ∃ j ∈ items, n < j.depth := by
  induction items with
  | nil => simp [itemDepth]
  | cons item items ih => simp [itemDepth, ih]

/-- Members nest as deep as the deepest of their values. -/
theorem lt_memberDepth_iff {n : Nat} {members : List (String × Json)} :
    n < memberDepth members ↔ ∃ member ∈ members, n < member.2.depth := by
  induction members with
  | nil => simp [memberDepth]
  | cons member members ih => simp [memberDepth, ih]

/-- What stands somewhere nests no deeper than the whole. -/
theorem StandsAt.add_depth_le {v j : Json} {n : Nat} (h : StandsAt v n j) :
    n + v.depth ≤ j.depth + 1 := by
  induction h with
  | whole => omega
  | @item n items j hj _ ih =>
      have hle : j.depth ≤ itemDepth items := by
        refine Nat.le_of_not_lt fun hlt => ?_
        exact Nat.lt_irrefl _ (lt_itemDepth_iff.mpr ⟨j, hj, hlt⟩)
      rw [depth]
      omega
  | @member n members member hmember _ ih =>
      have hle : member.2.depth ≤ memberDepth members := by
        refine Nat.le_of_not_lt fun hlt => ?_
        exact Nat.lt_irrefl _ (lt_memberDepth_iff.mpr ⟨member, hmember, hlt⟩)
      rw [depth]
      omega

/-! ## Values that fit -/

/-- Whether a JSON form nests no deeper than some room, except that the name of a type may stand
at the bottom, with an empty list of type arguments below. -/
inductive Fits : Nat → Json → Prop
  | flat {room : Nat} {j : Json} (h : j.depth = 0) : Fits room j
  | array {room : Nat} {items : List Json} (h : ∀ j ∈ items, Fits room j) :
      Fits (room + 1) (.array items)
  | object {room : Nat} {members : List (String × Json)}
      (h : ∀ member ∈ members, Fits room member.2) : Fits (room + 1) (.object members)
  | unapplied (room : Nat) (name : Identifier) : Fits (room + 1) (unapplied name)

/-- A value that nests needs some room. -/
theorem Fits.pos {room : Nat} {j : Json} (h : Fits room j) (hj : 0 < j.depth) : 0 < room := by
  cases h with
  | flat hflat => omega
  | _ => exact Nat.succ_pos _

/-- What nests deeper than the room has the name of a type at the bottom. -/
theorem Fits.exists_standsAt {room : Nat} {j : Json} (h : Fits room j) (hdeep : room < j.depth) :
    ∃ name, StandsAt (Json.unapplied name) room j := by
  induction h with
  | flat hflat => omega
  | array _ ih =>
      obtain ⟨j, hj, hlt⟩ := lt_itemDepth_iff.mp (Nat.lt_of_succ_lt_succ hdeep)
      obtain ⟨name, hname⟩ := ih j hj hlt
      exact ⟨name, .item hj hname⟩
  | object _ ih =>
      obtain ⟨member, hmember, hlt⟩ := lt_memberDepth_iff.mp (Nat.lt_of_succ_lt_succ hdeep)
      obtain ⟨name, hname⟩ := ih member hmember hlt
      exact ⟨name, .member hmember hname⟩
  | unapplied room name =>
      obtain rfl : room = 0 := Nat.lt_one_iff.mp (Nat.lt_of_succ_lt_succ hdeep)
      exact ⟨name, .whole⟩

end Json

open Identifier (refuse_ne_ok)
open Json (Fits)

namespace Decoder

variable {α β : Type}

/-- Whether the JSON form of whatever a decoder returns fits into the room that there was. -/
structure Confined (d : Decoder α) (toJson : α → Json) : Prop where
  fits : ∀ {s v a}, d s v = .ok a → (toJson a).Fits s.room

section

variable {d : Decoder α} {toJson : α → Json}

/-- A value that does not nest fits everywhere. -/
theorem Confined.of_flat (toJson : α → Json) (h : ∀ a, (toJson a).depth = 0) : Confined d toJson :=
  ⟨fun {_ _ a} _ => .flat (h a)⟩

/-- A decoded value may be changed if its JSON form stays. -/
theorem Confined.map {f : α → β} {toJson' : β → Json} (h : Confined d toJson)
    (hf : ∀ a, toJson' (f a) = toJson a) : Confined (d.map f) toJson' := by
  refine ⟨fun hok => ?_⟩
  obtain ⟨a, ha, rfl⟩ := exists_of_map_eq_ok hok
  rw [hf]
  exact h.fits ha

/-- A null fits everywhere. -/
theorem Confined.option {toJson' : Option α → Json} (h : Confined d toJson)
    (hnone : toJson' none = .null) (hsome : ∀ a, toJson' (some a) = toJson a) :
    Confined (option d) toJson' := by
  refine ⟨fun {s v a?} hok => ?_⟩
  cases a? with
  | none =>
      rw [hnone]
      exact .flat rfl
  | some a =>
      have hdecode : (d s v).map some = .ok (some a) := by
        cases v with
        | null => exact nomatch Except.ok.inj hok
        | _ => exact hok
      obtain ⟨b, hb, hsame⟩ := exists_of_map_eq_ok hdecode
      rw [hsome, ← Option.some.inj hsame]
      exact h.fits hb

/-! ## Arrays -/

/-- Each decoded item comes from one of the drafts. -/
theorem mem_of_items {s : Standing} {vs : List Draft} {as : List α} (h : items d s vs = .ok as) :
    ∀ a ∈ as, ∃ v, d s v = .ok a := by
  induction vs generalizing as with
  | nil =>
      obtain rfl := Except.ok.inj h
      exact fun a ha => absurd ha List.not_mem_nil
  | cons v vs ih =>
      obtain ⟨a, ha, h⟩ := exists_of_bind_eq_ok h
      obtain ⟨as', has, h⟩ := exists_of_bind_eq_ok h
      obtain rfl := Except.ok.inj h
      exact List.forall_mem_cons.mpr ⟨⟨v, ha⟩, ih has⟩

/-- The items of a list are decoded with one less room. -/
theorem exists_of_list {s : Standing} {v : Draft} {as : List α} (h : list d s v = .ok as) :
    ∃ s', s.room = s'.room + 1 ∧ ∀ a ∈ as, ∃ v, d s' v = .ok a := by
  cases v with
  | array vs closed =>
      obtain ⟨s', henter, h⟩ := exists_of_bind_eq_ok h
      obtain ⟨as', hitems, h⟩ := exists_of_bind_eq_ok h
      cases closed with
      | false => contradiction
      | true =>
          obtain rfl := Except.ok.inj h
          exact ⟨s', Standing.room_of_enter henter, mem_of_items hitems⟩
  | _ =>
      obtain ⟨_, _, h⟩ := exists_of_bind_eq_ok h
      contradiction

/-- A list fits if its items fit with one less room. -/
theorem Confined.list {listToJson : List α → List Json} (h : Confined d toJson)
    (hnil : listToJson [] = [])
    (hcons : ∀ a as, listToJson (a :: as) = toJson a :: listToJson as) :
    Confined (list d) fun as => .array (listToJson as) := by
  refine ⟨fun {s v as} hok => ?_⟩
  obtain ⟨s', hroom, has⟩ := exists_of_list hok
  have hmap : listToJson as = as.map toJson := by
    clear hok has
    induction as with
    | nil => exact hnil
    | cons a as ih => rw [hcons, ih, List.map_cons]
  rw [hroom, hmap]
  refine .array fun j hj => ?_
  obtain ⟨a, ha, rfl⟩ := List.mem_map.mp hj
  obtain ⟨v, hv⟩ := has a ha
  exact h.fits hv

end

/-! ## Records -/

/-- Whether a value of a field was read at some standing, or is the value for its absence. -/
def Field.Gives (s : Standing) (field : Field α) (a : α) : Prop :=
  (∃ v, field.decoder s v = .ok a) ∨ field.absent = some a

namespace Fields

/-- Whether each of the values of fields is given by its field. -/
def Gives (s : Standing) : {αs : List Type} → Fields αs → Values αs → Prop
  | _, .nil, _ => True
  | _, .cons field fields, (a, as) => field.Gives s a ∧ fields.Gives s as

/-- Whether each of the values that were met so far was read by its field. -/
def Read (s : Standing) : {αs : List Type} → Fields αs → Slots αs → Prop
  | _, .nil, _ => True
  | _, .cons field fields, (slot, slots) =>
    (∀ a ∈ slot, ∃ v, field.decoder s v = .ok a) ∧ fields.Read s slots

variable {αs : List Type} {s : Standing}

/-- No field has been met at the start. -/
theorem read_vacant (fields : Fields αs) : fields.Read s fields.vacant := by
  induction fields with
  | nil => trivial
  | cons field fields ih => exact ⟨nofun, ih⟩

/-- A value is read by the field of its name, and those of the other fields stay. -/
theorem Read.store {fields : Fields αs} {key : String} {v : Draft} {slots slots' : Slots αs}
    (h : fields.Read s slots) (hok : fields.store s key v slots = .ok (some slots')) :
    fields.Read s slots' := by
  induction fields with
  | nil => exact nomatch Except.ok.inj hok
  | cons field fields ih =>
      obtain ⟨slot, slots⟩ := slots
      by_cases hname : field.name = key
      · subst hname
        obtain ⟨a, ha, hstored⟩ := exists_of_store_name hok
        obtain rfl := Option.some.inj hstored
        exact ⟨fun b hb => ⟨v, Option.some.inj hb ▸ ha⟩, h.2⟩
      · rw [store_cons_of_ne hname] at hok
        obtain ⟨stored, hstored, hmap⟩ := exists_of_map_eq_ok hok
        obtain ⟨slots, rfl, rfl⟩ := Option.map_eq_some_iff.mp hmap
        exact ⟨h.1, ih h.2 hstored⟩

/-- Each field that is met keeps what was read before. -/
theorem Read.storeAll {fields : Fields αs} {members : List (Option String × Draft)}
    {slots slots' : Slots αs} (h : fields.Read s slots)
    (hok : fields.storeAll s members slots = .ok slots') : fields.Read s slots' := by
  induction members generalizing slots with
  | nil => exact Except.ok.inj hok ▸ h
  | cons member members ih =>
      rcases member with ⟨_ | key, v⟩
      · contradiction
      obtain ⟨stored, hstored, hok⟩ := exists_of_bind_eq_ok hok
      cases stored with
      | some slots => exact ih (h.store hstored) hok
      | none =>
          dsimp only at hok
          split at hok
          · exact ih h hok
          · contradiction

/-- At the end a field that was not met has the value for its absence. -/
theorem Read.gives {fields : Fields αs} {slots : Slots αs} {as : Values αs}
    (h : fields.Read s slots) (hok : fields.settle slots = .ok as) : fields.Gives s as := by
  induction fields with
  | nil => trivial
  | cons field fields ih =>
      obtain ⟨slot, slots⟩ := slots
      rw [settle] at hok
      split at hok
      · rename_i a ha
        obtain ⟨as', has, hok⟩ := exists_of_bind_eq_ok hok
        obtain rfl := Except.ok.inj hok
        refine ⟨?_, ih h.2 has⟩
        cases slot with
        | none => exact Or.inr ha
        | some b => exact Or.inl (h.1 a ha)
      · contradiction

/-- Fields that are given in order, by position. -/
theorem gives_of_inOrder {fields : Fields αs} {closed : Bool} {length : ExpectedLength}
    {index : Nat} {vs rest : List Draft} {as : Values αs}
    (hok : fields.inOrder s closed length index vs = .ok (as, rest)) : fields.Gives s as := by
  induction fields generalizing index vs rest with
  | nil => trivial
  | cons field fields ih =>
      cases vs with
      | nil =>
          rw [inOrder] at hok
          split at hok
          · split at hok
            · rename_i a ha
              obtain ⟨⟨as', rest'⟩, has, hok⟩ := exists_of_bind_eq_ok hok
              obtain ⟨rfl, -⟩ := Prod.mk.inj (Except.ok.inj hok)
              exact ⟨Or.inr ha, ih has⟩
            · contradiction
          · contradiction
      | cons v vs =>
          obtain ⟨a, ha, hok⟩ := exists_of_bind_eq_ok hok
          obtain ⟨⟨as', rest'⟩, has, hok⟩ := exists_of_bind_eq_ok hok
          obtain ⟨rfl, -⟩ := Prod.mk.inj (Except.ok.inj hok)
          exact ⟨Or.inl ⟨v, ha⟩, ih has⟩

end Fields

/-- To look for the end of a list does not change the value. -/
theorem eq_of_requireEnd {s : Standing} {count : Nat} {rest : List Draft} {closed : Bool} {a b : α}
    (h : requireEnd s count rest closed a = .ok b) : a = b := by
  rw [requireEnd] at h
  split at h
  · contradiction
  · rw [requireClosed] at h
    split at h
    · exact Except.ok.inj h
    · contradiction

/-- A record is made of values that its fields give. -/
theorem exists_of_record {αs : List Type} {name : String} {fields : Fields αs}
    {make : Values αs → α} {s : Standing} {v : Draft} {a : α}
    (h : record name fields make s v = .ok a) :
    ∃ s' as, s.room = s'.room + 1 ∧ fields.Gives s' as ∧ make as = a := by
  cases v with
  | array vs closed =>
      obtain ⟨s', henter, h⟩ := exists_of_bind_eq_ok h
      obtain ⟨⟨as, rest⟩, has, h⟩ := exists_of_bind_eq_ok h
      exact ⟨s', as, Standing.room_of_enter henter, Fields.gives_of_inOrder has,
        eq_of_requireEnd h⟩
  | object members closed =>
      obtain ⟨s', henter, h⟩ := exists_of_bind_eq_ok h
      obtain ⟨slots, hslots, h⟩ := exists_of_bind_eq_ok h
      obtain ⟨-, -, h⟩ := exists_of_bind_eq_ok h
      obtain ⟨as, has, h⟩ := exists_of_bind_eq_ok h
      exact ⟨s', as, Standing.room_of_enter henter,
        (fields.read_vacant.storeAll hslots).gives has, Except.ok.inj h⟩
  | _ =>
      obtain ⟨_, _, h⟩ := exists_of_bind_eq_ok h
      contradiction

namespace Fields

variable {αs : List Type} {field : Field α} {fields : Fields αs} {least : Nat}
  {toJson : α → Json} {members : Values αs → List (String × Json)}

/-- Whether the JSON forms of values that fields give fit where there is at least some room. -/
structure Confined (least : Nat) (fields : Fields αs)
    (members : Values αs → List (String × Json)) : Prop where
  fits : ∀ {s as}, least ≤ s.room → fields.Gives s as →
    ∀ member ∈ members as, member.2.Fits s.room

/-- Without fields there is nothing that might not fit. -/
theorem Confined.nil : Fields.nil.Confined least fun _ => [] :=
  ⟨fun _ _ _ hmember => absurd hmember List.not_mem_nil⟩

/-- One field more, whose value for its absence has to fit as well. -/
theorem Confined.cons (h : fields.Confined least members)
    (hread : Decoder.Confined field.decoder toJson)
    (habsent : ∀ {a}, field.absent = some a → ∀ {room}, least ≤ room → (toJson a).Fits room) :
    (Fields.cons field fields).Confined least fun as =>
      (field.name, toJson as.1) :: members as.2 := by
  refine ⟨fun {s as} hleast hgives => ?_⟩
  obtain ⟨a, as⟩ := as
  refine List.forall_mem_cons.mpr ⟨?_, h.fits hleast hgives.2⟩
  rcases hgives.1 with ⟨v, hv⟩ | hdefault
  · exact hread.fits hv
  · exact habsent hdefault hleast

/-- A field without arrays and objects. -/
theorem Confined.flat (toJson : α → Json) (hflat : ∀ a, (toJson a).depth = 0)
    (h : fields.Confined least members) :
    (Fields.cons field fields).Confined least fun as =>
      (field.name, toJson as.1) :: members as.2 :=
  h.cons (Decoder.Confined.of_flat toJson hflat) fun _ _ _ => .flat (hflat _)

/-- A field that is never absent. -/
theorem Confined.required {name : String} {d : Decoder α} (hread : Decoder.Confined d toJson)
    (h : fields.Confined least members) :
    (Fields.cons (Decoder.required name d) fields).Confined least fun as =>
      (name, toJson as.1) :: members as.2 :=
  h.cons hread fun {_} habsent => by contradiction

/-- A field that is null if it is absent. -/
theorem Confined.optional {name : String} {d : Decoder α} {toJson : Option α → Json}
    (hread : Decoder.Confined (option d) toJson) (hnone : toJson none = .null)
    (h : fields.Confined least members) :
    (Fields.cons (Decoder.optional name d) fields).Confined least fun as =>
      (name, toJson as.1) :: members as.2 := by
  refine h.cons hread fun {a} habsent _ _ => ?_
  obtain rfl : none = a := Option.some.inj habsent
  rw [hnone]
  exact .flat rfl

/-- A list that may be left out needs room for an array. -/
theorem Confined.defaulted {name : String} {d : Decoder α} {toJson : List α → Json}
    (hread : Decoder.Confined (list d) toJson) (hnil : toJson [] = .array [])
    (h : fields.Confined 1 members) :
    (Fields.cons (Decoder.defaulted name (list d) []) fields).Confined 1 fun as =>
      (name, toJson as.1) :: members as.2 := by
  refine h.cons hread fun {as} habsent room hroom => ?_
  obtain rfl : [] = as := Option.some.inj habsent
  obtain ⟨room, rfl⟩ := Nat.exists_eq_add_of_le' hroom
  rw [hnil]
  exact .array fun j hj => absurd hj List.not_mem_nil

/-- Whether fields give values only where there is some room. -/
structure Deep (least : Nat) (fields : Fields αs) : Prop where
  le_room : ∀ {s as}, fields.Gives s as → least ≤ s.room

/-- That no room is needed holds of all fields. -/
theorem Deep.zero : fields.Deep 0 :=
  ⟨fun _ => Nat.zero_le _⟩

/-- A field that is always an array or an object needs room. -/
theorem Deep.here {name : String} {d : Decoder α} (hread : Decoder.Confined d toJson)
    (hdeep : ∀ a, 0 < (toJson a).depth) :
    (Fields.cons (Decoder.required name d) fields).Deep 1 := by
  refine ⟨fun hgives => ?_⟩
  obtain ⟨v, hv⟩ := hgives.1.resolve_right nofun
  exact (hread.fits hv).pos (hdeep _)

/-- A field that needs room makes the fields after others need it. -/
theorem Deep.there (h : fields.Deep least) : (Fields.cons field fields).Deep least :=
  ⟨fun hgives => h.le_room hgives.2⟩

end Fields

section

variable {αs : List Type} {fields : Fields αs} {least : Nat} {name : String}
  {toJson : α → Json} {make : Values αs → α} {members : Values αs → List (String × Json)}

/-- A record is confined if its fields are, and need as much room as their defaults. -/
theorem Confined.record (h : fields.Confined least members) (hdeep : fields.Deep least)
    (hmake : ∀ as, toJson (make as) = .object (members as)) :
    Confined (record name fields make) toJson := by
  refine ⟨fun hok => ?_⟩
  obtain ⟨s', as, hroom, hgives, rfl⟩ := exists_of_record hok
  rw [hmake, hroom]
  exact .object (h.fits (hdeep.le_room hgives) hgives)

end

/-! ## Tagged unions -/

/-- Whether the JSON form of what a variant decodes has its name, and contents that fit. -/
inductive Variant.Confined (toJson : α → Json) : Variant α → Prop
  | bare {name : String} {a : α} (h : toJson a = Json.bare name) : Confined toJson (.bare name a)
  | carrying {name : String} {contents : Decoder α}
      (h : ∀ {s v a}, contents s v = .ok a →
        ∃ j, toJson a = Json.carrying name j ∧ j.Fits s.room) :
      Confined toJson (.carrying name contents)

section

variable {toJson : α → Json}

/-- A variant fits as its contents do with one less room. -/
theorem Variant.Confined.of {name : String} {make : β → α} {d : Decoder β} {contents : β → Json}
    (h : Decoder.Confined d contents)
    (hmake : ∀ b, toJson (make b) = Json.carrying name (contents b)) :
    (Variant.of name make d).Confined toJson := by
  refine .carrying fun hok => ?_
  obtain ⟨b, hb, rfl⟩ := exists_of_map_eq_ok hok
  exact ⟨_, hmake b, h.fits hb⟩

section

variable {αs : List Type} {fields : Fields αs} {least : Nat} {name recordName : String}
  {members : Values αs → List (String × Json)}

/-- A variant whose contents are an object. -/
theorem Variant.Confined.record {make : Values αs → α} (h : fields.Confined least members)
    (hdeep : fields.Deep least)
    (hmake : ∀ as, toJson (make as) = Json.carrying name (.object (members as))) :
    (Variant.carrying name (record recordName fields make)).Confined toJson := by
  refine .carrying fun hok => ?_
  obtain ⟨s', as, hroom, hgives, rfl⟩ := exists_of_record hok
  rw [hroom]
  exact ⟨_, hmake as, .object (h.fits (hdeep.le_room hgives) hgives)⟩

/-- A variant made from what the object is read to. -/
theorem Variant.Confined.of_record {make : Values αs → β} {f : β → α}
    (h : fields.Confined least members) (hdeep : fields.Deep least)
    (hmake : ∀ as, toJson (f (make as)) = Json.carrying name (.object (members as))) :
    (Variant.of name f (Decoder.record recordName fields make)).Confined toJson := by
  refine .carrying fun hok => ?_
  obtain ⟨b, hb, rfl⟩ := exists_of_map_eq_ok hok
  obtain ⟨s', as, hroom, hgives, rfl⟩ := exists_of_record hb
  rw [hroom]
  exact ⟨_, hmake as, .object (h.fits (hdeep.le_room hgives) hgives)⟩

end

/-- The name of a variant without contents is an object. -/
theorem fits_bare {room : Nat} (name : String) : (Json.bare name).Fits (room + 1) := by
  refine .object ?_
  simp only [List.forall_mem_cons, List.not_mem_nil, false_imp_iff, implies_true, and_true]
  exact .flat rfl

/-- The object around the contents of a variant takes one more room. -/
theorem fits_carrying {room : Nat} {name : String} {j : Json} (h : j.Fits room) :
    (Json.carrying name j).Fits (room + 1) := by
  refine .object ?_
  simp only [List.forall_mem_cons, List.not_mem_nil, false_imp_iff, implies_true, and_true]
  exact ⟨.flat rfl, h⟩

/-- What a variant decodes fits where there is room for the object around its contents. -/
theorem Variant.Confined.fits {union : String} {variant : Variant α} {s : Standing} {v : Draft}
    {a : α} (h : variant.Confined toJson) (hok : variant.decode union s v = .ok a) :
    (toJson a).Fits (s.room + 1) := by
  cases h with
  | carrying h =>
      obtain ⟨j, hj, hfits⟩ := h hok
      rw [hj]
      exact fits_carrying hfits
  | bare h =>
      unfold Variant.decode at hok
      split at hok
      case h_1 heq => contradiction
      case h_2 heq =>
        obtain ⟨rfl, rfl⟩ := Variant.bare.inj heq
        rw [← Except.ok.inj hok, h]
        exact fits_bare _
      case h_3 =>
        dsimp only at hok
        split at hok
        case h_4 => exact absurd hok (refuse_ne_ok _ _ _)
        all_goals
          obtain ⟨_, _, hok⟩ := exists_of_bind_eq_ok hok
          exact absurd hok (refuse_ne_ok _ _ _)

/-! ### Names of variants -/

/-- A name that is found is one of the names. -/
theorem mem_of_named {options : List (String × α)} {name : String} {a : α}
    (h : named options name = .ok a) : (name, a) ∈ options := by
  rw [named] at h
  split at h
  · rename_i b hb
    obtain rfl := Except.ok.inj h
    obtain ⟨before, after, heq, -⟩ := List.lookup_eq_some_iff.mp hb
    simp [heq]
  · contradiction

/-- Variants by name are the variants. -/
theorem mem_of_mem_byName {variants : List (Variant α)} {name : String} {variant : Variant α}
    (h : (name, variant) ∈ byName variants) : variant ∈ variants := by
  obtain ⟨found, hfound, heq⟩ := List.mem_map.mp h
  exact (Prod.mk.inj heq).2 ▸ hfound

/-- A choice is one of the options. -/
theorem exists_mem_of_choice {options : List (String × α)} {s : Standing} {v : Draft} {a : α}
    (h : choice options s v = .ok a) : ∃ name, (name, a) ∈ options := by
  unfold choice at h
  split at h
  · exact ⟨_, mem_of_named h⟩
  · obtain ⟨_, _, h⟩ := exists_of_bind_eq_ok h
    obtain ⟨b, hb, h⟩ := exists_of_bind_eq_ok h
    obtain ⟨-, -, h⟩ := exists_of_bind_eq_ok h
    rw [requireClosed] at h
    split at h
    · exact Except.ok.inj h ▸ ⟨_, mem_of_named hb⟩
    · contradiction
  · obtain ⟨_, _, h⟩ := exists_of_bind_eq_ok h
    exact absurd h (refuse_ne_ok _ _ _)
  · contradiction
  · obtain ⟨b, hb, h⟩ := exists_of_bind_eq_ok h
    obtain ⟨-, -, h⟩ := exists_of_bind_eq_ok h
    exact Except.ok.inj h ▸ ⟨_, mem_of_named hb⟩
  · contradiction
  · exact absurd h (refuse_ne_ok _ _ _)

/-- A variant that is found is one of the variants. -/
theorem mem_of_variantOf {variants : List (Variant α)} {s : Standing} {v : Draft}
    {variant : Variant α} (h : variantOf variants s v = .ok variant) : variant ∈ variants := by
  unfold variantOf at h
  split at h
  · exact mem_of_mem_byName (mem_of_named h)
  · split at h
    · rename_i hplace
      exact Except.ok.inj h ▸ List.mem_of_getElem? hplace
    · contradiction
  · exact absurd h (refuse_ne_ok _ _ _)

/-! ### Objects with type and value -/

/-- Whether what an object with `type` and `value` was read to so far is of some variant, with
contents that fit. -/
def Progress.Fits (toJson : α → Json) (room : Nat) : Progress α → Prop
  | .start => True
  | .held _ => True
  | .typed variant => variant.Confined toJson
  | .complete a => (toJson a).Fits (room + 1)

variable {union : String} {variants : List (Variant α)} {s : Standing}
  (hvariants : ∀ variant ∈ variants, variant.Confined toJson)
include hvariants

/-- Each member keeps it so, also where contents are read that were held back. -/
theorem Progress.Fits.progress {key : String} {v : Draft} {p p' : Progress α}
    (h : p.Fits toJson s.room) (hok : progress union variants s key v p = .ok p') :
    p'.Fits toJson s.room := by
  have hchoice : ∀ {variant}, choice (byName variants) s v = .ok variant →
      variant.Confined toJson := by
    intro variant hvariant
    obtain ⟨name, hname⟩ := exists_mem_of_choice hvariant
    exact hvariants variant (mem_of_mem_byName hname)
  unfold Decoder.progress at hok
  split at hok
  · cases p with
    | start =>
        obtain ⟨variant, hvariant, hok⟩ := exists_of_bind_eq_ok hok
        exact Except.ok.inj hok ▸ hchoice hvariant
    | held held =>
        obtain ⟨variant, hvariant, hok⟩ := exists_of_bind_eq_ok hok
        obtain ⟨a, ha, hok⟩ := exists_of_bind_eq_ok hok
        have hfits : (toJson a).Fits (s.hold.room + 1) := (hchoice hvariant).fits ha
        exact Except.ok.inj hok ▸ hfits
    | _ => contradiction
  split at hok
  · cases p with
    | start =>
        change (if _ then _ else _) = _ at hok
        split at hok
        · exact Except.ok.inj hok ▸ trivial
        · contradiction
    | typed variant =>
        obtain ⟨a, ha, hok⟩ := exists_of_bind_eq_ok hok
        exact Except.ok.inj hok ▸ Variant.Confined.fits h ha
    | _ => contradiction
  · split at hok
    · exact Except.ok.inj hok ▸ h
    · contradiction

/-- Each member of the object keeps what was read fit. -/
theorem Progress.Fits.progressAll {members : List (Option String × Draft)} {p p' : Progress α}
    (h : p.Fits toJson s.room) (hok : progressAll union variants s members p = .ok p') :
    p'.Fits toJson s.room := by
  induction members generalizing p with
  | nil => exact Except.ok.inj hok ▸ h
  | cons member members ih =>
      rcases member with ⟨_ | key, v⟩
      · contradiction
      obtain ⟨p'', hstep, hok⟩ := exists_of_bind_eq_ok hok
      exact ih (h.progress hvariants hstep) hok

omit hvariants in
/-- What is concluded from the members fits with the object around them. -/
theorem Progress.Fits.conclude {room : Nat} {p : Progress α} {a : α} (h : p.Fits toJson room)
    (hok : conclude p = .ok a) : (toJson a).Fits (room + 1) := by
  unfold Decoder.conclude at hok
  split at hok
  · exact Except.ok.inj hok ▸ h
  · cases h with
    | bare h =>
        rw [← Except.ok.inj hok, h]
        exact fits_bare _
  · contradiction
  · contradiction

/-- A choice between confined variants is confined. -/
theorem Confined.tagged : Confined (tagged union variants) toJson := by
  refine ⟨fun {s v a} hok => ?_⟩
  unfold Decoder.tagged at hok
  split at hok
  · obtain ⟨_, _, hok⟩ := exists_of_bind_eq_ok hok
    obtain ⟨_, _, hok⟩ := exists_of_bind_eq_ok hok
    contradiction
  · obtain ⟨s', henter, hok⟩ := exists_of_bind_eq_ok hok
    obtain ⟨variant, hvariant, hok⟩ := exists_of_bind_eq_ok hok
    split at hok
    · obtain ⟨_, _, hok⟩ := exists_of_bind_eq_ok hok
      contradiction
    · obtain ⟨b, hb, hok⟩ := exists_of_bind_eq_ok hok
      obtain rfl := eq_of_requireEnd hok
      rw [Standing.room_of_enter henter]
      exact (hvariants variant (mem_of_variantOf hvariant)).fits hb
  · obtain ⟨s', henter, hok⟩ := exists_of_bind_eq_ok hok
    obtain ⟨p, hp, hok⟩ := exists_of_bind_eq_ok hok
    obtain ⟨_, _, hok⟩ := exists_of_bind_eq_ok hok
    have hstart : (Progress.start : Progress α).Fits toJson s'.room := trivial
    rw [Standing.room_of_enter henter]
    exact (hstart.progressAll hvariants hp).conclude hok
  · obtain ⟨_, _, hok⟩ := exists_of_bind_eq_ok hok
    contradiction
  · exact absurd hok (refuse_ne_ok _ _ _)

end

end Decoder

end EcmaWriter
