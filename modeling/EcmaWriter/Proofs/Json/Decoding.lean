import EcmaWriter.Proofs.Except
import EcmaWriter.Proofs.Json.Variation
import EcmaWriter.Tree.ToJson
import Mathlib.Data.List.Permutation

/-!
# EcmaWriter - What decoders accept

A decoder decodes a JSON form if it takes every variation of the form to a value wherever
there is room for the arrays and objects of that variation, also where it was held back, and
reads the form itself nowhere else.
Decoders of trees are given layer by layer, and a layer only reads trees up to some depth, so
a depth is part of the notion.  For each way to put decoders together there is one fact here,
on the JSON forms that the result decodes.

Main results:

- Definition `Decodes`: a decoder takes the variations of a JSON form to a value.
- Theorem `decodes_record`: records, as objects or arrays.
- Theorems `decodes_bare`, `decodes_carrying`: variants, with `type` and `value` in any order
  or as arrays.
-/

namespace EcmaWriter

open Json (Varies KeptMembers KeptValues IsUnknown mayBeLeftOut isChoice)

/-! ## Depth and soundness -/

namespace Draft

mutual

/-- How deep arrays and objects nest in a draft. -/
def depth : Draft → Nat
  | .array items _ => itemDepth items + 1
  | .object members _ => memberDepth members + 1
  | .keyless v => v.depth + 1
  | _ => 0

/-- How deep arrays and objects nest in items. -/
def itemDepth : List Draft → Nat
  | [] => 0
  | v :: vs => max v.depth (itemDepth vs)

/-- How deep arrays and objects nest in members. -/
def memberDepth : List (Option String × Draft) → Nat
  | [] => 0
  | (_, v) :: members => max v.depth (memberDepth members)

end

/-- Items nest no deeper than the deepest of them. -/
theorem itemDepth_le_iff {n : Nat} {vs : List Draft} :
    itemDepth vs ≤ n ↔ ∀ v ∈ vs, v.depth ≤ n := by
  induction vs with
  | nil => simp [itemDepth]
  | cons v vs ih => simp [itemDepth, ih]

/-- Members nest no deeper than the deepest of their values. -/
theorem memberDepth_le_iff {n : Nat} {members : List (Option String × Draft)} :
    memberDepth members ≤ n ↔ ∀ member ∈ members, member.2.depth ≤ n := by
  induction members with
  | nil => simp [memberDepth]
  | cons member members ih => simp [memberDepth, ih]

/-- Items are sound if each of them is. -/
theorem areSound_iff {room : Nat} {vs : List Draft} :
    areSound room vs = true ↔ ∀ v ∈ vs, v.isSound room = true := by
  induction vs with
  | nil => simp [areSound]
  | cons v vs ih => simp [areSound, ih]

/-- Members are sound if their names are texts and their values are sound. -/
theorem areMembersSound_iff {room : Nat} {members : List (Option String × Draft)} :
    areMembersSound room members = true ↔
      ∀ member ∈ members, member.1.isSome = true ∧ member.2.isSound room = true := by
  induction members with
  | nil => simp [areMembersSound]
  | cons member members ih => simp [areMembersSound, ih]

/-- Nothing is missing at the end of an ordinary draft. -/
theorem IsOrdinary.isComplete {v : Draft} (h : v.IsOrdinary) : v.isComplete = true := by
  cases h
  all_goals rfl

/-- Ordinary values can be held back where there is room for them. -/
theorem IsOrdinary.isSound {v : Draft} (h : v.IsOrdinary) {room : Nat} (hroom : v.depth ≤ room) :
    v.isSound room = true := by
  induction h generalizing room with
  | null => rfl
  | boolean _ => rfl
  | number h => exact h
  | string _ => rfl
  | array _ ih =>
      cases room with
      | zero => exact absurd hroom (Nat.not_succ_le_zero _)
      | succ room =>
          have hitems := itemDepth_le_iff.mp (Nat.le_of_succ_le_succ hroom)
          rw [Draft.isSound, Bool.and_true]
          exact areSound_iff.mpr fun v hv => ih v hv (hitems v hv)
  | object hkeys _ ih =>
      cases room with
      | zero => exact absurd hroom (Nat.not_succ_le_zero _)
      | succ room =>
          have hmembers := memberDepth_le_iff.mp (Nat.le_of_succ_le_succ hroom)
          rw [Draft.isSound, Bool.and_true]
          exact areMembersSound_iff.mpr fun member hmember =>
            ⟨hkeys member hmember, ih member hmember (hmembers member hmember)⟩

end Draft

/-- Every variation of an object is an object or an array. -/
theorem Json.Varies.depth_pos {members : List (String × Json)} {v : Draft}
    (h : (Json.object members).Varies v) : 0 < v.depth := by
  cases h
  all_goals exact Nat.succ_pos _

namespace Standing

/-- There is room for an array or object that is not too deep, and then for what is in it. -/
theorem exists_enter {s : Standing} {n : Nat} (h : n + 1 ≤ s.room) :
    ∃ s', s.enter = .ok s' ∧ n ≤ s'.room := by
  rcases s with ⟨_ | room, held⟩
  · exact absurd h (by simp)
  · exact ⟨⟨room, held⟩, rfl, Nat.le_of_succ_le_succ h⟩

/-- What is entered takes one from the room. -/
theorem room_of_enter {s s' : Standing} (h : s.enter = .ok s') : s.room = s'.room + 1 := by
  rcases s with ⟨_ | room, held⟩
  · exact nomatch h
  · rw [← Except.ok.inj h]

end Standing

namespace Decoder

variable {α β : Type} {n : Nat}

/-- Whether a decoder takes a draft to a value wherever there is room for the draft. The
draft is ordinary, so it may have been held back. -/
structure Takes (d : Decoder α) (v : Draft) (a : α) : Prop where
  ordinary : v.IsOrdinary
  eq_ok : ∀ s : Standing, v.depth ≤ s.room → d s v = .ok a

/-- Whether a decoder takes every variation of a JSON form to a value, unless the variation
nests deeper than `n`, and reads the form itself only where there is room for all of it. -/
structure Decodes (n : Nat) (d : Decoder α) (j : Json) (a : α) : Prop where
  takes : ∀ v, j.Varies v → v.depth ≤ n → d.Takes v a
  depth_le : ∀ {s b}, d s j.draft = .ok b → j.draft.depth ≤ s.room

/-- A draft that a decoder takes is decoded from each of its texts. -/
theorem Takes.runText {d : Decoder α} {v : Draft} {a : α} (h : d.Takes v a) {text : String}
    (htext : v.HasText text) (hdepth : v.depth ≤ 127) : d.runText text = .ok a := by
  have hrun : d.run v = .ok a := h.eq_ok .outermost hdepth
  simp only [Decoder.runText, Document.ofText_of_hasText htext, hrun]
  rfl

/-- What is decoded up to a depth is decoded up to less. -/
theorem Decodes.mono {d : Decoder α} {j : Json} {a : α} {m : Nat} (h : Decodes n d j a)
    (hm : m ≤ n) : Decodes m d j a := by
  refine ⟨fun v hv hdepth => ?_, h.depth_le⟩
  exact h.takes v hv (Nat.le_trans hdepth hm)

/-! ## Simple values -/

/-- Texts are decoded to themselves. -/
theorem decodes_string (text : String) : Decodes n string (.string text) text := by
  refine ⟨fun v hv _ => ?_, fun _ => Nat.zero_le _⟩
  cases hv
  exact ⟨.string text, fun _ _ => rfl⟩

/-- Truth values are decoded to themselves. -/
theorem decodes_boolean (value : Bool) : Decodes n boolean (.boolean value) value := by
  refine ⟨fun v hv _ => ?_, fun _ => Nat.zero_le _⟩
  cases hv
  exact ⟨.boolean value, fun _ _ => rfl⟩

/-- Numbers in range are decoded to themselves. -/
theorem decodes_integer32 (value : Int32) :
    Decodes n integer32 (.number value.toInt) value := by
  refine ⟨fun v hv _ => ?_, fun _ => Nat.zero_le _⟩
  cases hv
  have hmin : -2147483648 ≤ value.toInt := value.minValue_le_toInt
  have hmax : value.toInt ≤ 2147483647 := value.toInt_le
  have hfits : value.toInt.natAbs ≤ UInt64.size / 2 := by
    have hsize : UInt64.size / 2 = 9223372036854775808 := rfl
    omega
  rw [Numeral.ofInt_eq_integer hfits]
  refine ⟨.number rfl, fun s _ => ?_⟩
  rw [integer32, if_pos ⟨hmin, hmax⟩, Int32.ofInt_toInt]

/-- A decoded value may be changed. -/
theorem Takes.map {d : Decoder α} {v : Draft} {a : α} (h : d.Takes v a) (f : α → β) :
    (d.map f).Takes v (f a) := by
  refine ⟨h.ordinary, fun s hs => ?_⟩
  rw [Decoder.map, h.eq_ok s hs]
  rfl

/-- A decoded value may be changed, whatever it was decoded from. -/
theorem Decodes.map {d : Decoder α} {j : Json} {a : α} (h : Decodes n d j a) (f : α → β) :
    Decodes n (d.map f) j (f a) := by
  refine ⟨fun v hv hn => (h.takes v hv hn).map f, fun hok => ?_⟩
  obtain ⟨b, hb, -⟩ := exists_of_map_eq_ok hok
  exact h.depth_le hb

/-- A null is no value. -/
theorem decodes_option_none (d : Decoder α) : Decodes n (option d) .null none := by
  refine ⟨fun v hv _ => ?_, fun _ => Nat.zero_le _⟩
  cases hv
  exact ⟨.null, fun _ _ => rfl⟩

/-- What is not null is a value. -/
theorem Decodes.option_some {d : Decoder α} {j : Json} {a : α} (h : Decodes n d j a)
    (hnull : j.isNull = false) : Decodes n (option d) j (some a) := by
  have hoption : ∀ {v}, j.Varies v → ∀ s, option d s v = (d s v).map some := by
    rintro v hv s
    cases hv with
    | null => contradiction
    | _ => rfl
  refine ⟨fun v hv hn => ?_, fun {s b} hok => ?_⟩
  · have htakes := h.takes v hv hn
    refine ⟨htakes.ordinary, fun s hs => ?_⟩
    rw [hoption hv, htakes.eq_ok s hs]
    rfl
  · rw [hoption j.varies_draft] at hok
    obtain ⟨b, hb, -⟩ := exists_of_map_eq_ok hok
    exact h.depth_le hb

/-- A name of an option is decoded to the option. -/
theorem decodes_choice {options : List (String × α)} {name : String} {a : α}
    (h : options.lookup name = some a) : Decodes n (choice options) (.string name) a := by
  refine ⟨fun v hv _ => ?_, fun _ => Nat.zero_le _⟩
  cases hv
  refine ⟨.string name, fun s _ => ?_⟩
  rw [choice, named, h]

/-! ## Arrays -/

/-- Items that are taken one by one are taken in their order. -/
theorem items_eq_ok {d : Decoder α} {s : Standing} {vs : List Draft} {as : List α}
    (h : List.Forall₂ d.Takes vs as) (hs : ∀ v ∈ vs, v.depth ≤ s.room) :
    items d s vs = .ok as := by
  induction h with
  | nil => rfl
  | cons hhead _ ih =>
      rw [List.forall_mem_cons] at hs
      rw [items, hhead.eq_ok s hs.1, ih hs.2]
      rfl

/-- Items vary independently. -/
theorem forall₂_takes {d : Decoder α} {js : List Json} {vs : List Draft} {as : List α}
    (h : List.Forall₂ (Decodes n d) js as) (hvs : List.Forall₂ Varies js vs)
    (hn : ∀ v ∈ vs, v.depth ≤ n) : List.Forall₂ d.Takes vs as := by
  induction h generalizing vs with
  | nil =>
      cases hvs
      exact .nil
  | cons hhead _ ih =>
      obtain _ | ⟨hv, hvs⟩ := hvs
      rw [List.forall_mem_cons] at hn
      exact .cons (hhead.takes _ hv hn.1) (ih hvs hn.2)

/-- What is taken is ordinary. -/
theorem isOrdinary_of_forall₂ {d : Decoder α} {vs : List Draft} {as : List α}
    (h : List.Forall₂ d.Takes vs as) : ∀ v ∈ vs, v.IsOrdinary := by
  induction h with
  | nil => exact fun v hv => absurd hv List.not_mem_nil
  | cons hhead _ ih => exact List.forall_mem_cons.mpr ⟨hhead.ordinary, ih⟩

/-- Items are read only where there is room for all of them. -/
theorem itemDepth_le_of_items {d : Decoder α} {js : List Json} {as bs : List α} {s : Standing}
    (h : List.Forall₂ (Decodes n d) js as) (hok : items d s (Json.itemDrafts js) = .ok bs) :
    Draft.itemDepth (Json.itemDrafts js) ≤ s.room := by
  induction h generalizing bs with
  | nil => exact Nat.zero_le _
  | cons hhead _ ih =>
      obtain ⟨b, hb, hok⟩ := exists_of_bind_eq_ok hok
      obtain ⟨bs, hbs, -⟩ := exists_of_bind_eq_ok hok
      exact Nat.max_le.mpr ⟨hhead.depth_le hb, ih hbs⟩

/-- A list is decoded if its items are, one less deep. -/
theorem decodes_list {d : Decoder α} {js : List Json} {as : List α}
    (h : List.Forall₂ (Decodes n d) js as) : Decodes n (list d) (.array js) as := by
  refine ⟨fun v hv hn => ?_, fun hok => ?_⟩
  · obtain _ | _ | _ | _ | hvs := hv
    have hitems := forall₂_takes h hvs (Draft.itemDepth_le_iff.mp (Nat.le_of_succ_le hn))
    refine ⟨.array (isOrdinary_of_forall₂ hitems), fun s hs => ?_⟩
    obtain ⟨s', henter, hroom⟩ := Standing.exists_enter hs
    have hitems := items_eq_ok hitems (Draft.itemDepth_le_iff.mp hroom)
    rw [list, henter]
    simp only [bind, Except.bind, hitems]
    rfl
  · obtain ⟨s', henter, hok⟩ := exists_of_bind_eq_ok hok
    obtain ⟨bs, hbs, -⟩ := exists_of_bind_eq_ok hok
    rw [Standing.room_of_enter henter]
    exact Nat.succ_le_succ (itemDepth_le_of_items h hbs)

/-! ## Records -/

/-- Whether a field of a record is read from a member of an object with some keys: from every
variation of the value of the member, and where the member may be left out also from nothing. -/
structure Field.Holds (n : Nat) (keys : List String) (field : Field α) (value : Json) (a : α) :
    Prop where
  decodes : Decodes n field.decoder value a
  absent : mayBeLeftOut keys field.name value = true → field.absent = some a

namespace Field

variable {keys : List String} {name : String} {d : Decoder α} {value : Json} {a : α}

/-- A member that may not be left out. -/
theorem Holds.required (h : Decodes n d value a) (hneeded : mayBeLeftOut keys name value = false) :
    (Decoder.required name d).Holds n keys value a :=
  ⟨h, fun hleft => Bool.noConfusion (hneeded.symm.trans hleft)⟩

/-- A member that may be left out only where it has the default. -/
theorem Holds.defaulted {absent : α} (h : Decodes n d value a)
    (hdefault : (value.isNull || value.isDefault) = true → a = absent) :
    (Decoder.defaulted name d absent).Holds n keys value a := by
  refine ⟨h, fun hleft => congrArg some (hdefault ?_).symm⟩
  simp only [mayBeLeftOut, Bool.and_eq_true, Bool.or_eq_true] at hleft ⊢
  exact hleft.2.imp_right And.right

/-- An option that may be left out only where there is none. -/
theorem Holds.optional {value? : Option α} (h : Decodes n (option d) value value?)
    (hnone : (value.isNull || value.isDefault) = true → value? = none) :
    (Decoder.optional name d).Holds n keys value value? :=
  .defaulted h hnone

end Field

/-- Where an element stands in a permutation. -/
theorem exists_append_of_perm_cons {γ : Type} {l rest : List γ} {x : γ}
    (h : l.Perm (x :: rest)) :
    ∃ before after, l = before ++ x :: after ∧ (before ++ after).Perm rest := by
  obtain ⟨before, after, rfl⟩ := List.append_of_mem (h.mem_iff.mpr List.mem_cons_self)
  exact ⟨before, after, rfl, (List.perm_middle.symm.trans h).cons_inv⟩

namespace Fields

variable {αs : List Type} {keys : List String}

/-- Whether the fields of a record are read from the members of an object with some keys, in
the order of declaration. No two fields have the same name. -/
inductive Holds (n : Nat) (keys : List String) : {αs : List Type} → Fields αs →
    List (String × Json) → Values αs → Prop
  | nil : Holds n keys .nil [] ()
  | cons {α : Type} {αs : List Type} {field : Field α} {fields : Fields αs}
      {members : List (String × Json)} {value : Json} {a : α} {as : Values αs}
      (hfield : field.Holds n keys value a)
      (hname : (members.map Prod.fst).contains field.name = false)
      (hrest : Holds n keys fields members as) :
      Holds n keys (.cons field fields) ((field.name, value) :: members) (a, as)

/-- A member that some field takes is stored there. -/
theorem storeAll_of_store {fields : Fields αs} {s : Standing} {key : String} {v : Draft}
    {members : List (Option String × Draft)} {slots stored : Slots αs}
    (h : fields.store s key v slots = .ok (some stored)) :
    fields.storeAll s ((some key, v) :: members) slots = fields.storeAll s members stored := by
  rw [storeAll, h]
  rfl

/-- A member that no field takes has to be complete, and is passed over. -/
theorem storeAll_of_store_none {fields : Fields αs} {s : Standing} {key : String} {v : Draft}
    {members : List (Option String × Draft)} {slots : Slots αs}
    (h : fields.store s key v slots = .ok none) :
    fields.storeAll s ((some key, v) :: members) slots =
      if v.isComplete then fields.storeAll s members slots else .error .malformed := by
  rw [storeAll, h]
  rfl

/-- A member with another name is left to the other fields. -/
theorem store_cons_of_ne {field : Field α} {key : String} (h : field.name ≠ key)
    (fields : Fields αs) (s : Standing) (v : Draft) (slot : Option α) (slots : Slots αs) :
    (Fields.cons field fields).store s key v (slot, slots) =
      (fields.store s key v slots).map (Option.map (slot, ·)) := by
  have hstore : (Fields.cons field fields).store s key v (slot, slots) =
      (fields.store s key v slots).bind fun stored => .ok (stored.map (slot, ·)) := by
    cases slot <;> exact if_neg h
  rw [hstore]
  cases fields.store s key v slots <;> rfl

/-- A member with the name of the first field is decoded and stored there. -/
theorem exists_of_store_name {field : Field α} {fields : Fields αs} {s : Standing} {v : Draft}
    {slot : Option α} {slots : Slots αs} {stored : Option (Slots (α :: αs))}
    (h : (Fields.cons field fields).store s field.name v (slot, slots) = .ok stored) :
    ∃ a, field.decoder s v = .ok a ∧ stored = some (some a, slots) := by
  cases slot with
  | some a =>
      have hstore : (Fields.cons field fields).store s field.name v (some a, slots) =
          fail (.duplicateField field.name) := if_pos rfl
      rw [hstore] at h
      contradiction
  | none =>
      have hstore : (Fields.cons field fields).store s field.name v (none, slots) =
          (field.decoder s v >>= fun a => .ok (some (some a, slots))) := if_pos rfl
      rw [hstore] at h
      obtain ⟨a, ha, hstored⟩ := exists_of_bind_eq_ok h
      exact ⟨a, ha, (Except.ok.inj hstored).symm⟩

/-- Members with other names are stored in the fields after the first one. -/
theorem storeAll_cons {field : Field α} {fields : Fields αs} {s : Standing}
    {members : List (Option String × Draft)} {slots slots' : Slots αs} (slot : Option α)
    (hname : ∀ member ∈ members, member.1 ≠ some field.name)
    (h : fields.storeAll s members slots = .ok slots') :
    (Fields.cons field fields).storeAll s members (slot, slots) = .ok (slot, slots') := by
  induction members generalizing slots with
  | nil =>
      obtain rfl : slots = slots' := Except.ok.inj h
      rfl
  | cons member members ih =>
      rcases member with ⟨_ | key, v⟩
      · exact absurd h (by simp [storeAll])
      rw [List.forall_mem_cons] at hname
      have hne : field.name ≠ key := fun heq => hname.1 (congrArg some heq.symm)
      have hstored := store_cons_of_ne hne fields s v slot slots
      cases hstore : fields.store s key v slots with
      | error fault =>
          rw [storeAll, hstore] at h
          contradiction
      | ok stored =>
          rw [hstore] at hstored
          cases stored with
          | none =>
              rw [storeAll_of_store_none hstore] at h
              refine (storeAll_of_store_none hstored).trans ?_
              split at h
              · rename_i hcomplete
                rw [if_pos hcomplete]
                exact ih hname.2 h
              · contradiction
          | some stored =>
              rw [storeAll_of_store hstore] at h
              exact (storeAll_of_store hstored).trans (ih hname.2 h)

/-- Members are stored one after the other. -/
theorem storeAll_append (fields : Fields αs) (s : Standing)
    (before after : List (Option String × Draft)) (slots : Slots αs) :
    fields.storeAll s (before ++ after) slots =
      (fields.storeAll s before slots).bind (fields.storeAll s after) := by
  induction before generalizing slots with
  | nil => rfl
  | cons member before ih =>
      rcases member with ⟨_ | key, v⟩
      · rfl
      rw [List.cons_append]
      cases hstore : fields.store s key v slots with
      | error fault =>
          rw [storeAll, storeAll, hstore]
          rfl
      | ok stored =>
          cases stored with
          | none =>
              rw [storeAll_of_store_none hstore, storeAll_of_store_none hstore]
              cases v.isComplete with
              | true => exact ih slots
              | false => rfl
          | some stored =>
              rw [storeAll_of_store hstore, storeAll_of_store hstore]
              exact ih stored

/-- A member with the name of the first field is stored there, wherever it stands. -/
theorem storeAll_insert {field : Field α} {fields : Fields αs} {s : Standing} {v : Draft} {a : α}
    {before after : List (Option String × Draft)} {slots slots' : Slots αs}
    (hvalue : field.decoder s v = .ok a)
    (hname : ∀ member ∈ before ++ after, member.1 ≠ some field.name)
    (h : fields.storeAll s (before ++ after) slots = .ok slots') :
    (Fields.cons field fields).storeAll s (before ++ (some field.name, v) :: after)
      (none, slots) = .ok (some a, slots') := by
  rw [List.forall_mem_append] at hname
  rw [storeAll_append] at h
  cases hbefore : fields.storeAll s before slots with
  | error fault =>
      rw [hbefore] at h
      contradiction
  | ok stored =>
      rw [hbefore] at h
      have hstore : (Fields.cons field fields).store s field.name v (none, stored) =
          .ok (some (some a, stored)) := by
        refine (if_pos rfl).trans ?_
        rw [hvalue]
        rfl
      refine (storeAll_append _ s before _ _).trans ?_
      rw [storeAll_cons none hname.1 hbefore]
      exact (storeAll_of_store hstore).trans (storeAll_cons (some a) hname.2 h)

/-- A record without fields skips all members. -/
theorem storeAll_nil {s : Standing} {members : List (Option String × Draft)}
    (h : ∀ member ∈ members, member.1.isSome = true ∧ member.2.isComplete = true) :
    Fields.nil.storeAll s members () = .ok () := by
  induction members with
  | nil => rfl
  | cons member members ih =>
      rw [List.forall_mem_cons] at h
      rcases member with ⟨_ | key, v⟩
      · exact absurd h.1.1 (by simp)
      · have hstore : Fields.nil.store s key v () = .ok none := rfl
        refine (storeAll_of_store_none hstore).trans ?_
        rw [if_pos h.1.2]
        exact ih h.2

/-- A field gets what was stored, or else its value for absence. -/
theorem settle_cons {field : Field α} {fields : Fields αs} {slot : Option α} {a : α}
    {slots : Slots αs} {as : Values αs} (hslot : (slot <|> field.absent) = some a)
    (h : fields.settle slots = .ok as) :
    (Fields.cons field fields).settle (slot, slots) = .ok (a, as) := by
  simp only [Fields.settle, hslot, h]
  rfl

/-- Members that fields take are ordinary. -/
theorem isOrdinary_of_keptMembers {fields : Fields αs} {members : List (String × Json)}
    {as : Values αs} (h : fields.Holds n keys members as) {kept : List (Option String × Draft)}
    (hkept : KeptMembers keys members kept) (hn : ∀ member ∈ kept, member.2.depth ≤ n) :
    ∀ member ∈ kept, member.1.isSome = true ∧ member.2.IsOrdinary := by
  induction h generalizing kept with
  | nil =>
      cases hkept
      exact fun member hmember => absurd hmember List.not_mem_nil
  | cons hfield _ _ ih =>
      obtain _ | ⟨hvalue, hkept⟩ | ⟨_, hkept⟩ := hkept
      · rw [List.forall_mem_cons] at hn ⊢
        exact ⟨⟨rfl, (hfield.decodes.takes _ hvalue hn.1).ordinary⟩, ih hkept hn.2⟩
      · exact ih hkept hn

/-- The members of an object are stored in any order. A field whose member was left out has
its value at the end all the same. -/
theorem exists_storeAll {fields : Fields αs} {members : List (String × Json)} {as : Values αs}
    (h : fields.Holds n keys members as) {kept others written : List (Option String × Draft)}
    (hkept : KeptMembers keys members kept)
    (hothers : ∀ member ∈ others, IsUnknown (members.map Prod.fst) member)
    (hwritten : written.Perm (kept ++ others)) (hn : ∀ member ∈ written, member.2.depth ≤ n)
    {s : Standing} (hs : ∀ member ∈ written, member.2.depth ≤ s.room) :
    ∃ slots, fields.storeAll s written fields.vacant = .ok slots ∧
      fields.settle slots = .ok as := by
  induction h generalizing kept written with
  | nil =>
      cases hkept
      refine ⟨(), storeAll_nil fun member hmember => ?_, rfl⟩
      obtain ⟨key, v, rfl, -, hv⟩ := hothers member (hwritten.mem_iff.mp hmember)
      exact ⟨rfl, hv.isComplete⟩
  | @cons _ _ field fields members value a as hfield hname _ ih =>
      have hdistinct : field.name ∉ members.map Prod.fst := by
        simpa using hname
      have hmore : ∀ member ∈ others, IsUnknown (members.map Prod.fst) member :=
        fun member hmember => (hothers member hmember).mono (List.subset_cons_self _ _)
      have hforeign : ∀ {kept}, KeptMembers keys members kept → ∀ member ∈ kept ++ others,
          member.1 ≠ some field.name := by
        intro kept hkept member hmember heq
        rcases List.mem_append.mp hmember with hmember | hmember
        · obtain ⟨key, hkey, hsome⟩ := hkept.exists_key hmember
          rw [Option.some.inj (heq.symm.trans hsome)] at hdistinct
          exact hdistinct hkey
        · obtain ⟨key, v, rfl, hkey, -⟩ := hothers member hmember
          exact hkey (List.mem_cons.mpr (Or.inl (Option.some.inj heq)))
      obtain _ | ⟨hvalue, hkept⟩ | ⟨hleft, hkept⟩ := hkept
      · -- The member of the first field is taken out, and the others stay as they are.
        obtain ⟨before, after, rfl, hperm⟩ := exists_append_of_perm_cons hwritten
        rw [List.forall_mem_append, List.forall_mem_cons] at hn hs
        obtain ⟨slots, hstored, hsettled⟩ := ih hkept hmore hperm
          (List.forall_mem_append.mpr ⟨hn.1, hn.2.2⟩) (List.forall_mem_append.mpr ⟨hs.1, hs.2.2⟩)
        have htakes := hfield.decodes.takes _ hvalue hn.2.1
        refine ⟨(some a, slots), storeAll_insert (htakes.eq_ok s hs.2.1) ?_ hstored,
          settle_cons rfl hsettled⟩
        exact fun member hmember => hforeign hkept member (hperm.mem_iff.mp hmember)
      · obtain ⟨slots, hstored, hsettled⟩ := ih hkept hmore hwritten hn hs
        refine ⟨(none, slots), storeAll_cons none ?_ hstored,
          settle_cons (hfield.absent hleft) hsettled⟩
        exact fun member hmember => hforeign hkept member (hwritten.mem_iff.mp hmember)

/-- A field after the end of a list gets its value for absence. -/
theorem inOrder_cons_nil {field : Field α} {fields : Fields αs} {a : α}
    (h : field.absent = some a) (s : Standing) (length : ExpectedLength) (index : Nat) :
    (Fields.cons field fields).inOrder s true length index [] =
      (fields.inOrder s true length (index + 1) []).map fun r => ((a, r.1), r.2) := by
  simp only [Fields.inOrder, h, if_pos]
  cases fields.inOrder s true length (index + 1) [] <;> rfl

/-- A field takes the value at its position. -/
theorem inOrder_cons_cons {field : Field α} {fields : Fields αs} {s : Standing} {v : Draft} {a : α}
    (h : field.decoder s v = .ok a) (length : ExpectedLength) (index : Nat) (vs : List Draft) :
    (Fields.cons field fields).inOrder s true length index (v :: vs) =
      (fields.inOrder s true length (index + 1) vs).map fun r => ((a, r.1), r.2) := by
  simp only [Fields.inOrder, h]
  cases fields.inOrder s true length (index + 1) vs <;> rfl

/-- Values that fields take by position are ordinary. -/
theorem isOrdinary_of_keptValues {fields : Fields αs} {members : List (String × Json)}
    {as : Values αs} (h : fields.Holds n keys members as) {vs : List Draft}
    (hkept : KeptValues keys members vs) (hn : ∀ v ∈ vs, v.depth ≤ n) :
    ∀ v ∈ vs, v.IsOrdinary := by
  induction h generalizing vs with
  | nil =>
      cases hkept
      exact fun v hv => absurd hv List.not_mem_nil
  | cons hfield _ _ ih =>
      obtain _ | ⟨hvalue, hkept⟩ := hkept
      · exact fun v hv => absurd hv List.not_mem_nil
      · rw [List.forall_mem_cons] at hn ⊢
        exact ⟨(hfield.decodes.takes _ hvalue hn.1).ordinary, ih hkept hn.2⟩

/-- The elements of an array belong to the fields in the order of declaration. -/
theorem inOrder_eq_ok {fields : Fields αs} {members : List (String × Json)} {as : Values αs}
    (h : fields.Holds n keys members as) {vs : List Draft} (hkept : KeptValues keys members vs)
    (hn : ∀ v ∈ vs, v.depth ≤ n) {s : Standing} (hs : ∀ v ∈ vs, v.depth ≤ s.room)
    (length : ExpectedLength) (index : Nat) :
    fields.inOrder s true length index vs = .ok (as, []) := by
  induction h generalizing vs index with
  | nil =>
      cases hkept
      rfl
  | cons hfield _ _ ih =>
      obtain hleft | ⟨hvalue, hkept⟩ := hkept
      · rw [List.forall_mem_cons] at hleft
        refine (inOrder_cons_nil (hfield.absent hleft.1) s length index).trans ?_
        rw [ih (.leave hleft.2) hn hs]
        rfl
      · rw [List.forall_mem_cons] at hn hs
        have htakes := hfield.decodes.takes _ hvalue hn.1
        refine (inOrder_cons_cons (htakes.eq_ok s hs.1) length index _).trans ?_
        rw [ih hkept hn.2 hs.2]
        rfl

section

variable {fields : Fields αs} {members : List (String × Json)} {as : Values αs} {name : String}
  {make : Values αs → α} (h : fields.Holds n keys members as)
include h

/-- An object is taken in any order of its members, with unknown ones among them. -/
theorem takes_object {kept others written : List (Option String × Draft)}
    (hkept : KeptMembers keys members kept)
    (hothers : ∀ member ∈ others, IsUnknown (members.map Prod.fst) member)
    (hwritten : written.Perm (kept ++ others)) (hn : Draft.memberDepth written ≤ n) :
    (record name fields make).Takes (.object written true) (make as) := by
  have hn := Draft.memberDepth_le_iff.mp hn
  have hordinary : ∀ member ∈ written, member.1.isSome = true ∧ member.2.IsOrdinary := by
    intro member hmember
    rcases List.mem_append.mp (hwritten.mem_iff.mp hmember) with hmember | hmember
    · refine isOrdinary_of_keptMembers h hkept (fun member hmember => ?_) member hmember
      exact hn member (hwritten.mem_iff.mpr (List.mem_append_left _ hmember))
    · obtain ⟨key, v, rfl, -, hv⟩ := hothers member hmember
      exact ⟨rfl, hv⟩
  refine ⟨.object (fun member hmember => (hordinary member hmember).1)
    (fun member hmember => (hordinary member hmember).2), fun s hs => ?_⟩
  obtain ⟨s', henter, hroom⟩ := Standing.exists_enter hs
  obtain ⟨slots, hstored, hsettled⟩ :=
    exists_storeAll h hkept hothers hwritten hn (Draft.memberDepth_le_iff.mp hroom)
  rw [record, henter]
  simp only [bind, Except.bind, hstored, requireClosed, if_pos, hsettled]
  rfl

/-- An array is taken by position. -/
theorem takes_array {vs : List Draft} (hkept : KeptValues keys members vs)
    (hn : Draft.itemDepth vs ≤ n) :
    (record name fields make).Takes (.array vs true) (make as) := by
  have hn := Draft.itemDepth_le_iff.mp hn
  refine ⟨.array (isOrdinary_of_keptValues h hkept hn), fun s hs => ?_⟩
  obtain ⟨s', henter, hroom⟩ := Standing.exists_enter hs
  have hvalues := inOrder_eq_ok h hkept hn (Draft.itemDepth_le_iff.mp hroom)
    (.record name fields.size) 0
  rw [record, henter]
  simp only [bind, Except.bind, hvalues, requireEnd]
  simp [requireClosed]

end

end Fields

namespace Fields

/-- The value of a field is stored only where there is room for it. -/
theorem Holds.depth_le_of_store {αs : List Type} {fields : Fields αs} {keys : List String}
    {members : List (String × Json)} {as : Values αs} (h : fields.Holds n keys members as)
    {member : String × Json} (hmember : member ∈ members) {s : Standing}
    {slots : Slots αs} {stored : Option (Slots αs)}
    (hok : fields.store s member.1 member.2.draft slots = .ok stored) :
    member.2.draft.depth ≤ s.room := by
  induction h with
  | nil => exact absurd hmember List.not_mem_nil
  | @cons _ _ field fields members value a as hfield hname _ ih =>
      obtain ⟨slot, slots⟩ := slots
      rcases List.mem_cons.mp hmember with rfl | hmember
      · obtain ⟨b, hb, -⟩ := exists_of_store_name hok
        exact hfield.decodes.depth_le hb
      · have hne : field.name ≠ member.1 := by
          intro heq
          rw [heq, ← Bool.not_eq_true, List.contains_iff_mem] at hname
          exact hname (List.mem_map_of_mem hmember)
        rw [store_cons_of_ne hne] at hok
        obtain ⟨stored, hstored, -⟩ := exists_of_map_eq_ok hok
        exact ih hmember hstored

/-- An object is gone through only where there is room for the values of all fields. -/
theorem memberDepth_le_of_storeAll {αs : List Type} {fields : Fields αs} {s : Standing}
    {members : List (String × Json)} {slots slots' : Slots αs}
    (h : ∀ member ∈ members, ∀ {slots : Slots αs} {stored : Option (Slots αs)},
      fields.store s member.1 member.2.draft slots = .ok stored →
        member.2.draft.depth ≤ s.room)
    (hok : fields.storeAll s (Json.memberDrafts members) slots = .ok slots') :
    Draft.memberDepth (Json.memberDrafts members) ≤ s.room := by
  induction members generalizing slots with
  | nil => exact Nat.zero_le _
  | cons member members ih =>
      rw [List.forall_mem_cons] at h
      obtain ⟨stored, hstored, hok⟩ := exists_of_bind_eq_ok hok
      refine Nat.max_le.mpr ⟨h.1 hstored, ?_⟩
      cases stored with
      | some slots => exact ih h.2 hok
      | none =>
          dsimp only at hok
          split at hok
          · exact ih h.2 hok
          · contradiction

end Fields

/-- A record is decoded from an object or an array. -/
theorem decodes_record {αs : List Type} {name : String} {fields : Fields αs}
    {make : Values αs → α} {members : List (String × Json)} {as : Values αs} {a : α}
    (h : fields.Holds n (members.map Prod.fst) members as)
    (hrecord : isChoice (members.map Prod.fst) = false) (hmake : make as = a) :
    Decodes n (record name fields make) (.object members) a := by
  subst hmake
  refine ⟨fun v hv hn => ?_, fun hok => ?_⟩
  · rcases hv.cases_record hrecord with
      ⟨kept, others, written, rfl, hkept, hothers, hwritten⟩ | ⟨vs, rfl, hkept⟩
    · exact Fields.takes_object h hkept hothers hwritten (Nat.le_of_succ_le hn)
    · exact Fields.takes_array h hkept (Nat.le_of_succ_le hn)
  · obtain ⟨s', henter, hok⟩ := exists_of_bind_eq_ok hok
    obtain ⟨slots, hslots, -⟩ := exists_of_bind_eq_ok hok
    rw [Standing.room_of_enter henter]
    refine Nat.succ_le_succ (Fields.memberDepth_le_of_storeAll (fun member hmember => ?_) hslots)
    exact h.depth_le_of_store hmember

/-! ## Tagged unions -/

/-- Whether a member is `type` or `value`. -/
def isTagMember (member : Option String × Draft) : Bool :=
  member.1 == some "type" || member.1 == some "value"

section

variable {union : String} {variants : List (Variant α)}

/-- Members of an object with type and value are read one by one. -/
theorem progressAll_cons {key : String} {s : Standing} {v : Draft} {p p' : Progress α}
    (h : progress union variants s key v p = .ok p') (members : List (Option String × Draft)) :
    progressAll union variants s ((some key, v) :: members) p =
      progressAll union variants s members p' := by
  rw [progressAll, h]
  rfl

/-- Only `type` and `value` are read. -/
theorem progressAll_filter {members : List (Option String × Draft)}
    (h : ∀ member ∈ members, isTagMember member = false →
      member.1.isSome = true ∧ member.2.isComplete = true) (s : Standing) (p : Progress α) :
    progressAll union variants s members p =
      progressAll union variants s (members.filter isTagMember) p := by
  induction members generalizing p with
  | nil => rfl
  | cons member members ih =>
      rw [List.forall_mem_cons] at h
      rcases member with ⟨key?, v⟩
      cases htag : isTagMember (key?, v) with
      | true =>
          rw [List.filter_cons_of_pos htag]
          cases key? with
          | none => rfl
          | some key =>
              rw [progressAll, progressAll]
              cases progress union variants s key v p with
              | error fault => rfl
              | ok p' => exact ih h.2 p'
      | false =>
          rw [List.filter_cons_of_neg (by simp [htag])]
          obtain ⟨hsome, hcomplete⟩ := h.1 htag
          obtain ⟨key, rfl⟩ := Option.isSome_iff_exists.mp hsome
          have hkey : key ≠ "type" ∧ key ≠ "value" := by
            simpa [isTagMember] using htag
          have hskip : progress union variants s key v p = .ok p := by
            cases p
            all_goals exact (if_neg hkey.1).trans ((if_neg hkey.2).trans (if_pos hcomplete))
          rw [progressAll_cons hskip]
          exact ih h.2 p

/-- The variant is known once `type` has been read. -/
theorem progress_type {name : String} {variant : Variant α}
    (h : (byName variants).lookup name = some variant) (s : Standing) :
    progress union variants s "type" (.string (some name)) .start = .ok (.typed variant) := by
  rw [progress, if_pos rfl]
  simp only [choice, named, h]
  rfl

/-- The contents are read at once if the variant is known. -/
theorem progress_value {name : String} {contents : Decoder α} {s : Standing} {v : Draft} {a : α}
    (h : contents s v = .ok a) :
    progress union variants s "value" v (.typed (.carrying name contents)) =
      .ok (.complete a) := by
  rw [progress, if_neg (by decide), if_pos rfl]
  simp only [Variant.decode, h]
  rfl

/-- Contents that come first are held back. -/
theorem progress_held {s : Standing} {v : Draft} (h : v.isSound s.room = true) :
    progress union variants s "value" v .start = .ok (.held v) := by
  rw [progress, if_neg (by decide), if_pos rfl]
  exact if_pos h

/-- Contents that were held back are read once the variant is known. -/
theorem progress_type_held {name : String} {contents : Decoder α} {s : Standing} {v : Draft}
    {a : α} (hname : (byName variants).lookup name = some (.carrying name contents))
    (h : contents s.hold v = .ok a) :
    progress union variants s "type" (.string (some name)) (.held v) = .ok (.complete a) := by
  rw [progress, if_pos rfl]
  simp only [choice, named, hname, bind, Except.bind, Variant.decode, h]
  rfl

/-- An array of a name and contents is read as the variant of the name. -/
theorem tagged_array {name : String} {variant : Variant α} {s s' : Standing} {v : Draft} {a : α}
    (hname : (byName variants).lookup name = some variant) (henter : s.enter = .ok s')
    (h : variant.decode union s' v = .ok a) :
    tagged union variants s (.array [.string (some name), v] true) = .ok a := by
  rw [tagged, henter]
  simp only [variantOf, named, hname, bind, Except.bind, h, requireEnd]
  simp [requireClosed]

/-- An object is decoded from its `type` and `value`. All other members are skipped. -/
theorem takes_tagged {members : List (Option String × Draft)} {a : α}
    (hskipped : ∀ member ∈ members, isTagMember member = false →
      member.1.isSome = true ∧ member.2.IsOrdinary)
    (hread : ∀ member ∈ members.filter isTagMember,
      member.1.isSome = true ∧ member.2.IsOrdinary)
    (hvalue : ∀ s : Standing, Draft.memberDepth members ≤ s.room → ∃ p : Progress α,
      progressAll union variants s (members.filter isTagMember) .start = .ok p ∧
        conclude p = .ok a) :
    (tagged union variants).Takes (.object members true) a := by
  have hordinary : ∀ member ∈ members, member.1.isSome = true ∧ member.2.IsOrdinary := by
    intro member hmember
    cases htag : isTagMember member with
    | true => exact hread member (List.mem_filter.mpr ⟨hmember, htag⟩)
    | false => exact hskipped member hmember htag
  refine ⟨.object (fun member hmember => (hordinary member hmember).1)
    (fun member hmember => (hordinary member hmember).2), fun s hs => ?_⟩
  obtain ⟨s', henter, hroom⟩ := Standing.exists_enter hs
  obtain ⟨p, hp, hconclude⟩ := hvalue s' hroom
  rw [← progressAll_filter (fun member hmember htag =>
    (hskipped member hmember htag).imp_right Draft.IsOrdinary.isComplete)] at hp
  rw [tagged, henter]
  simp only [bind, Except.bind, hp]
  exact hconclude

/-- The members of a choice among others: those without a meaning can be skipped. -/
theorem filter_choice {kept others written : List (Option String × Draft)}
    (hkept : ∀ member ∈ kept, isTagMember member = true)
    (hothers : ∀ member ∈ others, IsUnknown ["type", "value"] member)
    (hwritten : written.Perm (kept ++ others)) :
    (written.filter isTagMember).Perm kept ∧
      ∀ member ∈ written, isTagMember member = false →
        member.1.isSome = true ∧ member.2.IsOrdinary := by
  constructor
  · have hnone : others.filter isTagMember = [] := by
      refine List.filter_eq_nil_iff.mpr fun member hmember => ?_
      obtain ⟨key, v, rfl, hkey, -⟩ := hothers member hmember
      simpa [isTagMember] using hkey
    have hfilter := hwritten.filter isTagMember
    rwa [List.filter_append, List.filter_eq_self.mpr hkept, hnone, List.append_nil] at hfilter
  · intro member hmember htag
    rcases List.mem_append.mp (hwritten.mem_iff.mp hmember) with hmember | hmember
    · exact absurd ((hkept member hmember).symm.trans htag) (by simp)
    · obtain ⟨key, v, rfl, -, hv⟩ := hothers member hmember
      exact ⟨rfl, hv⟩

/-- A variant without contents is decoded from its name. -/
theorem decodes_bare {name : String} {a : α}
    (hname : (byName variants).lookup name = some (.bare name a)) :
    Decodes n (tagged union variants) (Json.bare name) a := by
  refine ⟨fun v hv _ => ?_, fun hok => ?_⟩
  · rcases hv.cases_bare with ⟨others, written, rfl, hothers, hwritten⟩ | rfl
    · obtain ⟨hfilter, hskipped⟩ := filter_choice (by simp [isTagMember]) hothers hwritten
      rw [List.perm_singleton] at hfilter
      refine takes_tagged hskipped (by simp [hfilter, Draft.IsOrdinary.string]) fun s _ => ?_
      rw [hfilter]
      exact ⟨_, progressAll_cons (progress_type hname s) [], rfl⟩
    · refine ⟨.array (by simp [Draft.IsOrdinary.string, Draft.IsOrdinary.null]), fun s hs => ?_⟩
      obtain ⟨s', henter, -⟩ := Standing.exists_enter hs
      exact tagged_array hname henter rfl
  · obtain ⟨s', henter, -⟩ := exists_of_bind_eq_ok hok
    rw [Standing.room_of_enter henter]
    exact Nat.succ_le_succ (Nat.zero_le _)

/-- A variant with contents is decoded one layer above its contents. The contents are held
back if they come first. -/
theorem decodes_carrying {name : String} {j : Json} {a : α} {contents : Decoder α}
    (hname : (byName variants).lookup name = some (.carrying name contents))
    (h : Decodes n contents j a) :
    Decodes (n + 1) (tagged union variants) (Json.carrying name j) a := by
  refine ⟨fun v hv hn => ?takes, fun {s b} hok => ?depth_le⟩
  case depth_le =>
    obtain ⟨s', henter, hok⟩ := exists_of_bind_eq_ok hok
    obtain ⟨p, hp, -⟩ := exists_of_bind_eq_ok hok
    have hstart : progressAll union variants s' (Json.memberDrafts [("type", .string name),
        ("value", j)]) .start =
          progressAll union variants s' (Json.memberDrafts [("value", j)])
            (.typed (.carrying name contents)) := progressAll_cons (progress_type hname s') _
    rw [hstart] at hp
    obtain ⟨p, hp, -⟩ := exists_of_bind_eq_ok hp
    rw [progress, if_neg (by decide), if_pos rfl] at hp
    obtain ⟨b, hb, -⟩ := exists_of_bind_eq_ok hp
    rw [Standing.room_of_enter henter]
    have hvalue : Draft.memberDepth (Json.memberDrafts [("value", j)]) ≤ s'.room :=
      Nat.max_le.mpr ⟨h.depth_le hb, Nat.zero_le _⟩
    exact Nat.succ_le_succ (Nat.max_le.mpr ⟨Nat.zero_le _, hvalue⟩)
  obtain ⟨w, hw, ⟨others, written, rfl, hothers, hwritten⟩ | rfl⟩ := hv.cases_carrying
  · obtain ⟨hfilter, hskipped⟩ := filter_choice (by simp [isTagMember]) hothers hwritten
    have hmember : (some "value", w) ∈ written :=
      (List.mem_filter.mp (hfilter.mem_iff.mpr (by simp))).1
    have htakes := h.takes w hw (Draft.memberDepth_le_iff.mp (Nat.le_of_succ_le_succ hn) _ hmember)
    refine takes_tagged hskipped (fun member hmember => ?_) fun s hs => ?_
    · rw [hfilter.mem_iff, List.mem_pair] at hmember
      rcases hmember with rfl | rfl
      · exact ⟨rfl, .string name⟩
      · exact ⟨rfl, htakes.ordinary⟩
    · have hroom := Draft.memberDepth_le_iff.mp hs _ hmember
      have hdecode := htakes.eq_ok s hroom
      have hheld := htakes.eq_ok s.hold hroom
      rcases List.perm_pair.mp hfilter with heq | heq
      · rw [heq, progressAll_cons (progress_type hname s)]
        exact ⟨_, progressAll_cons (progress_value hdecode) [], rfl⟩
      · rw [heq, progressAll_cons (progress_held (htakes.ordinary.isSound hroom))]
        exact ⟨_, progressAll_cons (progress_type_held hname hheld) [], rfl⟩
  · have htakes := h.takes w hw (Draft.itemDepth_le_iff.mp (Nat.le_of_succ_le_succ hn) w (by simp))
    refine ⟨.array (by simp [Draft.IsOrdinary.string, htakes.ordinary]), fun s hs => ?_⟩
    obtain ⟨s', henter, hroom⟩ := Standing.exists_enter hs
    exact tagged_array hname henter
      (htakes.eq_ok s' (Draft.itemDepth_le_iff.mp hroom w (by simp)))

end

end Decoder

end EcmaWriter
