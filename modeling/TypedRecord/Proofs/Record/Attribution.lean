import TypedRecord.Proofs.Record.Refusal
import TypedRecord.Proofs.Record.Supply

namespace TypedRecord

inductive FieldType.Guards : FieldType → Code → Prop
  | str (limits : Limits) : FieldType.Guards (.str limits) .stringLength
  | seq (items : FieldType) (limits : Limits) : FieldType.Guards (.seq items limits) .arrayLength
  | int (range : Range) (bound : Bound) : FieldType.Guards (.int range) bound.code
  | num (range : Range) (bound : Bound) : FieldType.Guards (.num range) bound.code
  | member {members : List FieldType} {t : FieldType} {code : Code} :
      t ∈ members → FieldType.Guards t code → FieldType.Guards (.union members) code

/-- What a construction can fail with under a path from the root, where the names of fields lead
along the path. Only a key that belongs to no field leads nowhere. -/
inductive FieldType.Explains (root : FieldType) : Path → Fault → Prop
  | wrongType {p : Path} {t : FieldType} {found : Shape} : root.follow? Field.name p = some t →
      FieldType.Explains root p (.wrongType t.code found)
  | notAnObject {p : Path} {s : Schema} {found : Json.Kind} :
      root.follow? Field.name p = some (.record s) →
      FieldType.Explains root p (.notAnObject s.name found)
  | schemaConflict {p : Path} {s : Schema} {found : String} :
      root.follow? Field.name p = some (.record s) →
      FieldType.Explains root p (.schemaConflict s.name found)
  | notNullable {p : Path} {t : FieldType} : root.follow? Field.name p = some t →
      FieldType.Explains root p .notNullable
  | outOfBounds {p : Path} {t : FieldType} {breach : Breach} :
      root.follow? Field.name p = some t → t.Guards breach.code →
      FieldType.Explains root p (.outOfBounds breach)
  | duplicateField {parent : Path} {s : Schema} {f : Field} :
      root.follow? Field.name parent = some (.record s) → f ∈ s.fields →
      FieldType.Explains root (parent.key f.name) (.duplicateField f.name)
  | missingField {parent : Path} {s : Schema} {f : Field} :
      root.follow? Field.name parent = some (.record s) → f ∈ s.fields → f.required = true →
      FieldType.Explains root (parent.key f.name) (.missingField s.name f.name)
  | unknownField {parent : Path} {s : Schema} {key : String} :
      root.follow? Field.name parent = some (.record s) →
      (∀ f ∈ s.fields, f.name ≠ key ∧ f.wireKey ≠ key) →
      FieldType.Explains root (parent.key key) (.unknownField s.name key)

namespace FieldType

variable {t u : FieldType} {json : Json}

theorem Broken.guards {b : Breach} (h : t.Broken json b) : t.Guards b.code := by
  induction h with
  | str h => exact h.code ▸ .str _
  | int h =>
    cases h with
    | value => exact .int _ _
  | num h =>
    cases h with
    | value => exact .num _ _
  | seq h => exact h.code ▸ .seq _ _
  | union hm _ ih => exact .member hm ih

theorem Explains.under {step : Path.Step} {p : Path} {cause : Fault}
    (ht : t.step? Field.name step = some u) (h : u.Explains p cause) :
    t.Explains (p.under step) cause := by
  cases h with
  | wrongType hp => exact .wrongType ((follow?_under ht).trans hp)
  | notAnObject hp => exact .notAnObject ((follow?_under ht).trans hp)
  | schemaConflict hp => exact .schemaConflict ((follow?_under ht).trans hp)
  | notNullable hp => exact .notNullable ((follow?_under ht).trans hp)
  | outOfBounds hp hb => exact .outOfBounds ((follow?_under ht).trans hp) hb
  | duplicateField hp hf => exact .duplicateField ((follow?_under ht).trans hp) hf
  | missingField hp hf hr => exact .missingField ((follow?_under ht).trans hp) hf hr
  | unknownField hp hno => exact .unknownField ((follow?_under ht).trans hp) hno

theorem exists_follow?_key {parent : Path} {s : Schema} {f : Field}
    (hp : t.follow? Field.name parent = some (.record s)) (hf : f ∈ s.fields) :
    ∃ u, t.follow? Field.name (parent.key f.name) = some u := by
  have hfind : (s.fields.find? (·.name = f.name)).isSome :=
    List.find?_isSome.mpr ⟨f, hf, decide_eq_true rfl⟩
  obtain ⟨g, hg⟩ := Option.isSome_iff_exists.mp hfind
  refine ⟨g.type, ?_⟩
  rw [follow?] at hp ⊢
  rw [Path.key, Path.push, List.foldlM_append, hp]
  simp [step?, hg]

theorem Explains.exists_follow? {p : Path} {cause : Fault} (h : t.Explains p cause) :
    (∃ u, t.follow? Field.name p = some u) ∨ ∃ record key, cause = .unknownField record key := by
  cases h with
  | wrongType hp | notAnObject hp | schemaConflict hp | notNullable hp | outOfBounds hp =>
    exact .inl ⟨_, hp⟩
  | duplicateField hp hf | missingField hp hf => exact .inl (exists_follow?_key hp hf)
  | unknownField => exact .inr ⟨_, _, rfl⟩

end FieldType

section

variable {α : Type} {s : Schema} {convert : Field → α → Except ValidationError Slot}
  {entries : List (String × α)} {entry : String × α} {slots : List Slot} {e : ValidationError}

theorem Schema.meant?_eq_none_iff {key : String} :
    s.meant? key = none ↔ ∀ f ∈ s.fields, f.name ≠ key ∧ f.wireKey ≠ key := by
  simp only [meant?, Option.or_eq_none_iff, List.find?_eq_none, decide_eq_true_eq]
  exact forall₂_and.symm

variable (s convert) in
/-- Why an input cannot be placed: its key means no field, a field that was supplied before, or one
that does not take it. -/
inductive Schema.Misfit (entry : String × α) : ValidationError → Prop
  | unknown : s.meant? entry.1 = none →
      Schema.Misfit entry ⟨Path.root.key entry.1, .unknownField s.name entry.1⟩
  | duplicate {f : Field} : s.meant? entry.1 = some f →
      Schema.Misfit entry ⟨Path.root.key f.name, .duplicateField f.name⟩
  | refused {f : Field} {e : ValidationError} : s.meant? entry.1 = some f →
      convert f entry.2 = .error e → Schema.Misfit entry (e.under (.key f.name))

namespace Schema

theorem misfit_of_place_eq_error (h : Intake.place s.name
    (s.fields.map fun f ↦ ⟨f, convert f⟩) slots entry = .error e) : s.Misfit convert entry e := by
  have hmeant := map_fst_resolve? s convert entry.1
  unfold Intake.place at h
  split at h
  next hr =>
    cases h
    rw [hr] at hmeant
    exact .unknown (Option.map_eq_none_iff.mp hmeant.symm)
  next intake i hr =>
    rw [hr] at hmeant
    obtain ⟨f, hf, rfl⟩ := Option.map_eq_some_iff.mp hmeant.symm
    split at h
    next =>
      cases h
      exact .duplicate hf
    next =>
      obtain ⟨e', he, rfl⟩ := Located.within_eq_error.mp (Located.map_eq_error.mp h)
      exact .refused hf he

theorem exists_misfit_of_foldlM_eq_error (h : entries.foldlM
    (Intake.place s.name (s.fields.map fun f ↦ ⟨f, convert f⟩)) slots = .error e) :
    ∃ entry ∈ entries, s.Misfit convert entry e := by
  induction entries generalizing slots with
  | nil => cases h
  | cons entry rest ih =>
    rw [List.foldlM_cons] at h
    obtain h | ⟨after, -, h⟩ := Located.bind_eq_error.mp h
    · exact ⟨entry, List.mem_cons_self, misfit_of_place_eq_error h⟩
    · obtain ⟨other, hm, hmisfit⟩ := ih h
      exact ⟨other, List.mem_cons_of_mem _ hm, hmisfit⟩

/-- Inputs are refused for one of them, or for the lack of one. -/
theorem exists_of_assemble_names_eq_error (h : Intake.assemble .names s.name
    (s.fields.map fun f ↦ ⟨f, convert f⟩) entries = .error e) :
    (∃ entry ∈ entries, s.Misfit convert entry e) ∨
      ∃ f ∈ s.fields, f.required = true ∧
        e = ⟨Path.root.key f.name, .missingField s.name f.name⟩ := by
  obtain h | ⟨filled, -, h⟩ := Located.bind_eq_error.mp h
  · exact .inl (exists_misfit_of_foldlM_eq_error h)
  · obtain h | ⟨_, -, h⟩ := Located.bind_eq_error.mp h
    · obtain ⟨⟨intake, slot⟩, hm, hr, -, rfl⟩ := Intake.exists_of_requireAll_eq_error h
      obtain ⟨f, hf, rfl⟩ := List.mem_map.mp (List.of_mem_zip hm).1
      exact .inr ⟨f, hf, hr, rfl⟩
    · cases h

/-- The fields of a record explain its failures, if they explain those of their own inputs. -/
theorem explains_assemble (hs : s.Built)
    (hc : ∀ f ∈ s.fields, ∀ entry ∈ entries, ∀ e, convert f entry.2 = .error e →
      f.type.Explains e.path e.cause)
    (h : Intake.assemble .names s.name (s.fields.map fun f ↦ ⟨f, convert f⟩) entries = .error e) :
    (FieldType.record s).Explains e.path e.cause := by
  have hroot : (FieldType.record s).follow? Field.name .root = some (.record s) := rfl
  obtain ⟨entry, hm, h⟩ | ⟨f, hf, hr, rfl⟩ := exists_of_assemble_names_eq_error h
  · cases h with
    | unknown hn => exact .unknownField hroot (meant?_eq_none_iff.mp hn)
    | duplicate hf => exact .duplicateField hroot (mem_of_meant? hf)
    | refused hf he =>
      have hf := mem_of_meant? hf
      exact (hc _ hf entry hm _ he).under (FieldType.step?_field hs.names hf)
  · exact .missingField hroot hf hr

end Schema

end

namespace FieldType

variable {t : FieldType} {json : Json} {e : ValidationError}

def Accounts (t : FieldType) : Prop :=
  ∀ json e, t.accept .names json = .error e → t.Explains e.path e.cause

/-- The check of a part refuses null as well. -/
theorem Accounts.refuseNull (ht : t.Accounts)
    (h : TypedRecord.refuseNull (t.accept .names) json = .error e) :
    t.Explains e.path e.cause := by
  obtain ⟨-, rfl⟩ | ⟨-, h⟩ := refuseNull_eq_error.mp h
  · exact .notNullable rfl
  · exact ht json e h

theorem Accounts.check {f : Field} (hf : f.type.Accounts) (h : f.check .names json = .error e) :
    f.type.Explains e.path e.cause := by
  obtain ⟨-, -, rfl⟩ | ⟨-, h⟩ := slotOf_eq_error.mp h
  · exact .notNullable rfl
  · exact hf json e h

theorem accounts_scalar (hs : t.isScalar) (ht : t.Built) : t.Accounts := by
  intro json e h
  obtain rfl | ⟨b, hb, rfl⟩ := accept_scalar_eq_error hs ht h
  · exact .wrongType rfl
  · exact .outOfBounds rfl hb.guards

theorem explains_length {items : FieldType} {limits : Limits} {length : Nat} {b : Breach}
    (h : limits.Broken .array length b) :
    (seq items limits).Explains .root (.outOfBounds b) :=
  .outOfBounds rfl (h.code ▸ .seq items limits)

theorem accounts {t : FieldType} : t.Built → t.Accounts := by
  induction t using FieldType.induction with
  | scalar t hs =>
    intro ht
    exact accounts_scalar hs ht
  | record s ih =>
    intro ht json e h
    obtain rfl | ⟨entries, rfl, ha⟩ := accept_record_eq_error h
    · exact .notAnObject rfl
    · rw [Schema.accept_eq] at ha
      refine Schema.explains_assemble ht.record (fun f hf entry _ e he ↦ ?_)
        (Located.map_eq_error.mp ha)
      exact (ih f hf (ht.record.field hf)).check he
  | seq items limits ih =>
    intro ht json e h
    obtain rfl | ⟨elements, rfl, ⟨b, hb, rfl⟩ | ⟨i, a, e', -, he, rfl⟩⟩ := accept_seq_eq_error h
    · exact .wrongType rfl
    · exact explains_length hb
    · exact ((ih ht.seq).refuseNull he).under rfl
  | map values ih =>
    intro ht json e h
    obtain rfl | ⟨entries, rfl, entry, -, e', he, rfl⟩ := accept_map_eq_error h
    · exact .wrongType rfl
    · exact ((ih ht.map).refuseNull he).under rfl

end FieldType

theorem Schema.explains_adopt {s : Schema} {r : Record} {e : ValidationError}
    (h : s.adopt r = .error e) : (FieldType.record s).Explains e.path e.cause := by
  unfold adopt at h
  split at h
  next => cases h
  next =>
    cases h
    exact .schemaConflict rfl

theorem Field.explains_receive {f : Field} (hf : f.type.Built) {input : Input}
    {e : ValidationError} (h : f.receive input = .error e) : f.type.Explains e.path e.cause := by
  cases input with
  | null => exact (FieldType.accounts hf).check (show f.check .names .null = .error e from h)
  | json value => exact (FieldType.accounts hf).check (show f.check .names value = .error e from h)
  | record r =>
    simp only [receive] at h
    split at h
    next expected ht =>
      rw [ht]
      exact Schema.explains_adopt (Located.map_eq_error.mp h)
    next =>
      cases h
      exact .wrongType rfl
  | records rs =>
    simp only [receive] at h
    split at h
    next expected limits ht =>
      rw [ht]
      obtain ⟨b, hb, rfl⟩ | ⟨-, h⟩ := guardBreach_eq_error.mp h
      · exact FieldType.explains_length (Limits.broken_of_breach? hb)
      · obtain ⟨i, r, e', -, he, rfl⟩ :=
          Located.exists_of_traverse_eq_error (Located.map_eq_error.mp h)
        exact (Schema.explains_adopt he).under rfl
    next items limits _ ht =>
      rw [ht]
      cases h
      exact .wrongType rfl
    next =>
      cases h
      exact .wrongType rfl

theorem Schema.explains_construct {s : Schema} (hs : s.Built) {inputs : List (String × Input)}
    {e : ValidationError} (h : s.construct inputs = .error e) :
    (FieldType.record s).Explains e.path e.cause :=
  explains_assemble hs (fun _ hf _ _ _ he ↦ Field.explains_receive (hs.field hf) he)
    (Located.map_eq_error.mp h)

namespace Schema

variable {s : Schema} {f : Field} {i : Nat} {entry : String × Input}
  {before after : List (String × Input)} {slots : List Slot} {e : ValidationError}

/-- Every key means a field that takes its input, and no two keys mean the same field. -/
structure Takes (s : Schema) (inputs : List (String × Input)) : Prop where
  meant : ∀ p ∈ inputs, ∃ f, s.meant? p.1 = some f ∧ ∃ slot, f.receive p.2 = .ok slot
  distinct : (inputs.map fun p ↦ s.meant? p.1).Nodup

/-- Such inputs are placed, and leave the fields that they do not mean absent. -/
theorem Takes.exists_placed (hs : s.Built) (hb : s.Takes before) : ∃ slots,
    Intake.placeAll s.name (s.fields.map fun f ↦ ⟨f, f.receive⟩) before = .ok slots ∧
      List.Forall₂ (s.Settles Field.receive before) s.fields slots := by
  have hm : ∀ p ∈ before, ∃ f, s.meant? p.1 = some f := by
    intro p hp
    obtain ⟨f, hf, -⟩ := hb.meant p hp
    exact ⟨f, hf⟩
  have hn : ((s.rekey Field.wireKey before).map Prod.fst).Nodup :=
    (nodup_rekey_iff hs.wireKeys hm).mpr hb.distinct
  obtain ⟨slots, hslots⟩ := exists_slots hb.meant
  refine ⟨slots, ?_, hslots⟩
  have hsupplies : ∀ intake ∈ s.fields.map fun f ↦ (⟨f, f.receive⟩ : Intake Input),
      intake.Supplies := List.forall_mem_map.mpr fun f _ ↦ f.supplies_receive
  have hnil : (([] : List (String × Input)).map Prod.fst).Nodup := .nil
  exact (Intake.foldlM_place_eq_ok (hs.wireKeys_intakes Field.receive) hsupplies hnil
    Intake.readAliases_nil).mpr ⟨_, rekeyed_iff.mpr ⟨hm, rfl⟩, hn,
      (readAliases_iff_settles hs hm hb.distinct).mpr hslots⟩

/-- The slot of a field that the inputs do not mean is vacant. -/
theorem Settles.vacant {slot : Slot} (hbefore : ∀ p ∈ before, s.meant? p.1 ≠ some f)
    (h : s.Settles Field.receive before f slot) : slot.isExplicit = false := by
  obtain ⟨p, hp, hmeant, -⟩ | ⟨-, rfl⟩ := h
  · exact absurd hmeant (hbefore p hp)
  · rfl

/-- Only an input for the field fails under the name of the field. -/
theorem Misfit.meant?_eq {α : Type} {convert : Field → α → Except ValidationError Slot}
    {entry : String × α} (hs : s.Built) (hf : f ∈ s.fields) (h : s.Misfit convert entry e)
    (hh : e.path.steps.head? = some (.key f.name)) : s.meant? entry.1 = some f := by
  have heq : ∀ {g : Field}, s.meant? entry.1 = some g → g.name = f.name →
      s.meant? entry.1 = some f := by
    intro g hg hn
    rw [hg, List.inj_on_of_nodup_map hs.names (mem_of_meant? hg) hf hn]
  cases h with
  | unknown =>
    have hk : entry.1 = f.name := Path.Step.key.inj (Option.some.inj hh)
    rw [hk, meant?_name hs hf]
  | duplicate hg => exact heq hg (Path.Step.key.inj (Option.some.inj hh))
  | refused hg => exact heq hg (Path.Step.key.inj (Option.some.inj hh))

/-- Once the slot of the field is filled, the inputs that follow fail under other names. -/
theorem head?_ne_of_complete_eq_error (hs : s.Built) (hf : s.fields[i]? = some f)
    (hafter : ∀ p ∈ after, s.meant? p.1 ≠ some f) (hi : slots[i]?.any Slot.isExplicit = true)
    (h : Intake.complete s.name (s.fields.map fun f ↦ ⟨f, f.receive⟩) after slots = .error e) :
    e.path.steps.head? ≠ some (.key f.name) := by
  intro hh
  have hm := List.mem_of_getElem? hf
  obtain h | ⟨filled, hfilled, h⟩ := Located.bind_eq_error.mp h
  · obtain ⟨p, hp, hmisfit⟩ := exists_misfit_of_foldlM_eq_error h
    exact hafter p hp (hmisfit.meant?_eq hs hm hh)
  · obtain h | ⟨_, -, h⟩ := Located.bind_eq_error.mp h
    · obtain ⟨⟨intake, slot⟩, hz, -, hx, rfl⟩ := Intake.exists_of_requireAll_eq_error h
      obtain ⟨j, hj⟩ := List.mem_iff_getElem?.mp hz
      obtain ⟨hintake, hslot⟩ := List.getElem?_zip_eq_some.mp hj
      rw [List.getElem?_map] at hintake
      obtain ⟨g, hg, rfl⟩ := Option.map_eq_some_iff.mp hintake
      have hname : g.name = f.name := Path.Step.key.inj (Option.some.inj hh)
      obtain rfl := place_eq_of_nodup hs.names hg hf hname
      have hexplicit := Intake.foldlM_place_keeps_explicit hi hfilled
      rw [hslot, Option.any_some, hx] at hexplicit
      cases hexplicit
    · cases h

/-- An input that comes after others which are taken fails on its own account just where it fails by
itself. -/
theorem construct_among_eq_error_iff (hs : s.Built) (hf : f ∈ s.fields) (hb : s.Takes before)
    (hother : ∀ p ∈ before ++ after, s.meant? p.1 ≠ some f) (input : Input) :
    (s.construct (before ++ (f.name, input) :: after) = .error e ∧
      e.path.steps.head? = some (.key f.name)) ↔
        Located.within (.key f.name) (f.receive input) = .error e := by
  obtain ⟨hbefore, hafter⟩ := List.forall_mem_append.mp hother
  obtain ⟨slots, hplaced, hslots⟩ := hb.exists_placed hs
  obtain ⟨i, hfi, hi⟩ := exists_resolve?_name hs hf Field.receive
  have hlt : i < slots.length := hslots.length_eq ▸ (List.getElem?_eq_some_iff.mp hfi).1
  have hvacant : slots[i]?.any Slot.isExplicit = false := by
    have hslot := List.getElem?_eq_getElem hlt
    have hz : (f, slots[i]) ∈ s.fields.zip slots :=
      List.mem_of_getElem? (List.getElem?_zip_eq_some.mpr ⟨hfi, hslot⟩)
    rw [hslot]
    exact (List.forall₂_zip hslots hz).vacant hbefore
  -- the slots before the input are known, so what is left is to convert it and to go on
  have hconstruct : s.construct (before ++ (f.name, input) :: after) = .error e ↔
      (Located.within (.key f.name) (f.receive input)).map (slots.set i) >>=
        Intake.complete s.name (s.fields.map fun f ↦ ⟨f, f.receive⟩) after = .error e := by
    rw [construct, Intake.assemble_names_append, hplaced, Located.map_eq_error]
    change Intake.complete _ _ _ slots = _ ↔ _
    rw [Intake.complete_cons, Intake.place_of_vacant hi hvacant]
  rw [hconstruct]
  cases hr : f.receive input with
  | error e' =>
    constructor
    · intro h
      obtain ⟨h, -⟩ := h
      cases h
      rfl
    · intro h
      cases h
      exact ⟨rfl, rfl⟩
  | ok filled =>
    have hfilled : (slots.set i filled)[i]?.any Slot.isExplicit = true := by
      rw [List.getElem?_set_self hlt]
      exact f.supplies_receive input filled hr
    constructor
    · intro h
      exact absurd h.2 (head?_ne_of_complete_eq_error hs hfi hafter hfilled h.1)
    · intro h
      cases h

end Schema

/-- The schema explains every failure of a construction, along a path of field names. An assignment
fails with the error that a construction has for the same field and input. -/
theorem Schema.construct_error_attributed {s : Schema} (hs : s.Built) :
    (∀ inputs e, s.construct inputs = .error e →
      (FieldType.record s).Explains e.path e.cause ∧
        ((∃ t, (FieldType.record s).follow? Field.name e.path = some t) ∨
          ∃ record key, e.cause = .unknownField record key)) ∧
    ∀ r : Record, r.schema = s → ∀ f ∈ s.fields, ∀ before after, s.Takes before →
      (∀ p ∈ before ++ after, s.meant? p.1 ≠ some f) → ∀ input e,
        r.set f.name input = .error e ↔
          s.construct (before ++ (f.name, input) :: after) = .error e ∧
            e.path.steps.head? = some (.key f.name) := by
  refine ⟨fun inputs e h ↦ ?_, ?_⟩
  · have hexplains := explains_construct hs h
    exact ⟨hexplains, hexplains.exists_follow?⟩
  · rintro r rfl f hf before after hb hother input e
    obtain ⟨i, hset⟩ := Record.exists_set_eq hs hf
    rw [hset, Located.map_eq_error, construct_among_eq_error_iff hs hf hb hother]

/-- A wrong age in the second guest, where the keys are aliases and the path has the names. The key
that means nothing is not come to. -/
theorem Schema.booking_error_attributed :
    let guests : Json := .arr [.obj [("fullName", .str "a")],
      .obj [("fullName", .str "b"), ("age", .bool true)]]
    let before : List (String × Input) := [("seat", .json (.str "1"))]
    let after : List (String × Input) := [("nothing", .null)]
    let e : ValidationError := ⟨⟨[.key "guests", .index 1, .key "age"]⟩,
      .wrongType .integer (.json .boolean)⟩
    let r : Record := ⟨booking, [.set (.list []), .set (.scalar (.str "2"))]⟩
    booking.Built ∧ booking.Takes before ∧
      booking.construct (before ++ ("guests", .json guests) :: after) = .error e ∧
      (FieldType.record booking).Explains e.path e.cause ∧
      (FieldType.record booking).follow? Field.name e.path = some (.int {}) ∧
      r.set "guests" (.json guests) = .error e := by
  intro guests before after e r
  have htakes : booking.Takes before :=
    ⟨List.forall_mem_singleton.mpr ⟨_, rfl, _, rfl⟩, List.nodup_singleton _⟩
  have hconstruct : booking.construct (before ++ ("guests", .json guests) :: after) = .error e :=
    rfl
  have hother : ∀ p ∈ before ++ after, booking.meant? p.1 ≠ some bookingGuests := by
    refine List.forall_mem_cons.mpr ⟨fun h ↦ ?_, List.forall_mem_singleton.mpr nofun⟩
    exact absurd (congrArg (Option.map Field.name) h) (by decide)
  obtain ⟨hexplains, hset⟩ := construct_error_attributed booking_built
  exact ⟨booking_built, htakes, hconstruct, (hexplains _ _ hconstruct).1, rfl,
    (hset r rfl bookingGuests (.head _) before after htakes hother _ _).mpr ⟨hconstruct, rfl⟩⟩

end TypedRecord
