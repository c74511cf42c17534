import Mathlib.Data.List.Perm.Basic
import TypedRecord.Proofs.Record.Replacement

namespace TypedRecord

theorem map_fst_find?_zipIdx {α : Type} (p : α → Bool) (items : List α) :
    (items.zipIdx.find? fun q ↦ p q.1).map Prod.fst = items.find? p := by
  have h : (items.zipIdx.map Prod.fst).find? p = _ := List.find?_map
  rw [List.zipIdx_map_fst] at h
  exact h.symm

namespace Schema

def meant? (s : Schema) (key : String) : Option Field :=
  (s.fields.find? (·.name = key)).or (s.fields.find? (·.wireKey = key))

section

variable {s : Schema} {f : Field} {key : String}

theorem mem_of_meant? (h : s.meant? key = some f) : f ∈ s.fields := by
  obtain h | ⟨-, h⟩ := Option.or_eq_some_iff.mp h
  · exact List.mem_of_find?_eq_some h
  · exact List.mem_of_find?_eq_some h

theorem meant?_name (hs : s.Built) (hf : f ∈ s.fields) : s.meant? f.name = some f := by
  rw [meant?, find?_of_nodup hs.names hf]
  rfl

end

variable {α : Type} {s : Schema} {convert : Field → α → Except ValidationError Slot}
  {entries entries' : List (String × α)}

variable (s convert) in
theorem map_fst_resolve? (key : String) :
    (Intake.resolve? (s.fields.map fun f ↦ ⟨f, convert f⟩) key).map Prod.fst =
      (s.meant? key).map fun f ↦ ⟨f, convert f⟩ := by
  rw [Intake.resolve?, Option.map_or, meant?, Option.map_or,
    map_fst_find?_zipIdx fun intake : Intake α ↦ intake.field.name = key,
    map_fst_find?_zipIdx fun intake : Intake α ↦ intake.field.wireKey = key,
    List.find?_map, List.find?_map]
  rfl

variable (s convert) in
/-- The inputs make up a record: every key means a field that takes the input, no two keys mean the
same field, and every required field is meant by one of them. -/
structure Complete (entries : List (String × α)) : Prop where
  meant : ∀ e ∈ entries, ∃ f, s.meant? e.1 = some f ∧ ∃ slot, convert f e.2 = .ok slot
  distinct : (entries.map fun e ↦ s.meant? e.1).Nodup
  required : ∀ f ∈ s.fields, f.required = true → ∃ e ∈ entries, s.meant? e.1 = some f

variable (s convert) in
def Settles (entries : List (String × α)) (f : Field) (slot : Slot) : Prop :=
  (∃ e ∈ entries, s.meant? e.1 = some f ∧ convert f e.2 = .ok slot) ∨
    (∀ e ∈ entries, s.meant? e.1 ≠ some f) ∧ slot = .absent

def rekey (s : Schema) (label : Field → String) (entries : List (String × α)) :
    List (String × α) :=
  entries.map fun e ↦ (((s.meant? e.1).map label).getD e.1, e.2)

theorem rekeyed_iff {keyed : List (String × α)} :
    Intake.Rekeyed (s.fields.map fun f ↦ ⟨f, convert f⟩) entries keyed ↔
      (∀ e ∈ entries, ∃ f, s.meant? e.1 = some f) ∧ keyed = s.rekey Field.wireKey entries := by
  refine forall₂_iff_map fun e _ keyed ↦ ?_
  have hmeant := map_fst_resolve? s convert e.1
  constructor
  · intro h
    obtain ⟨hvalue, p, hp, hkey⟩ := h
    rw [hp] at hmeant
    obtain ⟨f, hf, hpf⟩ := Option.map_eq_some_iff.mp hmeant.symm
    refine ⟨⟨f, hf⟩, Prod.ext ?_ hvalue⟩
    rw [hf, ← hkey, ← hpf]
    rfl
  · intro h
    obtain ⟨⟨f, hf⟩, rfl⟩ := h
    rw [hf] at hmeant
    obtain ⟨p, hp, hpf⟩ := Option.map_eq_some_iff.mp hmeant
    refine ⟨rfl, p, hp, ?_⟩
    rw [hf, hpf]
    rfl

section

variable {label : Field → String} (hl : (s.fields.map label).Nodup)
  (hm : ∀ e ∈ entries, ∃ f, s.meant? e.1 = some f)

include hl hm

theorem nodup_rekey_iff : ((s.rekey label entries).map Prod.fst).Nodup ↔
    (entries.map fun e ↦ s.meant? e.1).Nodup := by
  have hkeys : (s.rekey label entries).map Prod.fst =
      (entries.map fun e ↦ s.meant? e.1).map fun f ↦ (f.map label).getD "" := by
    rw [rekey, List.map_map, List.map_map]
    refine List.map_congr_left fun e he ↦ ?_
    obtain ⟨f, hf⟩ := hm e he
    simp [hf]
  rw [hkeys]
  refine ⟨List.Nodup.of_map _, List.Nodup.map_on ?_⟩
  simp only [List.forall_mem_map]
  intro e he e' he' hkey
  obtain ⟨f, hf⟩ := hm e he
  obtain ⟨g, hg⟩ := hm e' he'
  rw [hf, hg] at hkey ⊢
  exact congrArg some (List.inj_on_of_nodup_map hl (mem_of_meant? hf) (mem_of_meant? hg) hkey)

theorem get?_rekey {f : Field} {a : α} (hf : f ∈ s.fields)
    (hn : (entries.map fun e ↦ s.meant? e.1).Nodup) :
    Entries.get? (label f) (s.rekey label entries) = some a ↔
      ∃ e ∈ entries, s.meant? e.1 = some f ∧ e.2 = a := by
  constructor
  · intro h
    obtain ⟨e, he, hkey⟩ := List.mem_map.mp (Entries.mem_of_get?_eq_some h)
    obtain ⟨hkey, ha⟩ := Prod.ext_iff.mp hkey
    obtain ⟨g, hg⟩ := hm e he
    rw [hg] at hkey
    have hgf : g = f := List.inj_on_of_nodup_map hl (mem_of_meant? hg) hf hkey
    exact ⟨e, he, hgf ▸ hg, ha⟩
  · intro h
    obtain ⟨e, he, hmeant, rfl⟩ := h
    refine Entries.get?_of_mem ((nodup_rekey_iff hl hm).mpr hn) (List.mem_map.mpr ⟨e, he, ?_⟩)
    rw [hmeant]
    rfl

theorem settles_iff {f : Field} {slot : Slot} (hf : f ∈ s.fields)
    (hn : (entries.map fun e ↦ s.meant? e.1).Nodup) :
    s.Settles convert entries f slot ↔
      Entries.get? (label f) (s.rekey label entries) = none ∧ slot = .absent ∨
        ∃ a, Entries.get? (label f) (s.rekey label entries) = some a ∧ convert f a = .ok slot := by
  rw [or_comm, Option.eq_none_iff_forall_ne_some]
  simp only [ne_eq, get?_rekey hl hm hf hn]
  refine or_congr ⟨?_, ?_⟩ (and_congr_left fun _ ↦ ⟨?_, ?_⟩)
  · intro h
    obtain ⟨e, he, hmeant, hslot⟩ := h
    exact ⟨e.2, ⟨e, he, hmeant, rfl⟩, hslot⟩
  · intro h
    obtain ⟨_, ⟨e, he, hmeant, rfl⟩, hslot⟩ := h
    exact ⟨e, he, hmeant, hslot⟩
  · intro h a ha
    obtain ⟨e, he, hmeant, -⟩ := ha
    exact h e he hmeant
  · exact fun h e he hmeant ↦ h e.2 ⟨e, he, hmeant, rfl⟩

end

theorem readAliases_iff_settles {slots : List Slot} (hs : s.Built)
    (hm : ∀ e ∈ entries, ∃ f, s.meant? e.1 = some f)
    (hn : (entries.map fun e ↦ s.meant? e.1).Nodup) :
    Intake.readAliases (s.rekey Field.wireKey entries) (s.fields.map fun f ↦ ⟨f, convert f⟩) =
        .ok slots ↔
      List.Forall₂ (s.Settles convert entries) s.fields slots := by
  rw [Intake.readAliases_eq_ok, List.forall₂_map_left_iff, List.forall₂_iff_zip,
    List.forall₂_iff_zip]
  refine and_congr_right fun _ ↦ forall₂_congr fun f slot ↦ imp_congr_right fun hz ↦ ?_
  exact (settles_iff hs.wireKeys hm (List.of_mem_zip hz).1 hn).symm

section

variable (hc : ∀ f, (⟨f, convert f⟩ : Intake α).Supplies)

include hc

theorem required_iff_meant {slots : List Slot}
    (hslots : List.Forall₂ (s.Settles convert entries) s.fields slots) :
    (∀ p ∈ s.fields.zip slots, p.1.required = true → p.2.isExplicit = true) ↔
      ∀ f ∈ s.fields, f.required = true → ∃ e ∈ entries, s.meant? e.1 = some f := by
  constructor
  · intro h f hf hq
    obtain ⟨slot, hslot⟩ := exists_mem_zip (Nat.le_of_eq hslots.length_eq) hf
    have hexplicit := h (f, slot) hslot hq
    obtain ⟨e, he, hmeant, -⟩ | ⟨-, rfl⟩ := List.forall₂_zip hslots hslot
    · exact ⟨e, he, hmeant⟩
    · cases hexplicit
  · intro h p hp hq
    obtain ⟨e, he, hmeant⟩ := h p.1 (List.of_mem_zip hp).1 hq
    obtain ⟨e', -, -, hslot⟩ | ⟨hnone, -⟩ := List.forall₂_zip hslots hp
    · exact hc p.1 e'.2 p.2 hslot
    · exact absurd hmeant (hnone e he)

/-- Inputs by name are those of the payload that has each under the alias of its field. -/
theorem assemble_names_iff_rekey (hs : s.Built) (slots : List Slot) :
    Intake.assemble .names s.name (s.fields.map fun f ↦ ⟨f, convert f⟩) entries = .ok slots ↔
      (∀ e ∈ entries, ∃ f, s.meant? e.1 = some f) ∧
      ((s.rekey Field.wireKey entries).map Prod.fst).Nodup ∧
      Intake.assemble (.aliases .ignore) s.name (s.fields.map fun f ↦ ⟨f, convert f⟩)
        (s.rekey Field.wireKey entries) = .ok slots := by
  rw [Intake.assemble_names_eq_ok .ignore (hs.wireKeys_intakes convert)
    (List.forall_mem_map.mpr fun f _ ↦ hc f)]
  simp only [rekeyed_iff]
  constructor
  · intro h
    obtain ⟨_, ⟨hm, rfl⟩, h⟩ := h
    exact ⟨hm, h⟩
  · intro h
    exact ⟨_, ⟨h.1, rfl⟩, h.2⟩

theorem assemble_names_iff (hs : s.Built) (slots : List Slot) :
    Intake.assemble .names s.name (s.fields.map fun f ↦ ⟨f, convert f⟩) entries = .ok slots ↔
      s.Complete convert entries ∧ List.Forall₂ (s.Settles convert entries) s.fields slots := by
  simp only [assemble_names_iff_rekey hc hs, Intake.assemble_aliases_eq_ok, reduceCtorEq,
    false_implies, true_and, List.zip_map_left, List.forall_mem_map]
  constructor
  · intro h
    obtain ⟨hm, hn, hread, hrequired⟩ := h
    rw [nodup_rekey_iff hs.wireKeys hm] at hn
    have hslots := (readAliases_iff_settles hs hm hn).mp hread
    refine ⟨⟨?_, hn, ?_⟩, hslots⟩
    · intro e he
      obtain ⟨f, hf⟩ := hm e he
      refine ⟨f, hf, ?_⟩
      have hget := (get?_rekey hs.wireKeys hm (mem_of_meant? hf) hn).mpr ⟨e, he, hf, rfl⟩
      exact Intake.exists_converted hread
        (List.mem_map_of_mem (f := fun f ↦ (⟨f, convert f⟩ : Intake α)) (mem_of_meant? hf)) hget
    · exact (required_iff_meant hc hslots).mp hrequired
  · intro h
    obtain ⟨hcomplete, hslots⟩ := h
    have hm : ∀ e ∈ entries, ∃ f, s.meant? e.1 = some f := by
      intro e he
      obtain ⟨f, hf, -⟩ := hcomplete.meant e he
      exact ⟨f, hf⟩
    have hn := hcomplete.distinct
    exact ⟨hm, (nodup_rekey_iff hs.wireKeys hm).mpr hn,
      (readAliases_iff_settles hs hm hn).mpr hslots,
      (required_iff_meant hc hslots).mpr hcomplete.required⟩

end

/-- Inputs that fields take leave no field unsettled. -/
theorem exists_slots
    (hm : ∀ e ∈ entries, ∃ f, s.meant? e.1 = some f ∧ ∃ slot, convert f e.2 = .ok slot) :
    ∃ slots, List.Forall₂ (s.Settles convert entries) s.fields slots := by
  refine exists_outcomes fun f _ ↦ ?_
  by_cases hf : ∃ e ∈ entries, s.meant? e.1 = some f
  · obtain ⟨e, he, hmeant⟩ := hf
    obtain ⟨g, hg, slot, hslot⟩ := hm e he
    rw [hmeant] at hg
    cases hg
    exact ⟨slot, .inl ⟨e, he, hmeant, hslot⟩⟩
  · exact ⟨.absent, .inr ⟨fun e he hmeant ↦ hf ⟨e, he, hmeant⟩, rfl⟩⟩

theorem Complete.exists_slots (h : s.Complete convert entries) :
    ∃ slots, List.Forall₂ (s.Settles convert entries) s.fields slots :=
  Schema.exists_slots h.meant

theorem Complete.perm (hp : entries.Perm entries') (h : s.Complete convert entries) :
    s.Complete convert entries' where
  meant e he := h.meant e (hp.mem_iff.mpr he)
  distinct := (hp.map _).nodup_iff.mp h.distinct
  required f hf hq := by
    obtain ⟨e, he, hmeant⟩ := h.required f hf hq
    exact ⟨e, hp.mem_iff.mp he, hmeant⟩

theorem Settles.perm {f : Field} {slot : Slot} (hp : entries.Perm entries')
    (h : s.Settles convert entries f slot) : s.Settles convert entries' f slot := by
  obtain ⟨e, he, h⟩ | ⟨h, habsent⟩ := h
  · exact .inl ⟨e, hp.mem_iff.mp he, h⟩
  · exact .inr ⟨fun e he ↦ h e (hp.mem_iff.mpr he), habsent⟩

variable (s convert) in
/-- The keys mean the same field, and it converts the inputs alike. -/
def TakesAlike (e e' : String × α) : Prop :=
  s.meant? e'.1 = s.meant? e.1 ∧
    ∀ f slot, s.meant? e.1 = some f → (convert f e.2 = .ok slot ↔ convert f e'.2 = .ok slot)

theorem TakesAlike.symm {e e' : String × α} (h : s.TakesAlike convert e e') :
    s.TakesAlike convert e' e :=
  ⟨h.1.symm, fun f slot hf ↦ (h.2 f slot (h.1 ▸ hf)).symm⟩

section

variable (h : List.Forall₂ (s.TakesAlike convert) entries entries')

include h

theorem Complete.of_takesAlike (hc : s.Complete convert entries) :
    s.Complete convert entries' where
  meant e' he' := by
    obtain ⟨e, he, hmeant, hconvert⟩ := exists_of_mem_outcomes h he'
    obtain ⟨f, hf, slot, hslot⟩ := hc.meant e he
    exact ⟨f, hmeant.trans hf, slot, (hconvert f slot hf).mp hslot⟩
  distinct := by
    rw [map_outcomes_eq (h.imp fun _ _ hee ↦ hee.1)]
    exact hc.distinct
  required f hf hq := by
    obtain ⟨e, he, hmeant⟩ := hc.required f hf hq
    obtain ⟨e', he', hee⟩ := exists_of_mem_outcomes h.flip he
    exact ⟨e', he', hee.1.trans hmeant⟩

theorem Settles.of_takesAlike {f : Field} {slot : Slot} (hs : s.Settles convert entries f slot) :
    s.Settles convert entries' f slot := by
  obtain ⟨e, he, hmeant, hslot⟩ | ⟨hnone, habsent⟩ := hs
  · obtain ⟨e', he', hee⟩ := exists_of_mem_outcomes h.flip he
    exact .inl ⟨e', he', hee.1.trans hmeant, (hee.2 f slot hmeant).mp hslot⟩
  · refine .inr ⟨fun e' he' hmeant ↦ ?_, habsent⟩
    obtain ⟨e, he, hee⟩ := exists_of_mem_outcomes h he'
    exact hnone e he (hee.1.symm.trans hmeant)

end

theorem assemble_names_congr {moved : List (String × α)} (hs : s.Built)
    (hc : ∀ f, (⟨f, convert f⟩ : Intake α).Supplies) (hp : moved.Perm entries)
    (h : List.Forall₂ (s.TakesAlike convert) moved entries') (slots : List Slot) :
    Intake.assemble .names s.name (s.fields.map fun f ↦ ⟨f, convert f⟩) entries = .ok slots ↔
      Intake.assemble .names s.name (s.fields.map fun f ↦ ⟨f, convert f⟩) entries' =
        .ok slots := by
  have hsymm : List.Forall₂ (s.TakesAlike convert) entries' moved :=
    (h.imp fun _ _ ↦ TakesAlike.symm).flip
  rw [assemble_names_iff hc hs, assemble_names_iff hc hs]
  constructor
  · intro hslots
    obtain ⟨hcomplete, hslots⟩ := hslots
    exact ⟨(hcomplete.perm hp.symm).of_takesAlike h,
      hslots.imp fun _ _ hf ↦ (hf.perm hp.symm).of_takesAlike h⟩
  · intro hslots
    obtain ⟨hcomplete, hslots⟩ := hslots
    exact ⟨(hcomplete.of_takesAlike hsymm).perm hp,
      hslots.imp fun _ _ hf ↦ (hf.of_takesAlike hsymm).perm hp⟩

end Schema

/-- The same payload, where objects stand for records: their entries in another order, and some of
their keys replaced by the names of the fields that they mean. -/
inductive FieldType.Respells : FieldType → Json → Json → Prop
  | refl (t : FieldType) (json : Json) : FieldType.Respells t json json
  | record {s : Schema} {entries moved entries' : List (String × Json)} :
      moved.Perm entries → moved.length = entries'.length →
      (∀ e e', (e, e') ∈ moved.zip entries' →
        e'.1 = e.1 ∨ ∃ f, s.meant? e.1 = some f ∧ e'.1 = f.name) →
      (∀ e e' f, (e, e') ∈ moved.zip entries' → s.meant? e.1 = some f →
        FieldType.Respells f.type e.2 e'.2) →
      FieldType.Respells (.record s) (.obj entries) (.obj entries')
  | seq {items : FieldType} {limits : Limits} {elements elements' : List Json} :
      elements.length = elements'.length →
      (∀ json json', (json, json') ∈ elements.zip elements' →
        FieldType.Respells items json json') →
      FieldType.Respells (.seq items limits) (.arr elements) (.arr elements')
  | map {values : FieldType} {entries entries' : List (String × Json)} :
      entries.length = entries'.length → (∀ e e', (e, e') ∈ entries.zip entries' → e'.1 = e.1) →
      (∀ e e', (e, e') ∈ entries.zip entries' → FieldType.Respells values e.2 e'.2) →
      FieldType.Respells (.map values) (.obj entries) (.obj entries')

inductive FieldType.RespellsInput (t : FieldType) : Input → Input → Prop
  | refl (input : Input) : t.RespellsInput input input
  | json {value value' : Json} : t.Respells value value' →
      t.RespellsInput (.json value) (.json value')

/-- The same inputs in another order, some keys replaced by the names of the fields that they mean,
and the JSON within respelled in the same way. -/
def Schema.Respells (s : Schema) (inputs inputs' : List (String × Input)) : Prop :=
  ∃ moved, moved.Perm inputs ∧ List.Forall₂ (fun e e' ↦
    (e'.1 = e.1 ∨ ∃ f, s.meant? e.1 = some f ∧ e'.1 = f.name) ∧
      ∀ f, s.meant? e.1 = some f → f.type.RespellsInput e.2 e'.2) moved inputs'

section

variable {s : Schema} {f : Field} {t : FieldType} {json json' : Json}

theorem Schema.meant?_respelled {key key' : String} (hs : s.Built)
    (h : key' = key ∨ ∃ f, s.meant? key = some f ∧ key' = f.name) :
    s.meant? key' = s.meant? key := by
  rcases h with rfl | ⟨f, hf, rfl⟩
  · rfl
  · rw [hf, meant?_name hs (mem_of_meant? hf)]

theorem Schema.accept_names_congr {entries moved entries' : List (String × Json)} {r : Record}
    (hs : s.Built) (hp : moved.Perm entries)
    (h : List.Forall₂ (s.TakesAlike fun f ↦ f.check .names) moved entries') :
    s.accept .names entries = .ok r ↔ s.accept .names entries' = .ok r := by
  have hslots := assemble_names_congr hs (fun f _ _ h ↦ Field.isExplicit_of_check h) hp h
  simp only [accept_eq, Located.map_eq_ok]
  exact exists_congr fun slots ↦ and_congr_left fun _ ↦ hslots slots

theorem FieldType.Respells.null_iff (h : t.Respells json json') : json = .null ↔ json' = .null := by
  cases h <;> simp

/-- Where respelled payloads are accepted alike, they are also with null refused or let pass. -/
theorem FieldType.Respells.refuseNull (h : t.Respells json json') (v : Value)
    (ha : t.accept .names json = .ok v ↔ t.accept .names json' = .ok v) :
    TypedRecord.refuseNull (t.accept .names) json = .ok v ↔
      TypedRecord.refuseNull (t.accept .names) json' = .ok v := by
  rw [refuseNull_eq_ok, refuseNull_eq_ok, ha, ne_eq, h.null_iff]

theorem FieldType.Respells.check (h : f.type.Respells json json') (slot : Slot)
    (ha : ∀ v, f.type.accept .names json = .ok v ↔ f.type.accept .names json' = .ok v) :
    f.check .names json = .ok slot ↔ f.check .names json' = .ok slot := by
  simp only [Field.check, slotOf_eq_ok, ne_eq, h.null_iff, ha]

/-- A caller's payload is accepted in any spelling or in none, and as the same value. -/
theorem FieldType.accept_respelled {t : FieldType} : t.Built → ∀ json json', t.Respells json json' →
    ∀ v, t.accept .names json = .ok v ↔ t.accept .names json' = .ok v := by
  induction t using FieldType.induction with
  | scalar t hs =>
    intro _ json json' h v
    cases h with
    | refl => rfl
    | record | seq | map => cases hs
  | record s ih =>
    intro ht json json' h v
    have hs := ht.record
    cases h with
    | refl => rfl
    | @record _ entries moved entries' hp hl hkey hvalue =>
      -- corresponding keys mean one field, and that takes both values or neither
      have halike : List.Forall₂ (s.TakesAlike fun f ↦ f.check .names) moved entries' := by
        refine List.forall₂_iff_zip.mpr ⟨hl, fun {e e'} hm ↦ ?_⟩
        refine ⟨Schema.meant?_respelled hs (hkey e e' hm), fun f slot hf ↦ ?_⟩
        have hrespells := hvalue e e' f hm hf
        have hmem := Schema.mem_of_meant? hf
        exact hrespells.check slot (ih f hmem (hs.field hmem) e.2 e'.2 hrespells)
      have hentries : ∀ r, s.accept .names entries = .ok r ↔ s.accept .names entries' = .ok r :=
        fun _ ↦ Schema.accept_names_congr hs hp halike
      simp only [accept, ofObject, Located.map_eq_ok, hentries]
  | seq items limits ih =>
    intro ht json json' h v
    cases h with
    | refl => rfl
    | @seq _ _ elements elements' hl hitem =>
      have hvalues : ∀ values, Located.traverse (refuseNull (items.accept .names)) elements =
          .ok values ↔
          Located.traverse (refuseNull (items.accept .names)) elements' = .ok values := by
        intro values
        rw [Located.traverse_eq_ok, Located.traverse_eq_ok]
        refine forall₂_outcomes_congr (List.forall₂_iff_zip.mpr ⟨hl, fun {j j'} hm w ↦ ?_⟩)
        exact (hitem j j' hm).refuseNull w (ih ht.seq j j' (hitem j j' hm) w)
      simp only [accept, ofArray, hl, guardBreach_eq_ok, Located.map_eq_ok, hvalues]
  | map values ih =>
    intro ht json json' h v
    cases h with
    | refl => rfl
    | @map _ entries entries' hl hkey hvalue =>
      have houts : ∀ outs,
          Located.traverseEntries (refuseNull (values.accept .names)) entries = .ok outs ↔
            Located.traverseEntries (refuseNull (values.accept .names)) entries' = .ok outs := by
        intro outs
        rw [Located.traverseEntries_eq_ok, Located.traverseEntries_eq_ok]
        refine forall₂_outcomes_congr (List.forall₂_iff_zip.mpr ⟨hl, fun {e e'} hm out ↦ ?_⟩)
        have hrespells := hvalue e e' hm
        rw [hkey e e' hm, hrespells.refuseNull out.2 (ih ht.map e.2 e'.2 hrespells out.2)]
      simp only [accept, ofObject, Located.map_eq_ok, houts]

theorem FieldType.RespellsInput.receive {input input' : Input} (hf : f.type.Built)
    (h : f.type.RespellsInput input input') (slot : Slot) :
    f.receive input = .ok slot ↔ f.receive input' = .ok slot := by
  cases h with
  | refl => rfl
  | json h => exact h.check slot (FieldType.accept_respelled hf _ _ h)

theorem Schema.construct_eq_ok_iff {inputs : List (String × Input)} {r : Record} (hs : s.Built) :
    s.construct inputs = .ok r ↔ s.Complete Field.receive inputs ∧ r.schema = s ∧
      List.Forall₂ (s.Settles Field.receive inputs) s.fields r.slots := by
  have hslots : ∀ slots, Intake.assemble .names s.name _ inputs = .ok slots ↔ _ :=
    assemble_names_iff Field.supplies_receive hs
  simp only [construct, Located.map_eq_ok, hslots]
  constructor
  · intro h
    obtain ⟨slots, ⟨hc, hslots⟩, rfl⟩ := h
    exact ⟨hc, rfl, hslots⟩
  · intro h
    obtain ⟨schema, slots⟩ := r
    obtain ⟨hc, rfl, hslots⟩ := h
    exact ⟨slots, ⟨hc, hslots⟩, rfl⟩

theorem Schema.exists_construct_iff {inputs : List (String × Input)} (hs : s.Built) :
    (∃ r, s.construct inputs = .ok r) ↔ s.Complete Field.receive inputs := by
  constructor
  · intro h
    obtain ⟨r, hr⟩ := h
    exact ((construct_eq_ok_iff hs).mp hr).1
  · intro h
    obtain ⟨slots, hslots⟩ := h.exists_slots
    exact ⟨⟨s, slots⟩, (construct_eq_ok_iff hs).mpr ⟨h, rfl, hslots⟩⟩

theorem Schema.construct_respelled {inputs inputs' : List (String × Input)} {r : Record}
    (hs : s.Built) (h : s.Respells inputs inputs') :
    s.construct inputs = .ok r ↔ s.construct inputs' = .ok r := by
  obtain ⟨moved, hp, h⟩ := h
  have halike : List.Forall₂ (s.TakesAlike Field.receive) moved inputs' := h.imp fun e e' hee ↦
    ⟨meant?_respelled hs hee.1,
      fun f slot hf ↦ (hee.2 f hf).receive (hs.field (mem_of_meant? hf)) slot⟩
  have hslots := assemble_names_congr hs Field.supplies_receive hp halike
  simp only [construct, Located.map_eq_ok]
  exact exists_congr fun slots ↦ and_congr_left fun _ ↦ hslots slots

end

namespace Schema

/-- A record is built from inputs just when they are complete, and its slots are what they settle.
So it is built from them in any order, and with names in place of aliases, at any depth. -/
theorem construct_iff_complete {s : Schema} (hs : s.Built) (inputs : List (String × Input)) :
    ((∃ r, s.construct inputs = .ok r) ↔ s.Complete Field.receive inputs) ∧
    (∀ r, s.construct inputs = .ok r →
      r.schema = s ∧ List.Forall₂ (s.Settles Field.receive inputs) s.fields r.slots) ∧
    ∀ inputs', s.Respells inputs inputs' →
      ∀ r, s.construct inputs = .ok r ↔ s.construct inputs' = .ok r := by
  refine ⟨exists_construct_iff hs, ?_, ?_⟩
  · exact fun r hr ↦ ((construct_eq_ok_iff hs).mp hr).2
  · exact fun inputs' h r ↦ construct_respelled hs h

def guest : Schema := ⟨0, "Guest", none,
  [{ Field.plain "full_name" (.str {}) true with wireKey := "fullName" },
    Field.plain "age" (.int {}) false]⟩

def bookingGuests : Field :=
  { Field.plain "guests" (.seq (.record guest) {}) true with wireKey := "people" }

/-- The alias of the seat is the name of the other field. -/
def booking : Schema := ⟨1, "Booking", none,
  [bookingGuests, { Field.plain "seat" (.str {}) true with wireKey := "guests" }]⟩

theorem booking_built : booking.Built := by
  refine .intro rfl fun t ht ↦ ?_
  obtain rfl := List.mem_singleton.mp ht
  exact .intro rfl nofun

theorem guest_respells (fullName age : Json) : (FieldType.record guest).Respells
    (.obj [("fullName", fullName), ("age", age)])
    (.obj [("age", age), ("full_name", fullName)]) := by
  have hzip : ∀ e e', (e, e') ∈ List.zip [("age", age), ("fullName", fullName)]
      [("age", age), ("full_name", fullName)] →
      e = ("age", age) ∧ e' = ("age", age) ∨
        e = ("fullName", fullName) ∧ e' = ("full_name", fullName) := by
    intro e e' h
    simpa using h
  refine .record (.swap _ _ _) rfl ?_ ?_
  · intro e e' h
    obtain ⟨rfl, rfl⟩ | ⟨rfl, rfl⟩ := hzip e e' h
    · exact .inl rfl
    · exact .inr ⟨_, rfl, rfl⟩
  · intro e e' f h _
    obtain ⟨rfl, rfl⟩ | ⟨rfl, rfl⟩ := hzip e e' h
    · exact .refl _ _
    · exact .refl _ _

theorem booking_respelled :
    let guests : Json := .arr [.obj [("fullName", .str "a"), ("age", .int 3)]]
    let guests' : Json := .arr [.obj [("age", .int 3), ("full_name", .str "a")]]
    let inputs : List (String × Input) := [("people", .json guests), ("seat", .json (.str "1"))]
    let inputs' : List (String × Input) := [("seat", .json (.str "1")), ("guests", .json guests')]
    let r : Record := ⟨booking, [.set (.list [.record ⟨guest, [.set (.scalar (.str "a")),
      .set (.scalar (.int 3))]⟩]), .set (.scalar (.str "1"))]⟩
    booking.Built ∧ booking.construct inputs = .ok r ∧ booking.Complete Field.receive inputs ∧
      List.Forall₂ (booking.Settles Field.receive inputs) booking.fields r.slots ∧
      booking.Respells inputs inputs' ∧ booking.construct inputs' = .ok r := by
  intro guests guests' inputs inputs' r
  have hr : booking.construct inputs = .ok r := rfl
  have hguests : (FieldType.seq (.record guest) {}).Respells guests guests' := by
    refine .seq rfl fun _ _ h ↦ ?_
    obtain ⟨rfl, rfl⟩ := Prod.ext_iff.mp (List.mem_singleton.mp h)
    exact guest_respells _ _
  have hrespells : booking.Respells inputs inputs' := by
    refine ⟨_, .swap _ _ _, ?_⟩
    refine .cons ⟨.inl rfl, fun f _ ↦ .refl _⟩ (.cons ⟨.inr ⟨_, rfl, rfl⟩, ?_⟩ .nil)
    intro f hf
    obtain rfl : bookingGuests = f := Option.some.inj hf
    exact .json hguests
  obtain ⟨hcomplete, hslots, hrespelled⟩ := construct_iff_complete booking_built inputs
  exact ⟨booking_built, hr, hcomplete.mp ⟨r, hr⟩, (hslots r hr).2, hrespells,
    (hrespelled inputs' hrespells r).mp hr⟩

end Schema

end TypedRecord
