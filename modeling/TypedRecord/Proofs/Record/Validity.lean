import TypedRecord.Proofs.Json.Proper
import TypedRecord.Proofs.Record.Conformance
import TypedRecord.Proofs.Schema.Alike
import TypedRecord.Proofs.Schema.Lookup

namespace TypedRecord

inductive Value.Fits (adopts : Schema → Schema → Prop) : FieldType → Value → Prop
  | scalar {t : FieldType} {json : Json} :
      t.Admits json → json.Proper → Value.Fits adopts t (.scalar json)
  | record {s : Schema} {r : Record} :
      adopts s r.schema →
      r.slots.length = r.schema.fields.length →
      (∀ f slot, (f, slot) ∈ r.fields → f.required = true → slot.isExplicit = true) →
      (∀ f, (f, .null) ∈ r.fields → f.nullable = true) →
      (∀ f v, (f, .set v) ∈ r.fields → Value.Fits adopts f.type v) →
      Value.Fits adopts (.record s) (.record r)
  | list {items : FieldType} {limits : Limits} {values : List Value} :
      limits.Allows values.length → (∀ v ∈ values, Value.Fits adopts items v) →
      Value.Fits adopts (.seq items limits) (.list values)
  | map {values : FieldType} {entries : List (String × Value)} :
      (entries.map Prod.fst).Nodup → (∀ e ∈ entries, Value.Fits adopts values e.2) →
      Value.Fits adopts (.map values) (.map entries)

/-- One slot for each field, each in a state that its field allows. -/
structure Record.Whole (adopts : Schema → Schema → Prop) (r : Record) : Prop where
  length : r.slots.length = r.schema.fields.length
  required : ∀ f slot, (f, slot) ∈ r.fields → f.required = true → slot.isExplicit = true
  null : ∀ f, (f, .null) ∈ r.fields → f.nullable = true
  set : ∀ f v, (f, .set v) ∈ r.fields → v.Fits adopts f.type

/-- A whole record, where nested records have the same schema as their field declares. -/
def Record.Valid (r : Record) : Prop := r.Whole fun s t ↦ s.sameAs t = true

def Slot.Fits (adopts : Schema → Schema → Prop) (f : Field) : Slot → Prop
  | .absent => f.required = false
  | .null => f.nullable = true
  | .set v => v.Fits adopts f.type

section

variable {adopts adopts' : Schema → Schema → Prop} {t : FieldType} {v : Value} {r : Record}

theorem Record.whole_iff_forall₂ :
    r.Whole adopts ↔ List.Forall₂ (Slot.Fits adopts) r.schema.fields r.slots := by
  rw [List.forall₂_iff_zip]
  constructor
  · intro h
    refine ⟨h.length.symm, fun {f slot} hm ↦ ?_⟩
    cases slot with
    | absent =>
      have hr := h.required f .absent hm
      simpa [Slot.isExplicit, Slot.Fits] using hr
    | null => exact h.null f hm
    | set v => exact h.set f v hm
  · intro h
    obtain ⟨hl, hs⟩ := h
    refine ⟨hl.symm, ?_, fun f hm ↦ hs hm, fun f v hm ↦ hs hm⟩
    intro f slot hm hr
    cases slot with
    | absent =>
      have hf : f.required = false := hs hm
      rw [hf] at hr
      cases hr
    | null | set => rfl

theorem Record.Whole.slot_fits (hw : r.Whole adopts) {p : Field × Slot} (hp : p ∈ r.fields) :
    p.2.Fits adopts p.1 :=
  List.forall₂_zip (Record.whole_iff_forall₂.mp hw) hp

/-- Fields that correspond to those of the schema correspond to the fields beside their slots. -/
theorem Record.Whole.forall₂_fields (hw : r.Whole adopts) {p : Field → Field → Prop}
    {fs : List Field} (h : List.Forall₂ p fs r.schema.fields) :
    List.Forall₂ (fun f q ↦ p f q.1) fs r.fields := by
  have hfields : r.fields.map Prod.fst = r.schema.fields :=
    List.map_fst_zip (Nat.le_of_eq hw.length.symm)
  rwa [← hfields, List.forall₂_map_right_iff] at h

theorem Schema.Alike.exists_field {s : Schema} (hs : s.Alike r.schema) {p : Field × Slot}
    (hp : p ∈ r.fields) : ∃ f ∈ s.fields, f.Alike p.1 :=
  exists_of_mem_outcomes hs.fields (List.of_mem_zip hp).1

/-- A field of an alike schema finds a slot, which fits the field of the record's own schema. -/
theorem Schema.Alike.exists_slot {s : Schema} {f : Field} (hs : s.Alike r.schema)
    (hn : (r.schema.fields.map Field.name).Nodup) (hw : r.Whole adopts) (hf : f ∈ s.fields) :
    ∃ p ∈ r.fields, f.Alike p.1 ∧ r.slot? f.name = some p.2 ∧ p.2.Fits adopts p.1 := by
  obtain ⟨p, hp, hfp⟩ := exists_of_mem_outcomes (hw.forall₂_fields hs.fields).flip hf
  exact ⟨p, hp, hfp, hfp.name ▸ Record.slot?_of_mem hn hp, hw.slot_fits hp⟩

theorem Value.fits_record_iff {s : Schema} : v.Fits adopts (.record s) ↔
    ∃ r, v = .record r ∧ adopts s r.schema ∧ r.Whole adopts := by
  constructor
  · intro h
    cases h with
    | scalar h => cases h
    | record ha hl hr hn hs => exact ⟨_, rfl, ha, hl, hr, hn, hs⟩
  · intro h
    rcases h with ⟨r, rfl, ha, hl, hr, hn, hs⟩
    exact .record ha hl hr hn hs

theorem Value.Fits.mono (ha : ∀ s t, adopts s t → adopts' s t) (h : v.Fits adopts t) :
    v.Fits adopts' t := by
  induction h with
  | scalar h hp => exact .scalar h hp
  | record h hl hr hn _ ih => exact .record (ha _ _ h) hl hr hn ih
  | list hl _ ih => exact .list hl ih
  | map hk _ ih => exact .map hk ih

theorem Record.Whole.mono (ha : ∀ s t, adopts s t → adopts' s t) (h : r.Whole adopts) :
    r.Whole adopts' :=
  ⟨h.length, h.required, h.null, fun f v hm ↦ (h.set f v hm).mono ha⟩

end

/-- Schemas that are closed under nesting and known apart, with the adoption between them. -/
structure Schema.Family (known : Schema → Prop) (adopts : Schema → Schema → Prop) : Prop where
  built : ∀ s, known s → s.Built
  nested : ∀ s, known s → ∀ t ∈ s.nested, known t
  adopts : ∀ s t, known s → known t → s.sameAs t = true → adopts s t

theorem Schema.Family.ofBuilt : Schema.Family Schema.Built fun s t ↦ s.sameAs t = true :=
  ⟨fun _ hs ↦ hs, fun _ hs _ ht ↦ hs.part ht, fun _ _ _ _ h ↦ h⟩

structure FieldType.Over (known : Schema → Prop) (t : FieldType) : Prop where
  built : t.Built
  known : ∀ s ∈ t.nested, known s

namespace FieldType.Over

variable {known : Schema → Prop} {adopts : Schema → Schema → Prop}

theorem seq {items : FieldType} {limits : Limits} (h : (FieldType.seq items limits).Over known) :
    items.Over known :=
  ⟨h.built.seq, fun s hs ↦ h.known s (by simpa only [nested] using hs)⟩

theorem map {values : FieldType} (h : (FieldType.map values).Over known) : values.Over known :=
  ⟨h.built.map, fun s hs ↦ h.known s (by simpa only [nested] using hs)⟩

theorem record {s : Schema} (h : (FieldType.record s).Over known) : known s :=
  h.known s (by simp [nested])

theorem field (hf : Schema.Family known adopts) {s : Schema} (hs : known s) {f : Field}
    (hm : f ∈ s.fields) : f.type.Over known :=
  ⟨(hf.built s hs).field hm, fun t ht ↦ hf.nested s hs t (List.mem_flatMap.mpr ⟨f, hm, ht⟩)⟩

end FieldType.Over

end TypedRecord
