import TypedRecord.Proofs.Entries
import TypedRecord.Proofs.Outcome
import TypedRecord.Proofs.Schema.Induction
import TypedRecord.Proofs.Schema.Lookup
import TypedRecord.Record.Encode

namespace TypedRecord

section

variable {record : String} {fields : List Field} {f : Field} {r : Record} {v : Value} {json : Json}

theorem Record.refuseUnknown_eq_ok : r.refuseUnknown record fields = .ok () ↔
    ∀ p ∈ r.fields, p.2.isExplicit = true → ∃ f ∈ fields, f.name = p.1.name := by
  unfold Record.refuseUnknown
  split
  next f slot h =>
    have hm := List.mem_of_find?_eq_some h
    have hk := List.find?_some h
    simp only [Bool.and_eq_true, Bool.not_eq_true', List.any_eq_false, decide_eq_true_eq] at hk
    simp only [reduceCtorEq, false_iff, not_forall]
    refine ⟨_, hm, hk.1, ?_⟩
    intro h
    obtain ⟨g, hg, he⟩ := h
    exact hk.2 g hg he
  next h =>
    simp only [true_iff]
    intro p hp he
    have hk := List.find?_eq_none.mp h p hp
    simpa [he] using hk

theorem Field.encode_eq : f.encode r =
    Slot.encode f.wireKey f.nullable f.type.encode (r.slot? f.name) := by
  cases f
  rfl

theorem Field.encode_absent (h : r.slot? f.name = some .absent) : f.encode r = .ok [] := by
  rw [encode_eq, h, Slot.encode]

theorem Field.encode_null (h : r.slot? f.name = some .null) (hn : f.nullable = true) :
    f.encode r = .ok [(f.wireKey, .null)] := by
  rw [encode_eq, h, Slot.encode, if_pos hn]

theorem Field.encode_set (h : r.slot? f.name = some (.set v)) (hv : f.type.encode v = .ok json) :
    f.encode r = .ok [(f.wireKey, json)] := by
  rw [encode_eq, h, Slot.encode, hv]
  rfl

inductive Field.Emits (f : Field) (r : Record) : Option Json → Prop
  | absent : r.slot? f.name = none ∨ r.slot? f.name = some .absent → Field.Emits f r none
  | null : r.slot? f.name = some .null → f.nullable = true → Field.Emits f r (some .null)
  | set {v : Value} {json : Json} : r.slot? f.name = some (.set v) → f.type.encode v = .ok json →
      Field.Emits f r (some json)

theorem Field.encode_eq_ok_iff {part : List (String × Json)} : f.encode r = .ok part ↔
    ∃ out : Option Json, f.Emits r out ∧ (out.map (f.wireKey, ·)).toList = part := by
  constructor
  · intro h
    rw [encode_eq] at h
    cases hslot : r.slot? f.name with
    | none =>
      rw [hslot] at h
      cases h
      exact ⟨none, .absent (.inl hslot), rfl⟩
    | some slot =>
      rw [hslot] at h
      cases slot with
      | absent =>
        cases h
        exact ⟨none, .absent (.inr hslot), rfl⟩
      | null =>
        rw [Slot.encode] at h
        split at h
        next hn =>
          cases h
          exact ⟨some .null, .null hslot hn, rfl⟩
        next => cases h
      | set v =>
        obtain ⟨json, hv, h⟩ := Located.bind_eq_ok.mp h
        cases h
        exact ⟨some json, .set hslot (Located.within_eq_ok.mp hv), rfl⟩
  · intro h
    obtain ⟨out, hout, rfl⟩ := h
    cases hout with
    | absent hslot =>
      rw [encode_eq]
      obtain hslot | hslot := hslot
      · rw [hslot]
        rfl
      · rw [hslot]
        rfl
    | null hslot hn => exact encode_null hslot hn
    | set hslot hv => exact encode_set hslot hv

theorem Field.exists_of_encodeAll_eq_ok {entries : List (String × Json)}
    (h : Field.encodeAll fields r = .ok entries) : ∀ f ∈ fields, ∃ out, f.Emits r out := by
  induction fields generalizing entries with
  | nil => simp
  | cons f rest ih =>
    obtain ⟨part, hf, h⟩ := Located.bind_eq_ok.mp h
    obtain ⟨others, hrest, -⟩ := Located.bind_eq_ok.mp h
    obtain ⟨out, hout, -⟩ := encode_eq_ok_iff.mp hf
    rw [List.forall_mem_cons]
    exact ⟨⟨out, hout⟩, ih hrest⟩

theorem Field.encodeAll_eq_ok {out : Field → Option Json}
    (h : ∀ f ∈ fields, f.encode r = .ok ((out f).map (f.wireKey, ·)).toList) :
    Field.encodeAll fields r = .ok (Entries.collect Field.wireKey out fields) := by
  induction fields with
  | nil => rfl
  | cons f rest ih =>
    rw [Field.encodeAll, h f List.mem_cons_self, ih fun g hg ↦ h g (List.mem_cons_of_mem _ hg),
      Entries.collect_cons]
    rfl

end

theorem Schema.encodeEntries_eq {s : Schema} {r : Record} : s.encodeEntries r =
    r.refuseUnknown s.name s.fields >>= fun _ ↦ Field.encodeAll s.fields r := by
  cases s
  rfl

theorem Schema.encodeEntries_eq_ok {s : Schema} {r : Record} {out : Field → Option Json}
    (hu : ∀ p ∈ r.fields, p.2.isExplicit = true → ∃ f ∈ s.fields, f.name = p.1.name)
    (h : ∀ f ∈ s.fields, f.encode r = .ok ((out f).map (f.wireKey, ·)).toList) :
    s.encodeEntries r = .ok (Entries.collect Field.wireKey out s.fields) := by
  rw [encodeEntries_eq, Record.refuseUnknown_eq_ok.mpr hu]
  exact Field.encodeAll_eq_ok h

/-- The supplied fields are known to the schema, and the object has what each field of the schema
emits. -/
theorem Schema.encodeEntries_eq_ok_iff {s : Schema} {r : Record} {entries : List (String × Json)} :
    s.encodeEntries r = .ok entries ↔
      (∀ p ∈ r.fields, p.2.isExplicit = true → ∃ f ∈ s.fields, f.name = p.1.name) ∧
      ∃ out : Field → Option Json, (∀ f ∈ s.fields, f.Emits r (out f)) ∧
        entries = Entries.collect Field.wireKey out s.fields := by
  constructor
  · intro h
    rw [encodeEntries_eq, Located.bind_eq_ok] at h
    obtain ⟨_, hu, hall⟩ := h
    have hfield := Field.exists_of_encodeAll_eq_ok hall
    choose! out hout using hfield
    refine ⟨Record.refuseUnknown_eq_ok.mp hu, out, hout, ?_⟩
    have hcollect : Field.encodeAll s.fields r =
        .ok (Entries.collect Field.wireKey out s.fields) :=
      Field.encodeAll_eq_ok fun f hf ↦ Field.encode_eq_ok_iff.mpr ⟨out f, hout f hf, rfl⟩
    rw [hall, Except.ok.injEq] at hcollect
    exact hcollect
  · intro h
    obtain ⟨hu, out, hout, rfl⟩ := h
    exact encodeEntries_eq_ok hu
      fun f hf ↦ Field.encode_eq_ok_iff.mpr ⟨out f, hout f hf, rfl⟩

namespace FieldType

theorem encode_scalar {t : FieldType} {json : Json} (ht : t.isScalar) :
    t.encode (.scalar json) = .ok json := by
  cases t <;> first | rfl | simp [isScalar] at ht

theorem encode_record {s : Schema} {r : Record} {entries : List (String × Json)}
    (h : s.encodeEntries r = .ok entries) : (record s).encode (.record r) = .ok (.obj entries) := by
  rw [encode, Value.encodeRecord, h]
  rfl

theorem encode_list {items : FieldType} {limits : Limits} {values : List Value}
    {elements : List Json} (h : List.Forall₂ (fun v j ↦ items.encode v = .ok j) values elements) :
    (seq items limits).encode (.list values) = .ok (.arr elements) := by
  rw [encode, Value.encodeList, Located.traverse_eq_ok.mpr h]
  rfl

theorem encode_map {values : FieldType} {entries : List (String × Value)}
    {outs : List (String × Json)}
    (h : List.Forall₂ (fun e out ↦ out.1 = e.1 ∧ values.encode e.2 = .ok out.2) entries outs) :
    (map values).encode (.map entries) = .ok (.obj outs) := by
  rw [encode, Value.encodeMap, Located.traverseEntries_eq_ok.mpr h]
  rfl

section

variable {t : FieldType} {v : Value} {json : Json}

theorem encode_scalar_eq_ok (ht : t.isScalar) : t.encode v = .ok json ↔ v = .scalar json := by
  constructor
  · intro h
    cases v with
    | scalar stored =>
      rw [encode_scalar ht] at h
      cases h
      rfl
    | record | list | map =>
      cases t <;> first | cases h | simp [isScalar] at ht
  · intro h
    rw [h, encode_scalar ht]

theorem encode_record_eq_ok {s : Schema} : (record s).encode v = .ok json ↔
    ∃ r entries, v = .record r ∧ s.encodeEntries r = .ok entries ∧ json = .obj entries := by
  cases v with
  | record r => simp [encode, Value.encodeRecord, Located.map_eq_ok, @eq_comm _ json]
  | _ => simp [encode, Value.encodeRecord, misfit, Located.here]

theorem encode_seq_eq_ok {items : FieldType} {limits : Limits} :
    (seq items limits).encode v = .ok json ↔ ∃ values elements, v = .list values ∧
      List.Forall₂ (fun v j ↦ items.encode v = .ok j) values elements ∧ json = .arr elements := by
  cases v with
  | list values =>
    simp [encode, Value.encodeList, Located.map_eq_ok, Located.traverse_eq_ok, @eq_comm _ json]
  | _ => simp [encode, Value.encodeList, misfit, Located.here]

theorem encode_map_eq_ok {values : FieldType} : (map values).encode v = .ok json ↔
    ∃ entries outs, v = .map entries ∧
      List.Forall₂ (fun e out ↦ out.1 = e.1 ∧ values.encode e.2 = .ok out.2) entries outs ∧
      json = .obj outs := by
  cases v with
  | map entries =>
    simp [encode, Value.encodeMap, Located.map_eq_ok, Located.traverseEntries_eq_ok,
      @eq_comm _ json]
  | _ => simp [encode, Value.encodeMap, misfit, Located.here]

end

end FieldType

end TypedRecord
