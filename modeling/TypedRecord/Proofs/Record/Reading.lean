import TypedRecord.Proofs.Catalog
import TypedRecord.Proofs.Record.Assembly
import TypedRecord.Proofs.Record.Conformance
import TypedRecord.Record.Decode

namespace TypedRecord

mutual

def FieldType.read : FieldType → Json → Value
  | .record schema, .obj entries => .record (schema.read entries)
  | .seq items _, .arr elements => .list (elements.map items.read)
  | .map values, .obj entries => .map (entries.map fun e ↦ (e.1, values.read e.2))
  | _, json => .scalar json

def Schema.read : Schema → List (String × Json) → Record
  | ⟨serial, name, description, fields⟩, entries =>
    ⟨⟨serial, name, description, fields⟩, Field.readAll fields entries⟩

def Field.readAll : List Field → List (String × Json) → List Slot
  | [], _ => []
  | f :: rest, entries => f.read entries :: Field.readAll rest entries

def Field.read : Field → List (String × Json) → Slot
  | ⟨_, wireKey, type, _, _, _⟩, entries =>
    match Entries.get? wireKey entries with
    | none => .absent
    | some .null => .null
    | some json => .set (type.read json)

end

section

variable {s : Schema} {f : Field} {entries : List (String × Json)} {json : Json}

theorem FieldType.read_scalar {t : FieldType} (ht : t.isScalar) : t.read json = .scalar json := by
  cases t <;> first | rfl | simp [isScalar] at ht

theorem FieldType.read_record : (FieldType.record s).read (.obj entries) =
    .record (s.read entries) := rfl

theorem Schema.read_eq : s.read entries = ⟨s, s.fields.map fun f ↦ f.read entries⟩ := by
  obtain ⟨serial, name, description, fields⟩ := s
  have hall : ∀ fs : List Field, Field.readAll fs entries = fs.map fun f ↦ f.read entries := by
    intro fs
    induction fs with
    | nil => rfl
    | cons f fs ih => rw [Field.readAll, ih, List.map_cons]
  rw [Schema.read, hall]

theorem Field.read_eq : f.read entries = match Entries.get? f.wireKey entries with
    | none => .absent
    | some .null => .null
    | some value => .set (f.type.read value) := by
  cases f
  rfl

theorem Field.read_absent (h : Entries.get? f.wireKey entries = none) :
    f.read entries = .absent := by
  rw [Field.read_eq, h]

theorem Field.read_null (h : Entries.get? f.wireKey entries = some .null) :
    f.read entries = .null := by
  rw [Field.read_eq, h]

theorem Field.read_set (h : Entries.get? f.wireKey entries = some json) (hj : json ≠ .null) :
    f.read entries = .set (f.type.read json) := by
  rw [Field.read_eq, h]
  cases json <;> first | rfl | exact absurd rfl hj

theorem Field.isExplicit_read :
    (f.read entries).isExplicit = true ↔ f.wireKey ∈ entries.map Prod.fst := by
  rw [← Entries.get?_isSome_iff]
  cases h : Entries.get? f.wireKey entries with
  | none => simp [Field.read_absent h, Slot.isExplicit]
  | some json =>
    by_cases hj : json = .null
    · subst hj
      simp [Field.read_null h, Slot.isExplicit]
    · simp [Field.read_set h hj, Slot.isExplicit]

end

section

variable {unknown : UnknownKeys} {s : Schema} {entries : List (String × Json)}

def FieldType.Decides (unknown : UnknownKeys) (t : FieldType) : Prop :=
  ∀ json v, json ≠ .null →
    (t.accept (.aliases unknown) json = .ok v ↔ t.Conforms unknown json ∧ v = t.read json)

theorem Field.readSlot_iff {f : Field} {slot : Slot} (ih : f.type.Decides unknown) :
    (Entries.get? f.wireKey entries = none ∧ slot = .absent ∨
      ∃ a, Entries.get? f.wireKey entries = some a ∧ f.check (.aliases unknown) a = .ok slot) ↔
    ((Entries.get? f.wireKey entries = some .null → f.nullable = true) ∧
      ∀ json, json ≠ .null → Entries.get? f.wireKey entries = some json →
        f.type.Conforms unknown json) ∧ slot = f.read entries := by
  cases h : Entries.get? f.wireKey entries with
  | none => simp [Field.read_absent h]
  | some json =>
    simp only [reduceCtorEq, false_and, false_or, Option.some.injEq, exists_eq_left',
      Field.check, slotOf_eq_ok]
    by_cases hj : json = .null
    · subst hj
      simp only [Field.read_null h, true_and, ne_eq, not_true_eq_false, false_and, or_false,
        forall_const]
      refine and_congr_left fun _ ↦ ⟨fun hn ↦ ⟨hn, ?_⟩, fun hn ↦ hn.1⟩
      intro j hj hne
      exact absurd hne.symm hj
    · simp only [hj, false_and, false_or, Field.read_set h hj, ne_eq, not_false_eq_true, true_and,
        false_implies]
      constructor
      · intro h
        obtain ⟨v, hv, hs⟩ := h
        obtain ⟨hc, rfl⟩ := (ih json v hj).mp hv
        refine ⟨?_, hs⟩
        intro j _ he
        exact he ▸ hc
      · intro h
        obtain ⟨hc, hs⟩ := h
        exact ⟨_, (ih json _ hj).mpr ⟨hc json hj rfl, rfl⟩, hs⟩

theorem Schema.accept_aliases_eq_ok {r : Record} (ih : ∀ f ∈ s.fields, f.type.Decides unknown) :
    s.accept (.aliases unknown) entries = .ok r ↔
      ((∀ f ∈ s.fields, f.Conforms unknown entries) ∧
        (unknown = .reject → ∀ key ∈ entries.map Prod.fst, ∃ f ∈ s.fields, f.wireKey = key)) ∧
      r = s.read entries := by
  have hslots : ∀ slots, Intake.readAliases entries
      (s.fields.map fun f ↦ ⟨f, f.check (.aliases unknown)⟩) = .ok slots ↔ _ := fun slots ↦
    Intake.readAliases_eq_ok.trans <| List.forall₂_map_left_iff.trans <|
      forall₂_iff_map fun f hf slot ↦ Field.readSlot_iff (ih f hf)
  rw [Schema.accept_eq, Located.map_eq_ok, Schema.read_eq]
  simp only [Intake.assemble_aliases_eq_ok, hslots]
  constructor
  · intro h
    obtain ⟨slots, ⟨⟨hf, he⟩, hu, hr⟩, h⟩ := h
    subst he
    simp only [List.zip_map', List.forall_mem_map, Field.isExplicit_read] at hr
    simp only [List.mem_map, exists_exists_and_eq_and] at hu
    refine ⟨⟨fun f hm ↦ ⟨hr f hm, (hf f hm).1, (hf f hm).2⟩, ?_⟩, h.symm⟩
    simpa only [List.mem_map] using hu
  · intro h
    obtain ⟨⟨hf, hu⟩, h⟩ := h
    refine ⟨_, ⟨⟨fun f hm ↦ ⟨(hf f hm).null, (hf f hm).value⟩, rfl⟩, ?_, ?_⟩, h.symm⟩
    · simpa only [List.mem_map, exists_exists_and_eq_and] using hu
    · simp only [List.zip_map', List.forall_mem_map, Field.isExplicit_read]
      exact fun f hm ↦ (hf f hm).required

namespace FieldType

theorem decides_record (ih : ∀ f ∈ s.fields, f.type.Decides unknown) :
    (record s).Decides unknown := by
  intro json v _
  cases json with
  | obj entries =>
    have hr : ∀ r, s.accept (.aliases unknown) entries = .ok r ↔ _ :=
      fun r ↦ Schema.accept_aliases_eq_ok ih
    simp only [accept, ofObject, Located.map_eq_ok, conforms_record_iff, Json.obj.injEq,
      exists_eq_left', hr, read_record]
    constructor
    · intro h
      obtain ⟨r, ⟨hc, hr⟩, h⟩ := h
      exact ⟨hc, by rw [← h, hr]⟩
    · intro h
      obtain ⟨hc, h⟩ := h
      exact ⟨_, ⟨hc, rfl⟩, h.symm⟩
  | _ => simp [accept, ofObject, Located.here, conforms_record_iff]

theorem Decides.refuseNull {t : FieldType} (ht : t.Decides unknown) {json : Json} {v : Value} :
    TypedRecord.refuseNull (t.accept (.aliases unknown)) json = .ok v ↔
      t.Conforms unknown json ∧ v = t.read json := by
  rw [refuseNull_eq_ok]
  constructor
  · intro h
    obtain ⟨hj, hv⟩ := h
    exact (ht json v hj).mp hv
  · intro h
    obtain ⟨hc, hv⟩ := h
    exact ⟨hc.ne_null, (ht json v hc.ne_null).mpr ⟨hc, hv⟩⟩

theorem decides_seq {items : FieldType} {limits : Limits} (ih : items.Decides unknown) :
    (seq items limits).Decides unknown := by
  intro json v _
  cases json with
  | arr elements =>
    have hitem : ∀ j ∈ elements, ∀ w, refuseNull (items.accept (.aliases unknown)) j = .ok w ↔
        items.Conforms unknown j ∧ w = items.read j :=
      fun j _ w ↦ ih.refuseNull
    simp only [accept, ofArray, guardBreach_eq_ok, Limits.breach?_eq_none_iff,
      Located.map_eq_ok, Located.traverse_eq_ok, forall₂_iff_map hitem, conforms_seq_iff,
      Json.arr.injEq, exists_eq_left', read]
    constructor
    · intro h
      obtain ⟨hl, values, ⟨he, hv⟩, h⟩ := h
      exact ⟨⟨hl, he⟩, by rw [← h, hv]⟩
    · intro h
      obtain ⟨⟨hl, he⟩, h⟩ := h
      exact ⟨hl, _, ⟨he, rfl⟩, h.symm⟩
  | _ => simp [accept, ofArray, wrongType, Located.here, conforms_seq_iff]

theorem decides_map {values : FieldType} (ih : values.Decides unknown) :
    (map values).Decides unknown := by
  intro json v _
  cases json with
  | obj entries =>
    have hentry : ∀ e ∈ entries, ∀ out : String × Value,
        (out.1 = e.1 ∧ refuseNull (values.accept (.aliases unknown)) e.2 = .ok out.2 ↔
          values.Conforms unknown e.2 ∧ out = (e.1, values.read e.2)) := by
      intro e _ out
      rw [ih.refuseNull, Prod.ext_iff]
      exact and_left_comm
    simp only [accept, ofObject, Located.map_eq_ok, Located.traverseEntries_eq_ok,
      forall₂_iff_map hentry, conforms_map_iff, Json.obj.injEq, exists_eq_left', read]
    constructor
    · intro h
      obtain ⟨outs, ⟨he, ho⟩, h⟩ := h
      exact ⟨he, by rw [← h, ho]⟩
    · intro h
      obtain ⟨he, h⟩ := h
      exact ⟨_, ⟨he, rfl⟩, h.symm⟩
  | _ => simp [accept, ofObject, Located.here, conforms_map_iff]

theorem decides {t : FieldType} : t.Built → t.Decides unknown := by
  induction t using FieldType.induction with
  | scalar t hs =>
    intro ht json v hj
    rw [accept_scalar_eq_ok hs ht hj, conforms_scalar_iff hs, read_scalar hs]
  | record s ih =>
    intro ht
    exact decides_record fun f hf ↦ ih f hf (ht.record.field hf)
  | seq items limits ih =>
    intro ht
    exact decides_seq (ih ht.seq)
  | map values ih =>
    intro ht
    exact decides_map (ih ht.map)

end FieldType

theorem Schema.decode_eq_some {json : Json} {r : Record} :
    s.decode unknown json = .ok (some r) ↔ s.decodeRecord unknown json = .ok r := by
  cases json with
  | null => simp [decode, decodeRecord, Located.here]
  | _ => simp [decode, Located.map_eq_ok]

theorem Schema.decode_eq_error {json : Json} {e : WireError} :
    s.decode unknown json = .error e ↔ json ≠ .null ∧ s.decodeRecord unknown json = .error e := by
  cases json with
  | null => simp [decode]
  | _ => simp [decode, Located.map_eq_error]

/-- Decoding is acceptance as a record, with the faults told apart as those of a payload. -/
theorem Schema.map_record_decodeRecord {json : Json} :
    (s.decodeRecord unknown json).map Value.record =
      ((FieldType.record s).accept (.aliases unknown) json).mapError
        (Located.map WireFault.ofDecoding) := by
  cases json with
  | obj entries =>
    rw [decodeRecord, FieldType.accept, ofObject]
    cases s.accept (.aliases unknown) entries <;> rfl
  | _ => rfl

theorem Schema.decodeRecord_eq_ok_accept {json : Json} {r : Record} :
    s.decodeRecord unknown json = .ok r ↔
      ∃ entries, json = .obj entries ∧ s.accept (.aliases unknown) entries = .ok r := by
  cases json with
  | obj entries => simp [decodeRecord, Located.mapError_eq_ok]
  | _ => simp [decodeRecord, Located.here]

theorem Schema.decodeRecord_eq_ok {json : Json} {r : Record} (hs : s.Built) :
    s.decodeRecord unknown json = .ok r ↔ ∃ entries, json = .obj entries ∧
      (FieldType.record s).Conforms unknown json ∧ r = s.read entries := by
  have ha : ∀ entries, s.accept (.aliases unknown) entries = .ok r ↔ _ :=
    fun _ ↦ accept_aliases_eq_ok fun f hm ↦ FieldType.decides (hs.field hm)
  rw [decodeRecord_eq_ok_accept]
  refine exists_congr fun entries ↦ and_congr_right fun he ↦ ?_
  rw [ha, he, FieldType.conforms_record_iff]
  simp only [Json.obj.injEq, exists_eq_left']

/-- Decoding accepts the declared payloads exactly, and reads each slot under its alias. -/
theorem Schema.decodeRecord_accepts_exactly_conforming {s : Schema} (hs : s.Built)
    (unknown : UnknownKeys) (json : Json) :
    ((∃ r, s.decodeRecord unknown json = .ok r) ↔
      (FieldType.record s).Conforms unknown json) ∧
    ∀ r, s.decodeRecord unknown json = .ok r → ∃ entries, json = .obj entries ∧ r.schema = s ∧
      r.slots = s.fields.map fun f ↦ match Entries.get? f.wireKey entries with
        | none => .absent
        | some .null => .null
        | some value => .set (f.type.read value) := by
  refine ⟨⟨?_, ?_⟩, ?_⟩
  · intro h
    obtain ⟨r, hr⟩ := h
    obtain ⟨_, -, hc, -⟩ := (decodeRecord_eq_ok hs).mp hr
    exact hc
  · intro hc
    obtain ⟨entries, he, -⟩ := FieldType.conforms_record_iff.mp hc
    exact ⟨s.read entries, (decodeRecord_eq_ok hs).mpr ⟨entries, he, hc, rfl⟩⟩
  · intro r hr
    obtain ⟨entries, he, -, rfl⟩ := (decodeRecord_eq_ok hs).mp hr
    rw [read_eq]
    exact ⟨entries, he, rfl, List.map_congr_left fun f _ ↦ f.read_eq⟩

/-- A filter with a sequence of records, of which the second nests one more. -/
theorem Catalog.chunkFilter_decodes_nested :
    let payload : Json := .obj [
      ("must_not", .null),
      ("must", .arr [
        .obj [("field", .str "a"), ("match_any", .arr [.int 1, .str "x"])],
        .obj [("field", .str "b"), ("range", .obj [("gt", .null), ("lte", .int 5)])]])]
    chunkFilter.Built ∧ (FieldType.record chunkFilter).Conforms .reject payload ∧
      ∃ r, chunkFilter.decodeRecord .reject payload = .ok r ∧ r.slots = [
        .set (.list [
          .record ⟨fieldCondition, [.set (.scalar (.str "a")), .absent, .absent,
            .set (.list [.scalar (.int 1), .scalar (.str "x")]), .absent]⟩,
          .record ⟨fieldCondition, [.set (.scalar (.str "b")), .absent, .absent, .absent,
            .set (.record ⟨range, [.null, .absent, .absent, .set (.scalar (.int 5))]⟩)]⟩]),
        .null, .absent, .absent] := by
  intro payload
  obtain ⟨hc, -⟩ :=
    Schema.decodeRecord_accepts_exactly_conforming chunkFilter_built .reject payload
  exact ⟨chunkFilter_built, hc.mp ⟨_, rfl⟩, _, rfl, rfl⟩

end

end TypedRecord
