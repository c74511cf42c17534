import TypedRecord.Proofs.Record.NormalForm
import TypedRecord.Proofs.Record.Validity
import TypedRecord.Proofs.Schema.Equality

namespace TypedRecord

theorem Range.Agrees.allows {r s : Range} (h : r.Agrees s) {n : Json.Number} (hs : s.Allows n) :
    r.Allows n := by
  have hbound : ∀ {x y : Option Binary64} {violated : Binary64 → Bool},
      Option.Rel (fun b c ↦ b.equal c = true) x y →
      (∀ b c, b.equal c = true → violated b = violated c) →
      (∀ c, y = some c → violated c = false) → ∀ b, x = some b → violated b = false := by
    intro x y violated hxy hv hy b hb
    subst hb
    cases hxy with
    | some hbc => rw [hv _ _ hbc, hy _ rfl]
  exact ⟨hbound h.gt (fun _ _ ↦ Binary64.le_congr_right) hs.gt,
    hbound h.gte (fun _ _ ↦ Binary64.lt_congr_right) hs.gte,
    hbound h.lt (fun _ _ ↦ Binary64.le_congr_left) hs.lt,
    hbound h.lte (fun _ _ ↦ Binary64.lt_congr_left) hs.lte⟩

theorem FieldType.admits_of_equal {t : FieldType} {json : Json} :
    ∀ u : FieldType, t.equal u = true → u.Admits json → t.Admits json := by
  induction t using FieldType.induction with
  | scalar t hs ih =>
    intro u htu hu
    cases t with
    | str | bool | any | enum =>
      simp only [equal_str_iff, equal_bool_iff, equal_any_iff, equal_enum_iff] at htu
      exact htu ▸ hu
    | int r =>
      obtain ⟨s, hrs, rfl⟩ := equal_int_iff.mp htu
      cases hu with
      | int hn => exact .int ((Range.equal_iff.mp hrs).allows hn)
    | num r =>
      obtain ⟨s, hrs, rfl⟩ := equal_num_iff.mp htu
      cases hu with
      | num hn => exact .num ((Range.equal_iff.mp hrs).allows hn)
    | union ts =>
      obtain ⟨us, htus, rfl⟩ := equal_union_iff.mp htu
      cases hu with
      | union hm ha =>
        obtain ⟨t, ht, heq⟩ := exists_of_mem_outcomes htus hm
        exact .union ht (ih t ht _ heq ha)
    | record | seq | map => simp [isScalar] at hs
  | record s =>
    intro u htu hu
    obtain ⟨t, -, rfl⟩ := equal_record_iff.mp htu
    cases hu
  | seq items limits =>
    intro u htu hu
    obtain ⟨t, -, rfl⟩ := equal_seq_iff.mp htu
    cases hu
  | map values =>
    intro u htu hu
    obtain ⟨t, -, rfl⟩ := equal_map_iff.mp htu
    cases hu

theorem Value.equalAll_iff {xs ys : List Value} :
    Value.equalAll xs ys = true ↔ List.Forall₂ (fun x y ↦ x.equal y = true) xs ys := by
  induction xs generalizing ys with
  | nil => cases ys <;> simp [Value.equalAll]
  | cons x xs ih => cases ys <;> simp [Value.equalAll, ih]

theorem Value.equalEntries_iff {xs ys : List (String × Value)} : Value.equalEntries xs ys = true ↔
    List.Forall₂ (fun x y ↦ x.1 = y.1 ∧ x.2.equal y.2 = true) xs ys := by
  induction xs generalizing ys with
  | nil => cases ys <;> simp [Value.equalEntries]
  | cons x xs ih =>
    obtain ⟨key, x⟩ := x
    cases ys with
    | nil => simp [Value.equalEntries]
    | cons y ys =>
      obtain ⟨key', y⟩ := y
      simp [Value.equalEntries, ih]

theorem Slot.equalAll_iff {xs ys : List Slot} :
    Slot.equalAll xs ys = true ↔ List.Forall₂ (fun x y ↦ x.equal y = true) xs ys := by
  induction xs generalizing ys with
  | nil => cases ys <;> simp [Slot.equalAll]
  | cons x xs ih => cases ys <;> simp [Slot.equalAll, ih]

theorem Record.equal_iff {r r' : Record} : r.equal r' = true ↔ r.schema.equal r'.schema = true ∧
    List.Forall₂ (fun x y ↦ x.equal y = true) r.slots r'.slots := by
  cases r
  rw [Record.equal, Bool.and_eq_true, Slot.equalAll_iff]

section

variable {unknown : UnknownKeys} {adopts : Schema → Schema → Prop}

/-- The value is encoded as a payload that conforms to the type and reads as an equal value. -/
structure Value.ReturnsBy (unknown : UnknownKeys) (t : FieldType) (v : Value) (json : Json) :
    Prop where
  encode : t.encode v = .ok json
  conforms : t.Conforms unknown json
  equal : (t.read json).equal v = true

theorem Field.slot_returns {f g : Field} {r : Record} (hfg : f.Agrees g)
    (ih : ∀ v : Value, v.Fits adopts g.type → ∃ json, v.ReturnsBy unknown f.type json) {slot : Slot}
    (hslot : r.slot? f.name = some slot) (hfit : slot.Fits adopts g) :
    ∃ out : Option Json, f.encode r = .ok (out.map (f.wireKey, ·)).toList ∧
      ∀ entries, Entries.get? f.wireKey entries = out →
        f.Conforms unknown entries ∧ (f.read entries).equal slot = true := by
  cases slot with
  | absent =>
    have hr : f.required = false := hfg.required.trans hfit
    refine ⟨none, encode_absent hslot, fun entries he ↦ ⟨conforms_of_absent hr he, ?_⟩⟩
    rw [read_absent he, Slot.equal]
  | null =>
    have hn : f.nullable = true := hfg.nullable.trans hfit
    refine ⟨some .null, encode_null hslot hn, fun entries he ↦ ⟨conforms_of_null hn he, ?_⟩⟩
    rw [read_null he, Slot.equal]
  | set v =>
    obtain ⟨json, henc, hc, heq⟩ := ih v hfit
    refine ⟨some json, encode_set hslot henc, fun entries he ↦ ⟨conforms_of_value hc he, ?_⟩⟩
    rw [read_set he hc.ne_null, Slot.equal]
    exact heq

/-- The fields of a schema correspond to the fields and slots of a record of an equal schema. -/
theorem Record.fields_agree {s : Schema} {r : Record} (he : s.equal r.schema = true)
    (hw : r.Whole adopts) : List.Forall₂ (fun f p ↦ f.Agrees p.1) s.fields r.fields :=
  hw.forall₂_fields (Schema.equal_iff.mp he).2.2

theorem Schema.field_returns {f : Field} {r : Record} (hr : r.schema.Built) (hw : r.Whole adopts)
    (hf : ∃ p ∈ r.fields, f.Agrees p.1)
    (ih : ∀ (u : FieldType) (v : Value), f.type.equal u = true → v.Fits adopts u →
      ∃ json, v.ReturnsBy unknown f.type json) :
    ∃ out : Option Json, f.encode r = .ok (out.map (f.wireKey, ·)).toList ∧
      ∀ entries, Entries.get? f.wireKey entries = out → f.Conforms unknown entries ∧
        ∀ p ∈ r.fields, f.Agrees p.1 → (f.read entries).equal p.2 = true := by
  have hslot : ∀ p ∈ r.fields, f.Agrees p.1 → r.slot? f.name = some p.2 :=
    fun p hp hfp ↦ hfp.name ▸ Record.slot?_of_mem hr.names hp
  obtain ⟨p, hp, hfp⟩ := hf
  have hfit := hw.slot_fits hp
  obtain ⟨out, henc, hout⟩ :=
    Field.slot_returns hfp (fun v ↦ ih p.1.type v hfp.type) (hslot p hp hfp) hfit
  refine ⟨out, henc, fun entries hget ↦ ?_⟩
  obtain ⟨hc, heq⟩ := hout entries hget
  refine ⟨hc, fun q hq hfq ↦ ?_⟩
  have hpq : p.2 = q.2 := Option.some.inj ((hslot p hp hfp).symm.trans (hslot q hq hfq))
  exact hpq ▸ heq

theorem Schema.record_returns {s : Schema} {r : Record} (hs : s.Built) (hr : r.schema.Built)
    (he : s.equal r.schema = true) (hw : r.Whole adopts)
    (ih : ∀ f ∈ s.fields, ∀ (u : FieldType) (v : Value), f.type.equal u = true → v.Fits adopts u →
      ∃ json, v.ReturnsBy unknown f.type json) :
    ∃ entries, s.encodeEntries r = .ok entries ∧
      (FieldType.record s).Conforms unknown (.obj entries) ∧ (s.read entries).equal r = true := by
  have hagree := Record.fields_agree he hw
  -- one value is chosen for each field, whatever the others are encoded as
  have hfield := fun f hf ↦
    Schema.field_returns hr hw (exists_of_mem_outcomes hagree.flip hf) (ih f hf)
  choose! out henc hout using hfield
  have hget : ∀ f ∈ s.fields,
      Entries.get? f.wireKey (Entries.collect Field.wireKey out s.fields) = out f :=
    fun f hf ↦ Entries.get?_collect hs.wireKeys hf
  refine ⟨_, encodeEntries_eq_ok ?_ henc, FieldType.conforms_record_iff.mpr ⟨_, rfl, ?_, ?_⟩,
    Record.equal_iff.mpr ?_⟩
  · intro p hp _
    obtain ⟨f, hf, hfp⟩ := exists_of_mem_outcomes hagree hp
    exact ⟨f, hf, hfp.name⟩
  · exact fun f hf ↦ (hout f hf _ (hget f hf)).1
  · intro _ key hk
    exact Entries.exists_of_mem_collect_keys hk
  · have hslots : r.fields.map Prod.snd = r.slots := List.map_snd_zip (Nat.le_of_eq hw.length)
    rw [read_eq, ← hslots, List.forall₂_map_left_iff, List.forall₂_map_right_iff]
    rw [List.forall₂_iff_zip] at hagree ⊢
    refine ⟨he, hagree.1, fun {f p} hm ↦ ?_⟩
    obtain ⟨hf, hp⟩ := List.of_mem_zip hm
    exact (hout f hf _ (hget f hf)).2 p hp (hagree.2 hm)

namespace Value

theorem list_returns {items : FieldType} {limits : Limits} {values : List Value}
    (hl : limits.Allows values.length)
    (ih : ∀ v ∈ values, ∃ json, v.ReturnsBy unknown items json) :
    ∃ json, (Value.list values).ReturnsBy unknown (.seq items limits) json := by
  obtain ⟨elements, he⟩ := exists_outcomes ih
  refine ⟨.arr elements, FieldType.encode_list (he.imp fun _ _ h ↦ h.encode),
    FieldType.conforms_seq_iff.mpr ⟨elements, rfl, he.length_eq ▸ hl, ?_⟩, ?_⟩
  · intro json hj
    obtain ⟨v, -, h⟩ := exists_of_mem_outcomes he hj
    exact h.conforms
  · rw [FieldType.read, Value.equal, Value.equalAll_iff, List.forall₂_map_left_iff]
    exact (he.imp fun _ _ h ↦ h.equal).flip

theorem map_returns {values : FieldType} {entries : List (String × Value)}
    (ih : ∀ e ∈ entries, ∃ json, e.2.ReturnsBy unknown values json) :
    ∃ json, (Value.map entries).ReturnsBy unknown (.map values) json := by
  have hentry : ∀ e ∈ entries, ∃ out : String × Json, out.1 = e.1 ∧
      e.2.ReturnsBy unknown values out.2 := by
    intro e hm
    obtain ⟨json, h⟩ := ih e hm
    exact ⟨(e.1, json), rfl, h⟩
  obtain ⟨outs, he⟩ := exists_outcomes hentry
  refine ⟨.obj outs, FieldType.encode_map (he.imp fun _ _ h ↦ ⟨h.1, h.2.encode⟩),
    FieldType.conforms_map_iff.mpr ⟨outs, rfl, ?_⟩, ?_⟩
  · intro out ho
    obtain ⟨e, -, -, h⟩ := exists_of_mem_outcomes he ho
    exact h.conforms
  · rw [FieldType.read, Value.equal, Value.equalEntries_iff, List.forall₂_map_left_iff]
    exact (he.imp fun _ _ h ↦ ⟨h.1, h.2.equal⟩).flip

end Value

theorem FieldType.value_returns (ha : ∀ s u, adopts s u → u.Built ∧ (s = u ∨ s.equal u = true))
    {t : FieldType} : t.Built → ∀ (u : FieldType) (v : Value), t.equal u = true →
      v.Fits adopts u → ∃ json, v.ReturnsBy unknown t json := by
  induction t using FieldType.induction with
  | scalar t hs =>
    intro _ u v htu hv
    cases hv with
    | scalar hadmits hp =>
      refine ⟨_, encode_scalar hs, .scalar (admits_of_equal u htu hadmits), ?_⟩
      rw [read_scalar hs, Value.equal]
      exact Json.equal_self_of_proper hp
    | record | list | map => cases t <;> simp [isScalar, equal] at hs htu
  | record s ih =>
    intro ht u v htu hv
    have hs := ht.record
    obtain ⟨s', hss, rfl⟩ := equal_record_iff.mp htu
    obtain ⟨r, rfl, had, hw⟩ := Value.fits_record_iff.mp hv
    obtain ⟨hr, hsr⟩ := ha _ _ had
    -- the schema of a record that was built before is equal to the one declared for it
    have he : s.equal r.schema = true := by
      obtain rfl | hsr := hsr
      · exact hss
      · exact Schema.equal_trans hss hsr
    obtain ⟨entries, henc, hc, heq⟩ :=
      Schema.record_returns hs hr he hw fun f hf ↦ ih f hf (hs.field hf)
    refine ⟨.obj entries, encode_record henc, hc, ?_⟩
    rw [read_record, Value.equal]
    exact heq
  | seq items limits ih =>
    intro ht u v htu hv
    obtain ⟨items', hii, rfl⟩ := equal_seq_iff.mp htu
    cases hv with
    | scalar h => cases h
    | list hl hv => exact Value.list_returns hl fun v hm ↦ ih ht.seq items' v hii (hv v hm)
  | map values ih =>
    intro ht u v htu hv
    obtain ⟨values', hvv, rfl⟩ := equal_map_iff.mp htu
    cases hv with
    | scalar h => cases h
    | map hk hv => exact Value.map_returns fun e hm ↦ ih ht.map values' e.2 hvv (hv e hm)

end

end TypedRecord
