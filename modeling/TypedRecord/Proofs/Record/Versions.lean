import TypedRecord.Proofs.World

namespace TypedRecord

/-- A value is stored as the type stores its values; the records within supply no field that the
schema at their place does not have, and none as null that is not nullable there. Bounds do not
count, and neither do required fields. -/
inductive Value.Suits : FieldType → Value → Prop
  | scalar {t : FieldType} {json : Json} : t.isScalar = true → Value.Suits t (.scalar json)
  | record {s : Schema} {r : Record} :
      (∀ p ∈ r.fields, p.2.isExplicit = true → ∃ f ∈ s.fields, f.name = p.1.name) →
      (∀ f ∈ s.fields, r.slot? f.name = some .null → f.nullable = true) →
      (∀ f ∈ s.fields, ∀ v, r.slot? f.name = some (.set v) → Value.Suits f.type v) →
      Value.Suits (.record s) (.record r)
  | list {items : FieldType} {limits : Limits} {values : List Value} :
      (∀ v ∈ values, Value.Suits items v) → Value.Suits (.seq items limits) (.list values)
  | map {values : FieldType} {entries : List (String × Value)} :
      (∀ e ∈ entries, Value.Suits values e.2) → Value.Suits (.map values) (.map entries)

/-- The entries are those of the supplied fields, each under the alias that the schema gives to it,
in the order of the schema, and null just where the field is null and may be. -/
structure Record.Written (s : Schema) (r : Record) (entries : List (String × Json)) : Prop where
  keys : entries.map Prod.fst =
    (s.fields.filter fun f ↦ r.isExplicit f.name).map Field.wireKey
  null : ∀ f ∈ s.fields,
    Entries.get? f.wireKey entries = some .null ↔ r.slot? f.name = some .null
  nullable : ∀ f ∈ s.fields, Entries.get? f.wireKey entries = some .null → f.nullable = true

inductive Value.WrittenAs : FieldType → Value → Json → Prop
  | scalar {t : FieldType} {json : Json} :
      t.isScalar = true → json ≠ .null → Value.WrittenAs t (.scalar json) json
  | record {s : Schema} {r : Record} {entries : List (String × Json)} :
      r.Written s entries →
      (∀ f ∈ s.fields, ∀ v json, r.slot? f.name = some (.set v) →
        Entries.get? f.wireKey entries = some json → Value.WrittenAs f.type v json) →
      Value.WrittenAs (.record s) (.record r) (.obj entries)
  | list {items : FieldType} {limits : Limits} {values : List Value} {elements : List Json} :
      values.length = elements.length →
      (∀ v json, (v, json) ∈ values.zip elements → Value.WrittenAs items v json) →
      Value.WrittenAs (.seq items limits) (.list values) (.arr elements)
  | map {values : FieldType} {entries : List (String × Value)} {outs : List (String × Json)} :
      outs.map Prod.fst = entries.map Prod.fst →
      (∀ e out, (e, out) ∈ entries.zip outs → Value.WrittenAs values e.2 out.2) →
      Value.WrittenAs (.map values) (.map entries) (.obj outs)

theorem Value.WrittenAs.ne_null {t : FieldType} {v : Value} {json : Json}
    (h : v.WrittenAs t json) : json ≠ .null := by
  cases h with
  | scalar _ h => exact h
  | record | list | map => nofun

section

variable {s : Schema} {f : Field} {r : Record}

theorem Field.exists_emits_iff : (∃ out, f.Emits r out) ↔
    (r.slot? f.name = some .null → f.nullable = true) ∧
      ∀ v, r.slot? f.name = some (.set v) → ∃ json, f.type.encode v = .ok json := by
  constructor
  · intro h
    obtain ⟨out, h⟩ := h
    cases h with
    | absent h =>
      obtain h | h := h
      · simp [h]
      · simp [h]
    | null h hn => simp [h, hn]
    | set h hv => simp [h, hv]
  · intro h
    obtain ⟨hnull, hset⟩ := h
    cases hslot : r.slot? f.name with
    | none => exact ⟨none, .absent (.inl hslot)⟩
    | some slot =>
      cases slot with
      | absent => exact ⟨none, .absent (.inr hslot)⟩
      | null => exact ⟨some .null, .null hslot (hnull hslot)⟩
      | set v =>
        obtain ⟨json, hv⟩ := hset v hslot
        exact ⟨some json, .set hslot hv⟩

theorem Schema.exists_encodeEntries_iff : (∃ entries, s.encodeEntries r = .ok entries) ↔
    (∀ p ∈ r.fields, p.2.isExplicit = true → ∃ f ∈ s.fields, f.name = p.1.name) ∧
      ∀ f ∈ s.fields, ∃ out, f.Emits r out := by
  constructor
  · intro h
    obtain ⟨entries, h⟩ := h
    obtain ⟨hu, out, hout, -⟩ := encodeEntries_eq_ok_iff.mp h
    exact ⟨hu, fun f hf ↦ ⟨out f, hout f hf⟩⟩
  · intro h
    obtain ⟨hu, hfield⟩ := h
    choose! out hout using hfield
    exact ⟨_, encodeEntries_eq_ok_iff.mpr ⟨hu, out, hout, rfl⟩⟩

/-- Encoding fails on no other values than those that do not suit the type. -/
theorem FieldType.exists_encode_iff {t : FieldType} :
    ∀ v : Value, (∃ json, t.encode v = .ok json) ↔ v.Suits t := by
  induction t using FieldType.induction with
  | scalar t hs =>
    intro v
    simp only [encode_scalar_eq_ok hs]
    constructor
    · intro h
      obtain ⟨json, rfl⟩ := h
      exact .scalar hs
    · intro h
      cases h with
      | @scalar _ json => exact ⟨json, rfl⟩
      | record | list | map => simp [isScalar] at hs
  | record s ih =>
    intro v
    constructor
    · intro h
      obtain ⟨json, h⟩ := h
      obtain ⟨r, entries, rfl, he, -⟩ := encode_record_eq_ok.mp h
      obtain ⟨hu, hfield⟩ := Schema.exists_encodeEntries_iff.mp ⟨entries, he⟩
      refine .record hu ?_ ?_
      · exact fun f hf ↦ (Field.exists_emits_iff.mp (hfield f hf)).1
      · intro f hf v hslot
        exact (ih f hf v).mp ((Field.exists_emits_iff.mp (hfield f hf)).2 v hslot)
    · intro h
      cases h with
      | scalar h => cases h
      | record hu hnull hset =>
        obtain ⟨entries, he⟩ := Schema.exists_encodeEntries_iff.mpr ⟨hu, fun f hf ↦
          Field.exists_emits_iff.mpr ⟨hnull f hf, fun v h ↦ (ih f hf v).mpr (hset f hf v h)⟩⟩
        exact ⟨.obj entries, encode_record he⟩
  | seq items limits ih =>
    intro v
    constructor
    · intro h
      obtain ⟨json, h⟩ := h
      obtain ⟨values, elements, rfl, he, -⟩ := encode_seq_eq_ok.mp h
      refine .list fun v hv ↦ ?_
      obtain ⟨json, -, hj⟩ := exists_of_mem_outcomes he.flip hv
      exact (ih v).mp ⟨json, hj⟩
    · intro h
      cases h with
      | scalar h => cases h
      | list h =>
        obtain ⟨elements, he⟩ := exists_outcomes fun v hv ↦ (ih v).mpr (h v hv)
        exact ⟨.arr elements, encode_list he⟩
  | map values ih =>
    intro v
    constructor
    · intro h
      obtain ⟨json, h⟩ := h
      obtain ⟨entries, outs, rfl, ho, -⟩ := encode_map_eq_ok.mp h
      refine .map fun e he ↦ ?_
      obtain ⟨out, -, -, hj⟩ := exists_of_mem_outcomes ho.flip he
      exact (ih e.2).mp ⟨out.2, hj⟩
    · intro h
      cases h with
      | scalar h => cases h
      | @map _ entries h =>
        have hentry : ∀ e ∈ entries, ∃ out : String × Json,
            out.1 = e.1 ∧ values.encode e.2 = .ok out.2 := by
          intro e he
          obtain ⟨json, hj⟩ := (ih e.2).mpr (h e he)
          exact ⟨(e.1, json), rfl, hj⟩
        obtain ⟨outs, ho⟩ := exists_outcomes hentry
        exact ⟨.obj outs, encode_map ho⟩

end

section

variable {adopts : Schema → Schema → Prop} {s : Schema} {f : Field} {r : Record}
  {out : Option Json}

theorem Field.Emits.isSome (h : f.Emits r out) : out.isSome = r.isExplicit f.name := by
  cases h with
  | absent h =>
    obtain h | h := h
    · simp [Record.isExplicit, h]
    · simp [Record.isExplicit, h, Slot.isExplicit]
  | null h | set h => simp [Record.isExplicit, h, Slot.isExplicit]

/-- Null stands for null only, as values never are encoded as null. -/
theorem Field.Emits.null_iff (h : f.Emits r out)
    (hv : ∀ v json, r.slot? f.name = some (.set v) → f.type.encode v = .ok json → json ≠ .null) :
    out = some .null ↔ r.slot? f.name = some .null := by
  cases h with
  | absent h =>
    obtain h | h := h
    · simp [h]
    · simp [h]
  | null h => simp [h]
  | set h he => simp [h, hv _ _ h he]

theorem Schema.encodeEntries_written {entries : List (String × Json)}
    (hs : (s.fields.map Field.wireKey).Nodup)
    (ih : ∀ f ∈ s.fields, ∀ v json, r.slot? f.name = some (.set v) →
      f.type.encode v = .ok json → v.WrittenAs f.type json)
    (h : s.encodeEntries r = .ok entries) :
    (Value.record r).WrittenAs (.record s) (.obj entries) := by
  obtain ⟨hu, out, hout, rfl⟩ := encodeEntries_eq_ok_iff.mp h
  have hget : ∀ f ∈ s.fields,
      Entries.get? f.wireKey (Entries.collect Field.wireKey out s.fields) = out f :=
    fun f hf ↦ Entries.get?_collect hs hf
  have hnull : ∀ f ∈ s.fields, out f = some .null ↔ r.slot? f.name = some .null :=
    fun f hf ↦ (hout f hf).null_iff fun v json hslot he ↦ (ih f hf v json hslot he).ne_null
  refine .record ⟨?_, ?_, ?_⟩ ?_
  · rw [Entries.map_fst_collect, List.filter_congr fun f hf ↦ (hout f hf).isSome]
  · intro f hf
    rw [hget f hf, hnull f hf]
  · intro f hf hn
    rw [hget f hf, hnull f hf] at hn
    exact (Field.exists_emits_iff.mp ⟨out f, hout f hf⟩).1 hn
  · intro f hf v json hslot hj
    rw [hget f hf] at hj
    have hemits := hout f hf
    rw [hj] at hemits
    cases hemits with
    | null h => simp [hslot] at h
    | set h he =>
      rw [hslot] at h
      cases h
      exact ih f hf v json hslot he

/-- Whatever type a value was checked against, and whatever type encodes it. -/
theorem FieldType.encode_written {t : FieldType} : t.Built → ∀ (u : FieldType) (v : Value)
    (json : Json), v.Fits adopts u → t.encode v = .ok json → v.WrittenAs t json := by
  induction t using FieldType.induction with
  | scalar t hs =>
    intro _ u v json hv h
    obtain rfl := (encode_scalar_eq_ok hs).mp h
    cases hv with
    | scalar hadmits => exact .scalar hs hadmits.ne_null
  | record s ih =>
    intro ht u v json hv h
    have hs := ht.record
    obtain ⟨r, entries, rfl, he, rfl⟩ := encode_record_eq_ok.mp h
    cases hv with
    | record _ _ _ _ hset =>
      refine Schema.encodeEntries_written hs.wireKeys (fun f hf v json hslot hj ↦ ?_) he
      -- the value was checked for a field of the record's own schema, which `f` need not be
      obtain ⟨g, hg, -⟩ := Record.mem_fields_of_slot? hslot
      exact ih f hf (hs.field hf) g.type v json (hset g v hg) hj
  | seq items limits ih =>
    intro ht u v json hv h
    obtain ⟨values, elements, rfl, he, rfl⟩ := encode_seq_eq_ok.mp h
    cases hv with
    | @list items' _ _ _ hfit =>
      refine .list he.length_eq fun v json hm ↦ ?_
      have hv := hfit v (List.of_mem_zip hm).1
      exact ih ht.seq items' v json hv (List.forall₂_zip he hm)
  | map values ih =>
    intro ht u v json hv h
    obtain ⟨entries, outs, rfl, ho, rfl⟩ := encode_map_eq_ok.mp h
    cases hv with
    | @map values' _ _ hfit =>
      refine .map (map_outcomes_eq (ho.imp fun _ _ h ↦ h.1)) fun e out hm ↦ ?_
      have hv := hfit e (List.of_mem_zip hm).1
      exact ih ht.map values' e.2 out.2 hv (List.forall₂_zip ho hm).2

end

namespace World

/-- Any record that a program ever holds is encoded under any schema, unless something in it does
not suit that schema. -/
theorem Reachable.encode_checked {w : World} (hw : w.Reachable) {r : Record} (hr : r ∈ w.records)
    {s : Schema} (hs : s.Built) :
    ((∃ json, s.encode r = .ok json) ↔ (Value.record r).Suits (.record s)) ∧
      ∀ json, s.encode r = .ok json → (Value.record r).WrittenAs (.record s) json := by
  have hfit : (Value.record r).Fits w.Adopts (.record r.schema) :=
    Value.fits_record_iff.mpr ⟨r, rfl, ⟨hw.sound.schema r hr, .inl rfl⟩, hw.sound.whole r hr⟩
  have hencode : (FieldType.record s).encode (.record r) = s.encode r := rfl
  rw [← hencode]
  exact ⟨FieldType.exists_encode_iff _,
    fun json h ↦ FieldType.encode_written (.ofSchema hs) _ _ json hfit h⟩

def revisedRange (nullable : Bool) : Schema := ⟨2, "Range", none,
  [{ Field.plain "lt" (.num {}) true with nullable },
    { Field.plain "gt" (.num { gt := some (.ofInt 5) }) true with wireKey := "above" }]⟩

def revisedCondition (nullable : Bool) : Schema := ⟨3, "FieldCondition", none,
  [{ Field.plain "range" (.record (revisedRange nullable)) false with wireKey := "bounds" },
    { Field.plain "match_all" .any false with nullable := true },
    Field.plain "field" (.str {}) true,
    Field.plain "weight" (.num {}) true]⟩

/-- The new bound, which the number is below, is not looked at, nor is a new field that is required
and that the record does not have. -/
theorem condition_encode_checked :
    let revised := revisedCondition true
    let r := condition .absent .null
    let json : Json := .obj [("bounds", .obj [("lt", .null), ("above", .int 1)]),
      ("match_all", .null), ("field", .str "x")]
    (∃ w : World, w.Reachable ∧ r ∈ w.records) ∧ revised.Built ∧ revised.encode r = .ok json ∧
      (Value.record r).Suits (.record revised) ∧
      (Value.record r).WrittenAs (.record revised) json := by
  intro revised r json
  obtain ⟨w, hw, -, hr⟩ := condition_reachable
  have hs : revised.Built := by
    refine .intro rfl fun t ht ↦ ?_
    obtain rfl := List.mem_singleton.mp ht
    exact .intro rfl nofun
  have he : revised.encode r = .ok json := rfl
  obtain ⟨hsuits, hwritten⟩ := hw.encode_checked hr hs
  exact ⟨⟨w, hw, hr⟩, hs, he, hsuits.mp ⟨json, he⟩, hwritten json he⟩

/-- A null is refused, however deep, where the other version does not take it. -/
example : (revisedCondition false).encode (condition .absent .null) =
    .error ⟨⟨[.key "bounds", .key "lt"]⟩, .mismatch .unexpectedNull⟩ :=
  rfl

end World

end TypedRecord
