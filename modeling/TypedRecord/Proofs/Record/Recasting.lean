import TypedRecord.Proofs.Record.Congruence
import TypedRecord.Proofs.Record.Versions

namespace TypedRecord

mutual

/-- The value laid out anew for the type, at any depth: fields that the type does not have are
dropped, and those that the value does not have are absent. -/
def FieldType.recast : FieldType → Value → Value
  | .record schema, .record r => .record (schema.recast r)
  | .seq items _, .list values => .list (values.map items.recast)
  | .map values, .map entries => .map (entries.map fun e ↦ (e.1, values.recast e.2))
  | _, v => v

def Schema.recast : Schema → Record → Record
  | ⟨serial, name, description, fields⟩, r =>
    ⟨⟨serial, name, description, fields⟩, Field.recastAll fields r⟩

def Field.recastAll : List Field → Record → List Slot
  | [], _ => []
  | f :: rest, r => f.recast r :: Field.recastAll rest r

def Field.recast : Field → Record → Slot
  | ⟨name, _, type, _, _, _⟩, r =>
    match r.slot? name with
    | none | some .absent => .absent
    | some .null => .null
    | some (.set v) => .set (type.recast v)

end

/-- No record within supplies a field that the schema at its place does not have. -/
inductive Value.Within : FieldType → Value → Prop
  | scalar {t : FieldType} {json : Json} : t.isScalar = true → Value.Within t (.scalar json)
  | record {s : Schema} {r : Record} :
      (∀ p ∈ r.fields, p.2.isExplicit = true → ∃ f ∈ s.fields, f.name = p.1.name) →
      (∀ f ∈ s.fields, ∀ v, r.slot? f.name = some (.set v) → Value.Within f.type v) →
      Value.Within (.record s) (.record r)
  | list {items : FieldType} {limits : Limits} {values : List Value} :
      (∀ v ∈ values, Value.Within items v) → Value.Within (.seq items limits) (.list values)
  | map {values : FieldType} {entries : List (String × Value)} :
      (∀ e ∈ entries, Value.Within values e.2) → Value.Within (.map values) (.map entries)

structure Field.Kept (f g : Field) : Prop where
  name : f.name = g.name
  wireKey : f.wireKey = g.wireKey
  required : f.required = g.required
  nullable : f.nullable = g.nullable
  description : f.description = g.description

/-- What is written under the second type can be read under the first one: a field of either schema
has its name and its alias in common with a field of the other, or neither of them, and those that
only the reader has are optional. -/
inductive FieldType.ReadsFrom : FieldType → FieldType → Prop
  | scalar {t : FieldType} : t.isScalar = true → FieldType.ReadsFrom t t
  | record {s s' : Schema} :
      (∀ f ∈ s.fields, ∀ g ∈ s'.fields, f.name = g.name ∨ f.wireKey = g.wireKey → f.Kept g) →
      (∀ f ∈ s.fields, (∃ g ∈ s'.fields, f.name = g.name) ∨ f.required = false) →
      (∀ f ∈ s.fields, ∀ g ∈ s'.fields, f.name = g.name → FieldType.ReadsFrom f.type g.type) →
      FieldType.ReadsFrom (.record s) (.record s')
  | seq {items items' : FieldType} {limits : Limits} : FieldType.ReadsFrom items items' →
      FieldType.ReadsFrom (.seq items limits) (.seq items' limits)
  | map {values values' : FieldType} : FieldType.ReadsFrom values values' →
      FieldType.ReadsFrom (.map values) (.map values')

section

variable {s : Schema} {f : Field} {r : Record} {v : Value}

theorem FieldType.recast_scalar {t : FieldType} (ht : t.isScalar) : t.recast v = v := by
  cases t <;> first | rfl | simp [isScalar] at ht

theorem Schema.recast_eq : s.recast r = ⟨s, s.fields.map fun f ↦ f.recast r⟩ := by
  obtain ⟨serial, name, description, fields⟩ := s
  have hall : ∀ fs : List Field, Field.recastAll fs r = fs.map fun f ↦ f.recast r := by
    intro fs
    induction fs with
    | nil => rfl
    | cons f fs ih => rw [Field.recastAll, ih, List.map_cons]
  rw [Schema.recast, hall]

theorem Field.recast_eq : f.recast r = match r.slot? f.name with
    | none | some .absent => .absent
    | some .null => .null
    | some (.set v) => .set (f.type.recast v) := by
  cases f
  rfl

theorem Field.recast_absent (h : r.slot? f.name = none ∨ r.slot? f.name = some .absent) :
    f.recast r = .absent := by
  rw [recast_eq]
  obtain h | h := h
  · rw [h]
  · rw [h]

theorem Field.recast_null (h : r.slot? f.name = some .null) : f.recast r = .null := by
  rw [recast_eq, h]

theorem Field.recast_set (h : r.slot? f.name = some (.set v)) :
    f.recast r = .set (f.type.recast v) := by
  rw [recast_eq, h]

theorem Value.within_record_iff : (Value.record r).Within (.record s) ↔
    (∀ p ∈ r.fields, p.2.isExplicit = true → ∃ f ∈ s.fields, f.name = p.1.name) ∧
      ∀ f ∈ s.fields, ∀ v, r.slot? f.name = some (.set v) → v.Within f.type := by
  constructor
  · intro h
    cases h with
    | record hk hv => exact ⟨hk, hv⟩
  · exact fun h ↦ .record h.1 h.2

theorem Value.within_list_iff {items : FieldType} {limits : Limits} {values : List Value} :
    (Value.list values).Within (.seq items limits) ↔ ∀ v ∈ values, v.Within items := by
  constructor
  · intro h
    cases h with
    | list h => exact h
  · exact .list

theorem Value.within_map_iff {values : FieldType} {entries : List (String × Value)} :
    (Value.map entries).Within (.map values) ↔ ∀ e ∈ entries, e.2.Within values := by
  constructor
  · intro h
    cases h with
    | map h => exact h
  · exact .map

/-- What can be encoded supplies no field that is unknown. -/
theorem Value.Suits.within {t : FieldType} (h : v.Suits t) : v.Within t := by
  induction h with
  | scalar h => exact .scalar h
  | record hk _ _ ih => exact .record hk ih
  | list _ ih => exact .list ih
  | map _ ih => exact .map ih

end

section

variable {adopts : Schema → Schema → Prop} {s s' : Schema} {f g : Field} {r : Record}
  {entries : List (String × Json)}

theorem Schema.Alike.exists_field_of_slot? (hs : s.Alike r.schema) {name : String} {slot : Slot}
    (h : r.slot? name = some slot) : ∃ f ∈ s.fields, f.name = name := by
  obtain ⟨g, hg, hname⟩ := Record.mem_fields_of_slot? h
  obtain ⟨f, hf, hfg⟩ := hs.exists_field hg
  exact ⟨f, hf, hfg.name.trans hname⟩

structure Field.ReadsBack (f : Field) (r : Record) (entries : List (String × Json)) : Prop where
  conforms : ∀ unknown, f.Conforms unknown entries ↔
    (unknown = .reject → ∀ v, r.slot? f.name = some (.set v) → v.Within f.type)
  read : f.read entries = f.recast r

structure FieldType.ReadsBack (t : FieldType) (v : Value) (json : Json) : Prop where
  conforms : ∀ unknown, t.Conforms unknown json ↔ (unknown = .reject → v.Within t)
  read : t.read json = t.recast v

theorem FieldType.ReadsBack.ne_null {t : FieldType} {v : Value} {json : Json}
    (h : t.ReadsBack v json) : json ≠ .null :=
  ((h.conforms .ignore).mpr nofun).ne_null

theorem Field.readsBack_absent (hq : f.required = false)
    (hslot : r.slot? f.name = none ∨ r.slot? f.name = some .absent)
    (hget : Entries.get? f.wireKey entries = none) : f.ReadsBack r entries where
  conforms unknown := by
    refine iff_of_true (conforms_of_absent hq hget) fun _ v hv ↦ ?_
    rw [hv] at hslot
    simp at hslot
  read := by rw [read_absent hget, recast_absent hslot]

theorem Field.readsBack_null (hn : f.nullable = true) (hslot : r.slot? f.name = some .null)
    (hget : Entries.get? f.wireKey entries = some .null) : f.ReadsBack r entries where
  conforms unknown := by
    refine iff_of_true (conforms_of_null hn hget) fun _ v hv ↦ ?_
    rw [hslot] at hv
    cases hv
  read := by rw [read_null hget, recast_null hslot]

theorem Field.readsBack_set {v : Value} {json : Json} (h : f.type.ReadsBack v json)
    (hslot : r.slot? f.name = some (.set v))
    (hget : Entries.get? f.wireKey entries = some json) : f.ReadsBack r entries where
  conforms unknown := by
    rw [hslot]
    simp only [Option.some.injEq, Slot.set.injEq, forall_eq']
    rw [← h.conforms unknown]
    exact ⟨fun hf ↦ hf.value json h.ne_null hget, fun hc ↦ conforms_of_value hc hget⟩
  read := by rw [read_set hget h.ne_null, recast_set hslot, h.read]

/-- The slot that the writer emits, seen by a reader that has kept the field. -/
theorem Field.readsBack_of_emits (hfg : f.Kept g)
    (habsent : r.slot? g.name = none ∨ r.slot? g.name = some .absent → g.required = false)
    (h : g.Emits r (Entries.get? g.wireKey entries))
    (ih : ∀ v json, r.slot? g.name = some (.set v) → g.type.encode v = .ok json →
      f.type.ReadsBack v json) : f.ReadsBack r entries := by
  generalize hget : Entries.get? g.wireKey entries = out at h
  rw [← hfg.wireKey] at hget
  cases h with
  | absent hslot =>
    have hq := hfg.required.trans (habsent hslot)
    rw [← hfg.name] at hslot
    exact readsBack_absent hq hslot hget
  | null hslot hn =>
    rw [← hfg.name] at hslot
    exact readsBack_null (hfg.nullable.trans hn) hslot hget
  | set hslot hv =>
    have hreads := ih _ _ hslot hv
    rw [← hfg.name] at hslot
    exact readsBack_set hreads hslot hget

/-- A field of the reader either has one of the writer to read from, or is left out. -/
theorem Schema.readsBack_field {out : Field → Option Json}
    (hkept : ∀ f ∈ s.fields, ∀ g ∈ s'.fields,
      f.name = g.name ∨ f.wireKey = g.wireKey → f.Kept g)
    (hnew : ∀ f ∈ s.fields, (∃ g ∈ s'.fields, f.name = g.name) ∨ f.required = false)
    (hs' : s'.Built) (ha : s'.Alike r.schema) (hr : r.schema.Built) (hw : r.Whole adopts)
    (hout : ∀ g ∈ s'.fields, g.Emits r (out g))
    (ih : ∀ f ∈ s.fields, ∀ g ∈ s'.fields, f.name = g.name → ∀ u v json, g.type.Alike u →
      v.Fits adopts u → g.type.encode v = .ok json → f.type.ReadsBack v json) {f : Field}
    (hf : f ∈ s.fields) : f.ReadsBack r (Entries.collect Field.wireKey out s'.fields) := by
  by_cases hshared : ∃ g ∈ s'.fields, f.name = g.name
  · obtain ⟨g, hg, hname⟩ := hshared
    obtain ⟨p, hp, hgp, hslot, hfit⟩ := ha.exists_slot hr.names hw hg
    have hget : Entries.get? g.wireKey (Entries.collect Field.wireKey out s'.fields) = out g :=
      Entries.get?_collect hs'.wireKeys hg
    refine Field.readsBack_of_emits (hkept f hf g hg (.inl hname)) ?_ (hget ▸ hout g hg) ?_
    · intro habsent
      rw [hslot] at habsent
      obtain habsent | habsent := habsent
      · cases habsent
      · rw [Option.some.inj habsent] at hfit
        exact hgp.required.trans hfit
    · intro v json hv hjson
      rw [hslot] at hv
      rw [Option.some.inj hv] at hfit
      exact ih f hf g hg hname p.1.type v json hgp.type hfit hjson
  · refine Field.readsBack_absent ((hnew f hf).resolve_left hshared) (.inl ?_) ?_
    · rw [Option.eq_none_iff_forall_ne_some]
      intro slot hslot
      obtain ⟨g, hg, hname⟩ := ha.exists_field_of_slot? hslot
      exact hshared ⟨g, hg, hname.symm⟩
    · rw [Entries.get?_eq_none_iff]
      intro hkey
      obtain ⟨g, hg, hwireKey⟩ := Entries.exists_of_mem_collect_keys hkey
      exact hshared ⟨g, hg, (hkept f hf g hg (.inr hwireKey.symm)).name⟩

/-- The reader knows all keys of a payload if it has every field that the record supplies. -/
theorem Schema.knownKeys_iff {out : Field → Option Json}
    (hkept : ∀ f ∈ s.fields, ∀ g ∈ s'.fields,
      f.name = g.name ∨ f.wireKey = g.wireKey → f.Kept g)
    (ha : s'.Alike r.schema) (hr : r.schema.Built) (hw : r.Whole adopts)
    (hout : ∀ g ∈ s'.fields, g.Emits r (out g)) :
    (∀ key ∈ (Entries.collect Field.wireKey out s'.fields).map Prod.fst,
      ∃ f ∈ s.fields, f.wireKey = key) ↔
      ∀ p ∈ r.fields, p.2.isExplicit = true → ∃ f ∈ s.fields, f.name = p.1.name := by
  simp only [Entries.map_fst_collect, List.forall_mem_map, List.mem_filter, and_imp]
  constructor
  · intro h p hp hexplicit
    obtain ⟨g, hg, hgp⟩ := ha.exists_field hp
    have hslot := Record.slot?_of_mem hr.names hp
    have hsome : (out g).isSome = true := by
      rw [(hout g hg).isSome, Record.isExplicit, hgp.name, hslot]
      exact hexplicit
    obtain ⟨f, hf, hwireKey⟩ := h g hg hsome
    exact ⟨f, hf, (hkept f hf g hg (.inr hwireKey)).name.trans hgp.name⟩
  · intro h g hg hsome
    obtain ⟨p, hp, hgp, hslot, -⟩ := ha.exists_slot hr.names hw hg
    rw [(hout g hg).isSome, Record.isExplicit, hslot] at hsome
    obtain ⟨f, hf, hname⟩ := h p hp hsome
    exact ⟨f, hf, (hkept f hf g hg (.inl (hname.trans hgp.name.symm))).wireKey⟩

theorem Schema.readsBack_record
    (hkept : ∀ f ∈ s.fields, ∀ g ∈ s'.fields,
      f.name = g.name ∨ f.wireKey = g.wireKey → f.Kept g)
    (hnew : ∀ f ∈ s.fields, (∃ g ∈ s'.fields, f.name = g.name) ∨ f.required = false)
    (hs' : s'.Built) (ha : s'.Alike r.schema) (hr : r.schema.Built) (hw : r.Whole adopts)
    (he : s'.encodeEntries r = .ok entries)
    (ih : ∀ f ∈ s.fields, ∀ g ∈ s'.fields, f.name = g.name → ∀ u v json, g.type.Alike u →
      v.Fits adopts u → g.type.encode v = .ok json → f.type.ReadsBack v json) :
    (FieldType.record s).ReadsBack (.record r) (.obj entries) := by
  obtain ⟨-, out, hout, rfl⟩ := encodeEntries_eq_ok_iff.mp he
  have hfield := fun f hf ↦ readsBack_field hkept hnew hs' ha hr hw hout ih (f := f) hf
  refine ⟨fun unknown ↦ ?_, ?_⟩
  · simp only [FieldType.conforms_record_iff, Json.obj.injEq, exists_eq_left',
      knownKeys_iff hkept ha hr hw hout, Value.within_record_iff]
    constructor
    · intro h hu
      exact ⟨h.2 hu, fun f hf ↦ ((hfield f hf).conforms unknown).mp (h.1 f hf) hu⟩
    · intro h
      exact ⟨fun f hf ↦ ((hfield f hf).conforms unknown).mpr fun hu ↦ (h hu).2 f hf,
        fun hu ↦ (h hu).1⟩
  · rw [FieldType.read_record, read_eq, FieldType.recast, recast_eq,
      List.map_congr_left fun f hf ↦ (hfield f hf).read]

theorem FieldType.readsBack_list {items : FieldType} {limits : Limits} {values : List Value}
    {elements : List Json} (hl : limits.Allows values.length)
    (h : List.Forall₂ items.ReadsBack values elements) :
    (seq items limits).ReadsBack (.list values) (.arr elements) where
  conforms unknown := by
    simp only [conforms_seq_iff, Json.arr.injEq, exists_eq_left', Value.within_list_iff]
    constructor
    · intro hc hu v hv
      obtain ⟨j, hj, hvj⟩ := exists_of_mem_outcomes h.flip hv
      exact (hvj.conforms unknown).mp (hc.2 j hj) hu
    · intro hw
      refine ⟨h.length_eq ▸ hl, fun j hj ↦ ?_⟩
      obtain ⟨v, hv, hvj⟩ := exists_of_mem_outcomes h hj
      exact (hvj.conforms unknown).mpr fun hu ↦ hw hu v hv
  read := by rw [read, recast, map_outcomes_eq (h.imp fun _ _ hvj ↦ hvj.read)]

theorem FieldType.readsBack_map {values : FieldType} {entries : List (String × Value)}
    {outs : List (String × Json)}
    (h : List.Forall₂ (fun e out ↦ out.1 = e.1 ∧ values.ReadsBack e.2 out.2) entries outs) :
    (map values).ReadsBack (.map entries) (.obj outs) where
  conforms unknown := by
    simp only [conforms_map_iff, Json.obj.injEq, exists_eq_left', Value.within_map_iff]
    constructor
    · intro hc hu e he
      obtain ⟨out, hout, -, hv⟩ := exists_of_mem_outcomes h.flip he
      exact (hv.conforms unknown).mp (hc out hout) hu
    · intro hw out hout
      obtain ⟨e, he, -, hv⟩ := exists_of_mem_outcomes h hout
      exact (hv.conforms unknown).mpr fun hu ↦ hw hu e he
  read := by
    have houts : List.Forall₂
        (fun e out ↦ (out.1, values.read out.2) = (e.1, values.recast e.2)) entries outs :=
      h.imp fun _ _ hv ↦ Prod.ext hv.1 hv.2.read
    rw [read, recast, map_outcomes_eq houts]

/-- Whatever was checked against the writer's type, or one alike, is read back recast. -/
theorem FieldType.readsBack (ha : ∀ s u, adopts s u → u.Built ∧ s.Alike u) {t : FieldType} :
    ∀ u w v json, t.ReadsFrom u → u.Built → u.Alike w → v.Fits adopts w → u.encode v = .ok json →
      t.ReadsBack v json := by
  induction t using FieldType.induction with
  | scalar t hs =>
    intro u w v json hread _ hw hv he
    cases hread with
    | scalar =>
      obtain rfl := (encode_scalar_eq_ok hs).mp he
      cases hv with
      | scalar hadmits =>
        refine ⟨fun unknown ↦ iff_of_true ?_ fun _ ↦ .scalar hs, ?_⟩
        · exact conforms_of_alike w json hw (.scalar hadmits)
        · rw [read_scalar hs, recast_scalar hs]
    | record | seq | map => cases hs
  | record s ih =>
    intro u w v json hread hu hw hv he
    cases hread with
    | scalar hs => cases hs
    | @record _ s' hkept hnew htype =>
      obtain ⟨s'', hs, rfl⟩ := alike_record_iff.mp hw
      obtain ⟨r, rfl, had, hwhole⟩ := Value.fits_record_iff.mp hv
      obtain ⟨hr, hsr⟩ := ha _ _ had
      obtain ⟨_, entries, heq, he, rfl⟩ := encode_record_eq_ok.mp he
      cases heq
      have hb := hu.record
      refine Schema.readsBack_record hkept hnew hb (hs.trans hsr) hr hwhole he ?_
      intro f hf g hg hname w v json hgw hfit hjson
      exact ih f hf g.type w v json (htype f hf g hg hname) (hb.field hg) hgw hfit hjson
  | seq items limits ih =>
    intro u w v json hread hu hw hv he
    cases hread with
    | scalar hs => cases hs
    | @seq _ items' _ hitems =>
      obtain ⟨items'', hi, rfl⟩ := alike_seq_iff.mp hw
      obtain ⟨values, elements, rfl, helements, rfl⟩ := encode_seq_eq_ok.mp he
      cases hv with
      | list hl hv =>
        rw [List.forall₂_iff_zip] at helements
        refine readsBack_list hl (List.forall₂_iff_zip.mpr ⟨helements.1, fun {v j} hm ↦ ?_⟩)
        have hfit := hv v (List.of_mem_zip hm).1
        exact ih items' items'' v j hitems hu.seq hi hfit (helements.2 hm)
  | map values ih =>
    intro u w v json hread hu hw hv he
    cases hread with
    | scalar hs => cases hs
    | @map _ values' hvalues =>
      obtain ⟨values'', hi, rfl⟩ := alike_map_iff.mp hw
      obtain ⟨entries, outs, rfl, houts, rfl⟩ := encode_map_eq_ok.mp he
      cases hv with
      | map _ hv =>
        rw [List.forall₂_iff_zip] at houts
        refine readsBack_map (List.forall₂_iff_zip.mpr ⟨houts.1, fun {e out} hm ↦ ?_⟩)
        obtain ⟨hkey, hout⟩ := houts.2 hm
        have hfit := hv e (List.of_mem_zip hm).1
        exact ⟨hkey, ih values' values'' e.2 out.2 hvalues hu.map hi hfit hout⟩

end
end TypedRecord
