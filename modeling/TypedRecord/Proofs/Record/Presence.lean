import TypedRecord.Proofs.Schema.Alike
import TypedRecord.Proofs.World

namespace TypedRecord

/-- The entries are those of the supplied fields in the order of declaration, each under its alias,
and null just where the field is null. -/
structure Record.Mirrored (r : Record) (entries : List (String × Json)) : Prop where
  keys : entries.map Prod.fst = (r.fields.filter (·.2.isExplicit)).map (·.1.wireKey)
  nodup : (entries.map Prod.fst).Nodup
  absent : ∀ f, (f, .absent) ∈ r.fields → Entries.get? f.wireKey entries = none
  null : ∀ f, (f, .null) ∈ r.fields → Entries.get? f.wireKey entries = some .null
  set : ∀ f v, (f, .set v) ∈ r.fields →
    ∃ json, Entries.get? f.wireKey entries = some json ∧ json ≠ .null

inductive Value.ShownBy : Value → Json → Prop
  | scalar {json : Json} : json ≠ .null → Value.ShownBy (.scalar json) json
  | record {r : Record} {entries : List (String × Json)} :
      r.Mirrored entries →
      (∀ f v json, (f, .set v) ∈ r.fields → Entries.get? f.wireKey entries = some json →
        Value.ShownBy v json) →
      Value.ShownBy (.record r) (.obj entries)
  | list {values : List Value} {elements : List Json} :
      values.length = elements.length →
      (∀ v json, (v, json) ∈ values.zip elements → Value.ShownBy v json) →
      Value.ShownBy (.list values) (.arr elements)
  | map {values : List (String × Value)} {entries : List (String × Json)} :
      entries.map Prod.fst = values.map Prod.fst →
      (∀ v e, (v, e) ∈ values.zip entries → Value.ShownBy v.2 e.2) →
      Value.ShownBy (.map values) (.obj entries)

theorem Value.ShownBy.ne_null {v : Value} {json : Json} (h : v.ShownBy json) : json ≠ .null := by
  cases h with
  | scalar h => exact h
  | record | list | map => nofun

def Slot.ShownAs : Slot → Option Json → Prop
  | .absent, out => out = none
  | .null, out => out = some .null
  | .set v, out => ∃ json, out = some json ∧ v.ShownBy json

namespace Slot.ShownAs

variable {slot : Slot} {out : Option Json}

theorem isSome (h : slot.ShownAs out) : out.isSome = slot.isExplicit := by
  cases slot with
  | absent => rw [show out = none from h]; rfl
  | null => rw [show out = some .null from h]; rfl
  | set v =>
    obtain ⟨json, rfl, -⟩ := h
    rfl

end Slot.ShownAs

section

variable {adopts : Schema → Schema → Prop}

theorem Field.encode_shown {f g : Field} {r : Record} {slot : Slot} (hfg : f.Alike g)
    (hslot : r.slot? f.name = some slot) (hfit : slot.Fits adopts g)
    (ih : ∀ v : Value, v.Fits adopts g.type → ∃ json, f.type.encode v = .ok json ∧ v.ShownBy json) :
    ∃ out : Option Json, f.encode r = .ok (out.map (f.wireKey, ·)).toList ∧ slot.ShownAs out := by
  cases slot with
  | absent => exact ⟨none, encode_absent hslot, rfl⟩
  | null =>
    have hn : f.nullable = true := hfg.nullable.trans hfit
    exact ⟨some .null, encode_null hslot hn, rfl⟩
  | set v =>
    obtain ⟨json, he, hv⟩ := ih v hfit
    exact ⟨some json, encode_set hslot he, json, rfl, hv⟩

/-- Entries that show the slot of each field under its alias make up a mirror of the record. -/
theorem Record.shownBy_collect {s : Schema} {r : Record} {out : Field → Option Json}
    (hk : (s.fields.map Field.wireKey).Nodup)
    (h : List.Forall₂ (fun f p ↦ f.Alike p.1 ∧ p.2.ShownAs (out f)) s.fields r.fields) :
    (Value.record r).ShownBy (.obj (Entries.collect Field.wireKey out s.fields)) := by
  have hget : ∀ f slot, (f, slot) ∈ r.fields →
      slot.ShownAs (Entries.get? f.wireKey (Entries.collect Field.wireKey out s.fields)) := by
    intro f slot hm
    obtain ⟨g, hg, hgf, hs⟩ := exists_of_mem_outcomes h hm
    rwa [← hgf.wireKey, Entries.get?_collect hk hg]
  have hkeys : (s.fields.filter fun f ↦ (out f).isSome).map Field.wireKey =
      (r.fields.filter (·.2.isExplicit)).map (·.1.wireKey) := by
    generalize s.fields = fs, r.fields = ps at h
    induction h with
    | nil => rfl
    | cons hfp _ ih =>
      obtain ⟨ha, hs⟩ := hfp
      rw [List.filter_cons, List.filter_cons, hs.isSome]
      split
      · rw [List.map_cons, List.map_cons, ha.wireKey, ih]
      · exact ih
  refine .record ⟨?_, Entries.nodup_collect hk, ?_, ?_, ?_⟩ ?_
  · rw [Entries.map_fst_collect, hkeys]
  · exact fun f hm ↦ hget f .absent hm
  · exact fun f hm ↦ hget f .null hm
  · intro f v hm
    obtain ⟨json, he, hv⟩ := hget f (.set v) hm
    exact ⟨json, he, hv.ne_null⟩
  · intro f v json hm hj
    obtain ⟨json', he, hv⟩ := hget f (.set v) hm
    rw [hj] at he
    cases he
    exact hv

theorem Schema.encodeEntries_shown {s : Schema} {r : Record} (hr : r.schema.Built)
    (hs : s.Alike r.schema) (hw : r.Whole adopts)
    (ih : ∀ f ∈ s.fields, ∀ (u : FieldType) (v : Value), f.type.Alike u → v.Fits adopts u →
      ∃ json, f.type.encode v = .ok json ∧ v.ShownBy json) :
    ∃ entries, s.encodeEntries r = .ok entries ∧ (Value.record r).ShownBy (.obj entries) := by
  have halike : List.Forall₂ (fun f p ↦ f.Alike p.1) s.fields r.fields :=
    hw.forall₂_fields hs.fields
  have hfield : ∀ f ∈ s.fields, ∃ out : Option Json,
      f.encode r = .ok (out.map (f.wireKey, ·)).toList ∧
        ∀ slot, r.slot? f.name = some slot → slot.ShownAs out := by
    intro f hf
    obtain ⟨p, -, hfp, hslot, hfit⟩ := hs.exists_slot hr.names hw hf
    obtain ⟨out, he, hs⟩ := Field.encode_shown hfp hslot hfit
      fun v hv ↦ ih f hf p.1.type v hfp.type hv
    refine ⟨out, he, fun slot h ↦ ?_⟩
    rw [hslot] at h
    cases h
    exact hs
  choose! out henc hout using hfield
  refine ⟨_, encodeEntries_eq_ok ?_ henc, Record.shownBy_collect ?_ ?_⟩
  · intro p hp _
    obtain ⟨f, hf, hfp⟩ := hs.exists_field hp
    exact ⟨f, hf, hfp.name⟩
  · have hk := hr.wireKeys
    rwa [hs.wireKeys] at hk
  · rw [List.forall₂_iff_zip] at halike ⊢
    refine ⟨halike.1, fun {f p} hm ↦ ?_⟩
    obtain ⟨hf, hp⟩ := List.of_mem_zip hm
    have hfp := halike.2 hm
    exact ⟨hfp, hout f hf p.2 (hfp.name ▸ Record.slot?_of_mem hr.names hp)⟩

namespace Value

theorem list_shown {items : FieldType} {limits : Limits} {values : List Value}
    (ih : ∀ v ∈ values, ∃ json, items.encode v = .ok json ∧ v.ShownBy json) :
    ∃ json, (FieldType.seq items limits).encode (.list values) = .ok json ∧
      (Value.list values).ShownBy json := by
  obtain ⟨elements, he⟩ := exists_outcomes ih
  refine ⟨.arr elements, FieldType.encode_list (he.imp fun _ _ h ↦ h.1), .list he.length_eq ?_⟩
  intro v json hm
  exact (List.forall₂_zip he hm).2

theorem map_shown {values : FieldType} {entries : List (String × Value)}
    (ih : ∀ e ∈ entries, ∃ json, values.encode e.2 = .ok json ∧ e.2.ShownBy json) :
    ∃ json, (FieldType.map values).encode (.map entries) = .ok json ∧
      (Value.map entries).ShownBy json := by
  have hentry : ∀ e ∈ entries, ∃ out : String × Json,
      (out.1 = e.1 ∧ values.encode e.2 = .ok out.2) ∧ e.2.ShownBy out.2 := by
    intro e hm
    obtain ⟨json, he, hv⟩ := ih e hm
    exact ⟨(e.1, json), ⟨rfl, he⟩, hv⟩
  obtain ⟨outs, he⟩ := exists_outcomes hentry
  have hkeys : outs.map Prod.fst = entries.map Prod.fst :=
    map_outcomes_eq (he.imp fun _ _ h ↦ h.1.1)
  refine ⟨.obj outs, FieldType.encode_map (he.imp fun _ _ h ↦ h.1), .map hkeys ?_⟩
  intro e out hm
  exact (List.forall₂_zip he hm).2

end Value

/-- Encoding never meets a value that does not fit, also where a record was built before under a
schema that is alike to the declared one. -/
theorem FieldType.encode_shown (ha : ∀ s u, adopts s u → u.Built ∧ s.Alike u) {t : FieldType} :
    ∀ (u : FieldType) (v : Value), t.Alike u → v.Fits adopts u →
      ∃ json, t.encode v = .ok json ∧ v.ShownBy json := by
  induction t using FieldType.induction with
  | scalar t hs =>
    intro u v htu hv
    have hu : u.isScalar = true := htu.isScalar.trans hs
    cases hv with
    | scalar hadmits => exact ⟨_, encode_scalar hs, .scalar hadmits.ne_null⟩
    | record | list | map => simp [isScalar] at hu
  | record s ih =>
    intro u v htu hv
    obtain ⟨s', hss, rfl⟩ := alike_record_iff.mp htu
    obtain ⟨r, rfl, had, hw⟩ := Value.fits_record_iff.mp hv
    obtain ⟨hr, hsr⟩ := ha _ _ had
    obtain ⟨entries, he, hshown⟩ := Schema.encodeEntries_shown hr (hss.trans hsr) hw ih
    exact ⟨.obj entries, encode_record he, hshown⟩
  | seq items limits ih =>
    intro u v htu hv
    obtain ⟨items', hii, rfl⟩ := alike_seq_iff.mp htu
    cases hv with
    | scalar h => cases h
    | list _ hv => exact Value.list_shown fun v hm ↦ ih items' v hii (hv v hm)
  | map values ih =>
    intro u v htu hv
    obtain ⟨values', hvv, rfl⟩ := alike_map_iff.mp htu
    cases hv with
    | scalar h => cases h
    | map _ hv => exact Value.map_shown fun e hm ↦ ih values' e.2 hvv (hv e hm)

end

namespace World

theorem Sound.adopted {w : World} (hw : w.Sound) :
    ∀ s u, w.Adopts s u → u.Built ∧ s.Alike u :=
  fun _ u h ↦ ⟨hw.built u h.1, h.2⟩

/-- Every record that a program ever holds can be encoded under its own schema, and its JSON shows
the state of every field of it and of the records within. -/
theorem Reachable.toJson_mirrors {w : World} (hw : w.Reachable) {r : Record} (hr : r ∈ w.records) :
    ∃ json, r.toJson = .ok json ∧ (Value.record r).ShownBy json := by
  have hs := hw.sound
  have hadopts : ∀ s u, w.Adopts s u → u.Built ∧ s.Alike u := fun _ _ h ↦ ⟨hs.built _ h.1, h.2⟩
  obtain ⟨entries, he, hshown⟩ := Schema.encodeEntries_shown (hs.built _ (hs.schema r hr))
    (.inl rfl) (hs.whole r hr) fun f _ ↦ FieldType.encode_shown hadopts
  refine ⟨.obj entries, ?_, hshown⟩
  rw [Record.toJson, Schema.encode, he]
  rfl

/-- The record nested in the last field is mirrored too: a null of its own is there, and its absent
fields are not. -/
theorem condition_mirrored : (∃ w : World, w.Reachable ∧ condition .absent .null ∈ w.records) ∧
    (condition .absent .null).toJson = .ok (.obj [("field", .str "x"), ("match_all", .null),
      ("range", .obj [("gt", .int 1), ("lt", .null)])]) ∧
    (Value.record (condition .absent .null)).ShownBy (.obj [("field", .str "x"),
      ("match_all", .null), ("range", .obj [("gt", .int 1), ("lt", .null)])]) := by
  obtain ⟨w, hw, -, hr⟩ := condition_reachable
  obtain ⟨json, he, hshown⟩ := hw.toJson_mirrors hr
  cases he
  exact ⟨⟨w, hw, hr⟩, rfl, hshown⟩

end World

end TypedRecord
