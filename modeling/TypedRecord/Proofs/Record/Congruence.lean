import TypedRecord.Proofs.Record.RoundTrip
import TypedRecord.Proofs.Schema.Alike

namespace TypedRecord

section

variable {unknown : UnknownKeys}

/-- Alike types declare the same payloads. -/
theorem FieldType.conforms_of_alike {t : FieldType} :
    ∀ u json, t.Alike u → u.Conforms unknown json → t.Conforms unknown json := by
  induction t using FieldType.induction with
  | scalar t hs =>
    intro u json htu hu
    rw [conforms_scalar_iff (htu.isScalar.trans hs)] at hu
    rw [conforms_scalar_iff hs]
    obtain rfl | htu := htu
    · exact hu
    · exact admits_of_equal u htu hu
  | record s ih =>
    intro u json htu hu
    obtain ⟨s', hs, rfl⟩ := alike_record_iff.mp htu
    obtain ⟨entries, rfl, hf, hk⟩ := conforms_record_iff.mp hu
    refine conforms_record_iff.mpr ⟨entries, rfl, ?_, ?_⟩
    · intro f hm
      obtain ⟨g, hg, hfg⟩ := exists_of_mem_outcomes hs.fields.flip hm
      have h := hf g hg
      have hget : Entries.get? f.wireKey entries = Entries.get? g.wireKey entries :=
        congrArg (Entries.get? · entries) hfg.wireKey
      refine ⟨?_, ?_, ?_⟩
      · rw [hfg.required, hfg.wireKey]
        exact h.required
      · rw [hget, hfg.nullable]
        exact h.null
      · rw [hget]
        exact fun json hj he ↦ ih f hm g.type json hfg.type (h.value json hj he)
    · intro hu key hm
      obtain ⟨g, hg, hkey⟩ := hk hu key hm
      obtain ⟨f, hf, hfg⟩ := exists_of_mem_outcomes hs.fields hg
      exact ⟨f, hf, hfg.wireKey.trans hkey⟩
  | seq items limits ih =>
    intro u json htu hu
    obtain ⟨items', hi, rfl⟩ := alike_seq_iff.mp htu
    obtain ⟨elements, rfl, hl, he⟩ := conforms_seq_iff.mp hu
    exact .seq hl fun json hm ↦ ih items' json hi (he json hm)
  | map values ih =>
    intro u json htu hu
    obtain ⟨values', hv, rfl⟩ := alike_map_iff.mp htu
    obtain ⟨entries, rfl, he⟩ := conforms_map_iff.mp hu
    exact .map fun e hm ↦ ih values' e.2 hv (he e hm)

end

section

variable {r : Record} {s s' : Schema}

theorem Record.refuseUnknown_congr {record : String} {fields fields' : List Field}
    (h : fields'.map Field.name = fields.map Field.name) :
    r.refuseUnknown record fields = r.refuseUnknown record fields' := by
  have hany : ∀ name, (fields.any fun f ↦ f.name = name) = fields'.any fun f ↦ f.name = name := by
    intro name
    have hmap := congrArg (List.any · fun other ↦ other = name) h
    simp only [List.any_map] at hmap
    exact hmap.symm
  simp only [refuseUnknown, hany]

theorem Field.encodeAll_congr {fields fields' : List Field}
    (h : List.Forall₂ (fun f g ↦ f.encode r = g.encode r) fields fields') :
    Field.encodeAll fields r = Field.encodeAll fields' r := by
  induction h with
  | nil => rfl
  | cons hfg _ ih => rw [Field.encodeAll, Field.encodeAll, hfg, ih]

theorem Schema.encodeEntries_congr (hs : s.Alike s')
    (h : List.Forall₂ (fun f g ↦ f.encode r = g.encode r) s.fields s'.fields) :
    s.encodeEntries r = s'.encodeEntries r := by
  have hname : s.name = s'.name := by
    obtain rfl | hs := hs
    · rfl
    · exact (Schema.equal_iff.mp hs).1
  have hnames : s'.fields.map Field.name = s.fields.map Field.name :=
    map_outcomes_eq (hs.fields.imp fun _ _ hfg ↦ hfg.name.symm)
  rw [encodeEntries_eq, encodeEntries_eq, Field.encodeAll_congr h,
    Record.refuseUnknown_congr hnames, hname]

/-- Alike types encode values alike, and also fail alike. -/
theorem FieldType.encode_congr {t : FieldType} :
    ∀ u : FieldType, t.Alike u → ∀ v : Value, t.encode v = u.encode v := by
  induction t using FieldType.induction with
  | scalar t hs =>
    intro u htu v
    obtain rfl | htu := htu
    · rfl
    · cases t with
      | str | int | num | bool | any | enum | union =>
        cases u <;> first | rfl | simp [equal] at htu
      | record | seq | map => simp [isScalar] at hs
  | record s ih =>
    intro u htu v
    obtain ⟨s', hs, rfl⟩ := alike_record_iff.mp htu
    have hentries : s.encodeEntries = s'.encodeEntries := by
      funext r
      refine Schema.encodeEntries_congr hs ?_
      have hfields := hs.fields
      rw [List.forall₂_iff_zip] at hfields ⊢
      refine ⟨hfields.1, fun {f g} hm ↦ ?_⟩
      have hfg := hfields.2 hm
      rw [Field.encode_eq, Field.encode_eq, hfg.name, hfg.wireKey, hfg.nullable,
        funext (ih f (List.of_mem_zip hm).1 g.type hfg.type)]
    rw [encode, encode, hentries]
  | seq items limits ih =>
    intro u htu v
    obtain ⟨items', hi, rfl⟩ := alike_seq_iff.mp htu
    rw [encode, encode, funext (ih items' hi)]
  | map values ih =>
    intro u htu v
    obtain ⟨values', hv, rfl⟩ := alike_map_iff.mp htu
    rw [encode, encode, funext (ih values' hv)]

end

end TypedRecord
