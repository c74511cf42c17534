import TypedRecord.Proofs.Record.Supply

namespace TypedRecord

/-- The types that values of a type are made of, at every depth; only some of the fields count. -/
inductive FieldType.Reaches (counts : Field → Prop) : FieldType → FieldType → Prop
  | refl (t : FieldType) : FieldType.Reaches counts t t
  | member {members : List FieldType} {t u : FieldType} :
      t ∈ members → FieldType.Reaches counts t u → FieldType.Reaches counts (.union members) u
  | field {s : Schema} {f : Field} {u : FieldType} : f ∈ s.fields → counts f →
      FieldType.Reaches counts f.type u → FieldType.Reaches counts (.record s) u
  | items {items u : FieldType} {limits : Limits} :
      FieldType.Reaches counts items u → FieldType.Reaches counts (.seq items limits) u
  | values {values u : FieldType} :
      FieldType.Reaches counts values u → FieldType.Reaches counts (.map values) u

theorem FieldType.Reaches.built {counts : Field → Prop} {t u : FieldType}
    (h : t.Reaches counts u) (ht : t.Built) : u.Built := by
  induction h with
  | refl => exact ht
  | member hm _ ih => exact ih (ht.member hm)
  | field hf _ _ ih => exact ih (ht.record.field hf)
  | items _ ih => exact ih ht.seq
  | values _ ih => exact ih ht.map

theorem FieldType.Reaches.trans {counts : Field → Prop} {t u v : FieldType}
    (h : t.Reaches counts u) (h' : u.Reaches counts v) : t.Reaches counts v := by
  induction h with
  | refl => exact h'
  | member hm _ ih => exact .member hm (ih h')
  | field hf hc _ ih => exact .field hf hc (ih h')
  | items _ ih => exact .items (ih h')
  | values _ ih => exact .values (ih h')

namespace FieldType

variable {counts : Field → Prop} {u : FieldType}

theorem reaches_primitive_iff {t : FieldType} (ht : t.isPrimitive = true) :
    t.Reaches counts u ↔ u = t := by
  constructor
  · intro h
    cases h with
    | refl => rfl
    | member | field | items | values => simp [isPrimitive] at ht
  · rintro rfl
    exact .refl u

theorem reaches_union_iff {members : List FieldType} : (union members).Reaches counts u ↔
    u = union members ∨ ∃ t ∈ members, t.Reaches counts u := by
  constructor
  · intro h
    cases h with
    | refl => exact .inl rfl
    | member ht h => exact .inr ⟨_, ht, h⟩
  · rintro (rfl | ⟨t, ht, h⟩)
    · exact .refl _
    · exact .member ht h

theorem reaches_record_iff {s : Schema} : (record s).Reaches counts u ↔
    u = record s ∨ ∃ f ∈ s.fields, counts f ∧ f.type.Reaches counts u := by
  constructor
  · intro h
    cases h with
    | refl => exact .inl rfl
    | field hf hc h => exact .inr ⟨_, hf, hc, h⟩
  · rintro (rfl | ⟨f, hf, hc, h⟩)
    · exact .refl _
    · exact .field hf hc h

theorem reaches_seq_iff {items : FieldType} {limits : Limits} :
    (seq items limits).Reaches counts u ↔ u = seq items limits ∨ items.Reaches counts u := by
  constructor
  · intro h
    cases h with
    | refl => exact .inl rfl
    | items h => exact .inr h
  · rintro (rfl | h)
    · exact .refl _
    · exact .items h

theorem reaches_map_iff {values : FieldType} :
    (map values).Reaches counts u ↔ u = map values ∨ values.Reaches counts u := by
  constructor
  · intro h
    cases h with
    | refl => exact .inl rfl
    | values h => exact .inr h
  · rintro (rfl | h)
    · exact .refl _
    · exact .values h

end FieldType

def FieldType.Takes (t : FieldType) (json : Json) : Prop := ∃ v, t.check .names json = .ok v

namespace FieldType

variable {t : FieldType} {json : Json}

theorem takes_iff_accept :
    t.Takes json ↔ json ≠ .null ∧ ∃ v, t.accept .names json = .ok v := by
  simp only [Takes, check, refuseNull_eq_ok, exists_and_left]

theorem Takes.ne_null (h : t.Takes json) : json ≠ .null := (takes_iff_accept.mp h).1

theorem takes_scalar_iff (hs : t.isScalar) (ht : t.Built) : t.Takes json ↔ t.Admits json := by
  rw [takes_iff_accept]
  constructor
  · intro h
    obtain ⟨hj, v, hv⟩ := h
    exact ((accept_scalar_eq_ok hs ht hj).mp hv).1
  · intro h
    exact ⟨h.ne_null, _, (accept_scalar_eq_ok hs ht h.ne_null).mpr ⟨h, rfl⟩⟩

theorem takes_record_iff {s : Schema} {entries : List (String × Json)} :
    (record s).Takes (.obj entries) ↔ ∃ r, s.accept .names entries = .ok r := by
  simp [takes_iff_accept, accept, ofObject, Located.map_eq_ok]

theorem takes_seq_iff {items : FieldType} {limits : Limits} {elements : List Json} :
    (seq items limits).Takes (.arr elements) ↔
      limits.Allows elements.length ∧ ∀ j ∈ elements, items.Takes j := by
  have hj : Json.arr elements ≠ .null := nofun
  unfold Takes check
  rw [← exists_outcomes_iff, refuseNull_of_ne_null hj]
  simp only [accept, ofArray, guardBreach_eq_ok, Limits.breach?_eq_none_iff, Located.map_eq_ok,
    Located.traverse_eq_ok]
  constructor
  · intro h
    obtain ⟨_, hl, values, hv, -⟩ := h
    exact ⟨hl, values, hv⟩
  · intro h
    obtain ⟨hl, values, hv⟩ := h
    exact ⟨_, hl, values, hv, rfl⟩

theorem takes_map_iff {values : FieldType} {entries : List (String × Json)} :
    (map values).Takes (.obj entries) ↔ ∀ e ∈ entries, values.Takes e.2 := by
  have hj : Json.obj entries ≠ .null := nofun
  unfold Takes check
  rw [refuseNull_of_ne_null hj]
  simp only [accept, ofObject, Located.map_eq_ok, Located.traverseEntries_eq_ok]
  constructor
  · intro h e he
    obtain ⟨_, outcomes, ho, -⟩ := h
    obtain ⟨out, -, -, hv⟩ := exists_of_mem_outcomes ho.flip he
    exact ⟨out.2, hv⟩
  · intro h
    have hvalue : ∀ e ∈ entries, ∃ out : String × Value, out.1 = e.1 ∧
        refuseNull (values.accept .names) e.2 = .ok out.2 := by
      intro e he
      obtain ⟨v, hv⟩ := h e he
      exact ⟨(e.1, v), rfl, hv⟩
    obtain ⟨outcomes, ho⟩ := exists_outcomes hvalue
    exact ⟨_, outcomes, ho, rfl⟩

end FieldType

def Field.Takes (f : Field) (json : Json) : Prop := ∃ slot, f.check .names json = .ok slot

namespace Field

theorem takes_iff {f : Field} {json : Json} :
    f.Takes json ↔ json = .null ∧ f.nullable = true ∨ f.type.Takes json := by
  simp only [Takes, check, slotOf_eq_ok, FieldType.takes_iff_accept]
  constructor
  · intro h
    obtain ⟨_, ⟨hj, hn, -⟩ | ⟨hj, v, hv, -⟩⟩ := h
    · exact .inl ⟨hj, hn⟩
    · exact .inr ⟨hj, v, hv⟩
  · intro h
    obtain ⟨hj, hn⟩ | ⟨hj, v, hv⟩ := h
    · exact ⟨_, .inl ⟨hj, hn, rfl⟩⟩
    · exact ⟨_, .inr ⟨hj, v, hv, rfl⟩⟩

/-- Entries under the names of some of the fields, in their order: values with a property that may
depend on the field, and all required fields among them. -/
structure Supplied (p : Field → Json → Prop) (fields : List Field)
    (entries : List (String × Json)) : Prop where
  keys : (entries.map Prod.fst).Sublist (fields.map Field.name)
  values : ∀ e ∈ entries, ∃ f ∈ fields, f.name = e.1 ∧ p f e.2
  required : ∀ f ∈ fields, f.required = true → f.name ∈ entries.map Prod.fst

namespace Supplied

variable {p : Field → Json → Prop} {fields fields' : List Field}
  {entries entries' : List (String × Json)}

theorem append (h : Supplied p fields entries) (h' : Supplied p fields' entries') :
    Supplied p (fields ++ fields') (entries ++ entries') := by
  refine ⟨?_, ?_, ?_⟩
  · rw [List.map_append, List.map_append]
    exact h.keys.append h'.keys
  · intro e he
    obtain he | he := List.mem_append.mp he
    · obtain ⟨f, hf, h⟩ := h.values e he
      exact ⟨f, List.mem_append_left _ hf, h⟩
    · obtain ⟨f, hf, h⟩ := h'.values e he
      exact ⟨f, List.mem_append_right _ hf, h⟩
  · intro f hf hq
    rw [List.map_append]
    obtain hf | hf := List.mem_append.mp hf
    · exact List.mem_append_left _ (h.required f hf hq)
    · exact List.mem_append_right _ (h'.required f hf hq)

end Supplied

end Field

namespace Schema

variable {s : Schema} {entries : List (String × Json)}

theorem complete_iff_supplied (hs : s.Built)
    (hk : (entries.map Prod.fst).Sublist (s.fields.map Field.name)) :
    s.Complete (fun f ↦ f.check .names) entries ↔ Field.Supplied Field.Takes s.fields entries := by
  have hmeant : ∀ key ∈ entries.map Prod.fst,
      ∃ f ∈ s.fields, f.name = key ∧ s.meant? key = some f := by
    intro key hkey
    obtain ⟨f, hf, rfl⟩ := List.mem_map.mp (hk.subset hkey)
    exact ⟨f, hf, rfl, meant?_name hs hf⟩
  constructor
  · intro h
    refine ⟨hk, fun e he ↦ ?_, fun f hf hq ↦ ?_⟩
    · obtain ⟨f, hf, hkey, hm⟩ := hmeant e.1 (List.mem_map_of_mem he)
      obtain ⟨g, hg, hslot⟩ := h.meant e he
      rw [hm] at hg
      cases hg
      exact ⟨f, hf, hkey, hslot⟩
    · obtain ⟨e, he, hm⟩ := h.required f hf hq
      obtain ⟨g, -, hkey, hg⟩ := hmeant e.1 (List.mem_map_of_mem he)
      rw [hm] at hg
      cases hg
      exact hkey ▸ List.mem_map_of_mem he
  · intro h
    refine ⟨fun e he ↦ ?_, ?_, fun f hf hq ↦ ?_⟩
    · obtain ⟨f, hf, hkey, hslot⟩ := h.values e he
      exact ⟨f, hkey ▸ meant?_name hs hf, hslot⟩
    · have hmap : entries.map (fun e ↦ s.meant? e.1) = (entries.map Prod.fst).map s.meant? := by
        rw [List.map_map]
        rfl
      rw [hmap]
      refine (hs.names.sublist hk).map_on fun key hkey key' hkey' heq ↦ ?_
      obtain ⟨f, -, rfl, hm⟩ := hmeant key hkey
      obtain ⟨g, -, rfl, hm'⟩ := hmeant key' hkey'
      rw [hm, hm', Option.some.injEq] at heq
      rw [heq]
    · obtain ⟨e, he, hkey⟩ := List.mem_map.mp (h.required f hf hq)
      exact ⟨e, he, hkey ▸ meant?_name hs hf⟩

/-- Entries under names make up a record if they are supplied as they should be. -/
theorem accept_names_iff (hs : s.Built)
    (hk : (entries.map Prod.fst).Sublist (s.fields.map Field.name)) :
    (∃ r, s.accept .names entries = .ok r) ↔ Field.Supplied Field.Takes s.fields entries := by
  have hsupplies : ∀ f : Field, (⟨f, f.check .names⟩ : Intake Json).Supplies :=
    fun f json slot h ↦ Field.isExplicit_of_check h
  rw [← complete_iff_supplied hs hk]
  simp only [accept_eq, Located.map_eq_ok, assemble_names_iff hsupplies hs]
  constructor
  · intro h
    obtain ⟨-, -, ⟨hc, -⟩, -⟩ := h
    exact hc
  · intro h
    obtain ⟨slots, hslots⟩ := h.exists_slots
    exact ⟨_, slots, ⟨h, hslots⟩, rfl⟩

/-- Inputs made from JSON are accepted as the JSON is. -/
theorem construct_ofJson : s.construct (entries.map fun e ↦ (e.1, .ofJson e.2)) =
    s.accept .names entries := by
  have hreceive : ∀ f : Field, f.receive ∘ Input.ofJson = f.check .names := by
    intro f
    funext json
    cases json <;> rfl
  rw [construct, ← Intake.assemble_comap, accept_eq, List.map_map]
  simp only [Function.comp_def, Intake.comap] at hreceive ⊢
  simp only [hreceive]

end Schema

end TypedRecord
