import TypedRecord.Proofs.Outcome
import TypedRecord.Proofs.Schema.Equality

namespace TypedRecord

section Symmetry

theorem Range.equal_symm {r s : Range} (h : r.equal s = true) : s.equal r = true := by
  have hb : ∀ x y : Option Binary64, equalBound x y = equalBound y x := by
    intro x y
    cases x <;> cases y <;> simp [equalBound, Binary64.equal_comm]
  rw [equal, hb s.gt, hb s.gte, hb s.lt, hb s.lte]
  exact h

theorem forall₂_symm_of_mem {α : Type} {p : α → α → Prop} {xs ys : List α}
    (hp : ∀ x ∈ xs, ∀ y, p x y → p y x) (h : List.Forall₂ p xs ys) : List.Forall₂ p ys xs := by
  induction h with
  | nil => exact .nil
  | cons hxy _ ih =>
    have hrest := ih fun x hx ↦ hp x (List.mem_cons_of_mem _ hx)
    exact .cons (hp _ List.mem_cons_self _ hxy) hrest

theorem FieldType.equal_symm (t : FieldType) :
    ∀ u : FieldType, t.equal u = true → u.equal t = true := by
  induction t using FieldType.induction with
  | scalar t hs ih =>
    intro u htu
    cases t with
    | str | bool | any | enum =>
      simp only [equal_str_iff, equal_bool_iff, equal_any_iff, equal_enum_iff] at htu
      subst htu
      simp [equal]
    | int r =>
      obtain ⟨s, hrs, rfl⟩ := equal_int_iff.mp htu
      exact equal_int_iff.mpr ⟨r, Range.equal_symm hrs, rfl⟩
    | num r =>
      obtain ⟨s, hrs, rfl⟩ := equal_num_iff.mp htu
      exact equal_num_iff.mpr ⟨r, Range.equal_symm hrs, rfl⟩
    | union ts =>
      obtain ⟨us, htus, rfl⟩ := equal_union_iff.mp htu
      exact equal_union_iff.mpr ⟨ts, forall₂_symm_of_mem ih htus, rfl⟩
    | record | seq | map => simp [isScalar] at hs
  | record s ih =>
    intro u htu
    obtain ⟨t, hst, rfl⟩ := equal_record_iff.mp htu
    obtain ⟨hn, hd, hf⟩ := Schema.equal_iff.mp hst
    refine equal_record_iff.mpr ⟨s, Schema.equal_iff.mpr ⟨hn.symm, hd.symm, ?_⟩, rfl⟩
    refine forall₂_symm_of_mem ?_ hf
    intro f hm g hfg
    exact ⟨hfg.name.symm, hfg.wireKey.symm, ih f hm _ hfg.type, hfg.required.symm,
      hfg.nullable.symm, hfg.description.symm⟩
  | seq items limits ih =>
    intro u htu
    obtain ⟨v, hv, rfl⟩ := equal_seq_iff.mp htu
    exact equal_seq_iff.mpr ⟨items, ih v hv, rfl⟩
  | map values ih =>
    intro u htu
    obtain ⟨v, hv, rfl⟩ := equal_map_iff.mp htu
    exact equal_map_iff.mpr ⟨values, ih v hv, rfl⟩

theorem Schema.equal_symm {s t : Schema} (h : s.equal t = true) : t.equal s = true := by
  have hr := FieldType.equal_symm (.record s) (.record t) (by simpa only [FieldType.equal])
  simpa only [FieldType.equal] using hr

end Symmetry

def FieldType.Alike (t u : FieldType) : Prop := t = u ∨ t.equal u = true

def Schema.Alike (s t : Schema) : Prop := s = t ∨ s.equal t = true

structure Field.Alike (f g : Field) : Prop where
  name : f.name = g.name
  wireKey : f.wireKey = g.wireKey
  type : f.type.Alike g.type
  required : f.required = g.required
  nullable : f.nullable = g.nullable
  description : f.description = g.description

namespace Schema.Alike

variable {s t u : Schema}

theorem symm (h : s.Alike t) : t.Alike s := h.imp Eq.symm Schema.equal_symm

theorem trans (hst : s.Alike t) (htu : t.Alike u) : s.Alike u := by
  obtain rfl | hst := hst
  · exact htu
  · obtain rfl | htu := htu
    · exact .inr hst
    · exact .inr (Schema.equal_trans hst htu)

/-- Equality is reflexive on both or on neither. -/
theorem equal_self (h : s.Alike t) (hs : s.equal s = true) : t.equal t = true := by
  obtain rfl | h := h
  · exact hs
  · exact Schema.equal_trans (Schema.equal_symm h) h

theorem fields (h : s.Alike t) : List.Forall₂ Field.Alike s.fields t.fields := by
  obtain rfl | h := h
  · exact List.forall₂_same.mpr fun f _ ↦ ⟨rfl, rfl, .inl rfl, rfl, rfl, rfl⟩
  · refine (Schema.equal_iff.mp h).2.2.imp fun f g hfg ↦ ?_
    exact ⟨hfg.name, hfg.wireKey, .inr hfg.type, hfg.required, hfg.nullable, hfg.description⟩

theorem wireKeys (h : s.Alike t) : t.fields.map Field.wireKey = s.fields.map Field.wireKey :=
  map_outcomes_eq (h.fields.imp fun _ _ hfg ↦ hfg.wireKey.symm)

end Schema.Alike

namespace FieldType

variable {t u : FieldType}

theorem Alike.symm (h : t.Alike u) : u.Alike t := h.imp Eq.symm (equal_symm t u)

theorem alike_record_iff {s : Schema} :
    (record s).Alike u ↔ ∃ s', s.Alike s' ∧ u = record s' := by
  constructor
  · intro h
    obtain rfl | h := h
    · exact ⟨s, .inl rfl, rfl⟩
    · obtain ⟨s', hs, rfl⟩ := equal_record_iff.mp h
      exact ⟨s', .inr hs, rfl⟩
  · intro h
    rcases h with ⟨s', rfl | hs, rfl⟩
    · exact .inl rfl
    · exact .inr (equal_record_iff.mpr ⟨s', hs, rfl⟩)

theorem alike_seq_iff {limits : Limits} :
    (seq t limits).Alike u ↔ ∃ v, t.Alike v ∧ u = seq v limits := by
  constructor
  · intro h
    obtain rfl | h := h
    · exact ⟨t, .inl rfl, rfl⟩
    · obtain ⟨v, hv, rfl⟩ := equal_seq_iff.mp h
      exact ⟨v, .inr hv, rfl⟩
  · intro h
    rcases h with ⟨v, rfl | hv, rfl⟩
    · exact .inl rfl
    · exact .inr (equal_seq_iff.mpr ⟨v, hv, rfl⟩)

theorem alike_map_iff : (map t).Alike u ↔ ∃ v, t.Alike v ∧ u = map v := by
  constructor
  · intro h
    obtain rfl | h := h
    · exact ⟨t, .inl rfl, rfl⟩
    · obtain ⟨v, hv, rfl⟩ := equal_map_iff.mp h
      exact ⟨v, .inr hv, rfl⟩
  · intro h
    rcases h with ⟨v, rfl | hv, rfl⟩
    · exact .inl rfl
    · exact .inr (equal_map_iff.mpr ⟨v, hv, rfl⟩)

theorem Alike.isScalar (h : t.Alike u) : u.isScalar = t.isScalar := by
  obtain rfl | h := h
  · rfl
  · cases t <;> cases u <;> first | rfl | simp [equal] at h

end FieldType

end TypedRecord
