import TypedRecord.Proofs.World

namespace TypedRecord

structure Range.Ordered (r : Range) : Prop where
  lower : r.gt = none ∨ r.gte = none
  upper : r.lt = none ∨ r.lte = none
  uncrossed : ∀ low high, (r.gt = some low ∨ r.gte = some low) →
    (r.lt = some high ∨ r.lte = some high) → high.lt low = false

def Limits.Ordered (l : Limits) : Prop := ∀ min max, l.min = some min → l.max = some max → min ≤ max

inductive FieldType.WellFormed : FieldType → Prop
  | str {limits : Limits} : limits.Ordered → FieldType.WellFormed (.str limits)
  | int {range : Range} : range.Ordered → FieldType.WellFormed (.int range)
  | num {range : Range} : range.Ordered → FieldType.WellFormed (.num range)
  | bool : FieldType.WellFormed .bool
  | any : FieldType.WellFormed .any
  | enum {e : Enumeration} : e.values ≠ [] → FieldType.WellFormed (.enum e)
  | union {members : List FieldType} : members ≠ [] → (∀ t ∈ members, t.isPrimitive = true) →
      (∀ t ∈ members, FieldType.WellFormed t) → FieldType.WellFormed (.union members)
  | record (s : Schema) : FieldType.WellFormed (.record s)
  | seq {items : FieldType} {limits : Limits} : limits.Ordered → FieldType.WellFormed items →
      FieldType.WellFormed (.seq items limits)
  | map {values : FieldType} : FieldType.WellFormed values → FieldType.WellFormed (.map values)

structure Field.Fits (earlier : List Field) (f : Field) : Prop where
  name : f.name ≠ ""
  wireKey : f.wireKey ≠ ""
  newName : ∀ g ∈ earlier, g.name ≠ f.name
  newWireKey : ∀ g ∈ earlier, g.wireKey ≠ f.wireKey
  type : f.type.WellFormed

structure Schema.WellFormed (s : Schema) : Prop where
  name : s.name ≠ ""
  fieldName : ∀ f ∈ s.fields, f.name ≠ ""
  fieldWireKey : ∀ f ∈ s.fields, f.wireKey ≠ ""
  distinctNames : (s.fields.map Field.name).Nodup
  distinctWireKeys : (s.fields.map Field.wireKey).Nodup
  fieldType : ∀ f ∈ s.fields, f.type.WellFormed

theorem or_eq_some_iff_of_none {α : Type} {x y : Option α} (h : x = none ∨ y = none) {a : α} :
    x.or y = some a ↔ x = some a ∨ y = some a := by
  obtain rfl | rfl := h <;> simp

theorem Range.flaw?_eq_none_iff {r : Range} : r.flaw? = none ↔ r.Ordered := by
  unfold flaw?
  split_ifs with hl hu
  · simp only [false_iff]
    intro h
    obtain hn | hn := h.lower <;> simp [hn] at hl
  · simp only [false_iff]
    intro h
    obtain hn | hn := h.upper <;> simp [hn] at hu
  · have hlower : r.gt = none ∨ r.gte = none := by
      cases hgt : r.gt <;> simp_all
    have hupper : r.lt = none ∨ r.lte = none := by
      cases hlt : r.lt <;> simp_all
    constructor
    · intro h
      refine ⟨hlower, hupper, fun low high hlow hhigh ↦ ?_⟩
      rw [(or_eq_some_iff_of_none hlower).mpr hlow,
        (or_eq_some_iff_of_none hupper).mpr hhigh] at h
      simpa using h
    · intro h
      split
      next low high hlow hhigh =>
        have hc := h.uncrossed low high ((or_eq_some_iff_of_none hlower).mp hlow)
          ((or_eq_some_iff_of_none hupper).mp hhigh)
        rw [hc]
        rfl
      next => rfl

theorem Limits.flaw?_eq_none_iff {l : Limits} : l.flaw? = none ↔ l.Ordered := by
  obtain ⟨min, max⟩ := l
  cases min <;> cases max <;> simp [flaw?, Ordered]

theorem FieldType.flaw?_eq_none_iff {t : FieldType} : t.flaw? = none ↔ t.WellFormed := by
  induction t using FieldType.induction with
  | scalar t hs ih =>
    cases t with
    | str limits =>
      rw [flaw?, Limits.flaw?_eq_none_iff]
      refine ⟨.str, fun h ↦ ?_⟩
      cases h with
      | str h => exact h
    | int range =>
      rw [flaw?, Range.flaw?_eq_none_iff]
      refine ⟨.int, fun h ↦ ?_⟩
      cases h with
      | int h => exact h
    | num range =>
      rw [flaw?, Range.flaw?_eq_none_iff]
      refine ⟨.num, fun h ↦ ?_⟩
      cases h with
      | num h => exact h
    | bool => exact ⟨fun _ ↦ .bool, fun _ ↦ rfl⟩
    | any => exact ⟨fun _ ↦ .any, fun _ ↦ rfl⟩
    | enum e =>
      have he : (enum e).flaw? = none ↔ e.values ≠ [] := by simp [flaw?]
      rw [he]
      refine ⟨.enum, fun h ↦ ?_⟩
      cases h with
      | enum h => exact h
    | union members =>
      have hm : (union members).flaw? = none ↔
          members ≠ [] ∧ ∀ t ∈ members, t.isPrimitive = true ∧ t.flaw? = none := by
        rw [flaw?]
        split_ifs with h
        · simp_all
        · rw [Built.memberFlaw?_eq_none_iff]
          simp_all
      rw [hm]
      constructor
      · intro h
        exact .union h.1 (fun t ht ↦ (h.2 t ht).1) fun t ht ↦ (ih t ht).mp (h.2 t ht).2
      · intro h
        cases h with
        | union hne hp hw => exact ⟨hne, fun t ht ↦ ⟨hp t ht, (ih t ht).mpr (hw t ht)⟩⟩
    | record | seq | map => simp [isScalar] at hs
  | record s => exact ⟨fun _ ↦ .record s, fun _ ↦ rfl⟩
  | seq items limits ih =>
    rw [flaw?, Option.or_eq_none_iff, Limits.flaw?_eq_none_iff, ih]
    constructor
    · intro h
      exact .seq h.1 h.2
    · intro h
      cases h with
      | seq hl hi => exact ⟨hl, hi⟩
  | map values ih =>
    rw [flaw?, ih]
    refine ⟨.map, fun h ↦ ?_⟩
    cases h with
    | map h => exact h

namespace Schema

variable {s : Schema}

end Schema

section

variable {registry : Registry} {name : String} {description : Option String} {fields : List Field}

end

namespace World

end World

end TypedRecord
