import Mathlib.Data.List.Nodup
import TypedRecord.Schema.Integrity

namespace TypedRecord

mutual

/-- The schemas that a type names; what those name in turn is left out. -/
def FieldType.nested : FieldType → List Schema
  | .record schema => [schema]
  | .seq items _ => items.nested
  | .map values => values.nested
  | .union members => FieldType.nestedAll members
  | .str _ | .int _ | .num _ | .bool | .any | .enum _ => []

def FieldType.nestedAll : List FieldType → List Schema
  | [] => []
  | t :: rest => t.nested ++ FieldType.nestedAll rest

end

def Schema.nested (s : Schema) : List Schema := s.fields.flatMap (·.type.nested)

/-- A schema that was accepted, as were the schemas nested in it before. -/
inductive Schema.Built : Schema → Prop
  | intro {s : Schema} : s.error? = none → (∀ t ∈ s.nested, Schema.Built t) → Schema.Built s

structure FieldType.Built (t : FieldType) : Prop where
  flawless : t.flaw? = none
  nested : ∀ s ∈ t.nested, s.Built

/-- A field is accepted if its keys are new among the earlier ones and its type has no flaw. -/
theorem Field.flaw?_eq_none_iff {earlier : List Field} {f : Field} :
    f.flaw? earlier = none ↔ f.name ≠ "" ∧ f.wireKey ≠ "" ∧ (∀ g ∈ earlier, g.name ≠ f.name) ∧
      (∀ g ∈ earlier, g.wireKey ≠ f.wireKey) ∧ f.type.flaw? = none := by
  unfold Field.flaw?
  split_ifs with hn hw hdn hdw
  · simp_all
  · simp_all
  · obtain ⟨g, hg, he⟩ := List.any_eq_true.mp hdn
    simp only [false_iff]
    exact fun h ↦ h.2.2.1 g hg (of_decide_eq_true he)
  · obtain ⟨g, hg, he⟩ := List.any_eq_true.mp hdw
    simp only [false_iff]
    exact fun h ↦ h.2.2.2.1 g hg (of_decide_eq_true he)
  · simp_all

theorem Schema.fieldError?_eq_none_iff {record : String} {earlier fields : List Field} :
    Schema.fieldError? record earlier fields = none ↔
      (∀ f ∈ fields, f.name ≠ "" ∧ f.wireKey ≠ "" ∧ f.type.flaw? = none) ∧
      (fields.map Field.name).Nodup ∧ (fields.map Field.wireKey).Nodup ∧
      ∀ f ∈ fields, ∀ g ∈ earlier, g.name ≠ f.name ∧ g.wireKey ≠ f.wireKey := by
  induction fields generalizing earlier with
  | nil => simp [Schema.fieldError?]
  | cons f rest ih =>
    rw [Schema.fieldError?]
    cases hf : f.flaw? earlier with
    | some flaw =>
      have hne := mt Field.flaw?_eq_none_iff.mpr (hf ▸ Option.some_ne_none flaw)
      simp only [reduceCtorEq, false_iff]
      intro h
      obtain ⟨hs, -, -, hd⟩ := h
      obtain ⟨hn, hw, ht⟩ := hs f List.mem_cons_self
      exact hne ⟨hn, hw, fun g hg ↦ (hd f List.mem_cons_self g hg).1,
        fun g hg ↦ (hd f List.mem_cons_self g hg).2, ht⟩
    | none =>
      obtain ⟨hn, hw, hdn, hdw, ht⟩ := Field.flaw?_eq_none_iff.mp hf
      simp only [ih, List.forall_mem_cons, List.map_cons, List.nodup_cons, List.mem_map, not_exists,
        not_and]
      constructor
      · intro h
        obtain ⟨hs, hns, hws, hd⟩ := h
        exact ⟨⟨⟨hn, hw, ht⟩, hs⟩, ⟨fun g hg ↦ (hd g hg).1.1 ∘ Eq.symm, hns⟩,
          ⟨fun g hg ↦ (hd g hg).1.2 ∘ Eq.symm, hws⟩, fun g hg ↦ ⟨hdn g hg, hdw g hg⟩,
          fun g hg ↦ (hd g hg).2⟩
      · intro h
        obtain ⟨⟨-, hs⟩, ⟨hnf, hns⟩, ⟨hwf, hws⟩, -, hd⟩ := h
        exact ⟨hs, hns, hws, fun g hg ↦ ⟨⟨hnf g hg ∘ Eq.symm, hwf g hg ∘ Eq.symm⟩, hd g hg⟩⟩

theorem Schema.error?_eq_none_iff {s : Schema} : s.error? = none ↔ s.name ≠ "" ∧
    (∀ f ∈ s.fields, f.name ≠ "" ∧ f.wireKey ≠ "" ∧ f.type.flaw? = none) ∧
    (s.fields.map Field.name).Nodup ∧ (s.fields.map Field.wireKey).Nodup := by
  unfold Schema.error?
  split_ifs with h
  · simp_all
  · rw [Schema.fieldError?_eq_none_iff]
    simp_all

namespace Schema.Built

variable {s : Schema}

theorem accepted (hs : s.Built) : s.error? = none := by
  obtain ⟨h, -⟩ := hs
  exact h

theorem part (hs : s.Built) {t : Schema} (ht : t ∈ s.nested) : t.Built := by
  obtain ⟨-, hn⟩ := hs
  exact hn t ht

theorem names (hs : s.Built) : (s.fields.map Field.name).Nodup :=
  (Schema.error?_eq_none_iff.mp hs.accepted).2.2.1

theorem wireKeys (hs : s.Built) : (s.fields.map Field.wireKey).Nodup :=
  (Schema.error?_eq_none_iff.mp hs.accepted).2.2.2

theorem field (hs : s.Built) {f : Field} (hf : f ∈ s.fields) : f.type.Built where
  flawless := ((Schema.error?_eq_none_iff.mp hs.accepted).2.1 f hf).2.2
  nested _ ht := hs.part (List.mem_flatMap.mpr ⟨f, hf, ht⟩)

end Schema.Built

namespace FieldType.Built

theorem ofSchema {s : Schema} (h : s.Built) : (FieldType.record s).Built where
  flawless := rfl
  nested _ ht := List.mem_singleton.mp ht ▸ h

theorem record {s : Schema} (h : (FieldType.record s).Built) : s.Built :=
  h.nested s (by simp [FieldType.nested])

theorem seq {items : FieldType} {limits : Limits} (h : (FieldType.seq items limits).Built) :
    items.Built where
  flawless := by
    have hf := h.flawless
    simp only [FieldType.flaw?, Option.or_eq_none_iff] at hf
    exact hf.2
  nested s hs := h.nested s (by simpa only [FieldType.nested] using hs)

theorem map {values : FieldType} (h : (FieldType.map values).Built) : values.Built where
  flawless := by simpa only [FieldType.flaw?] using h.flawless
  nested s hs := h.nested s (by simpa only [FieldType.nested] using hs)

theorem memberFlaw?_eq_none_iff {members : List FieldType} :
    FieldType.memberFlaw? members = none ↔
      ∀ t ∈ members, t.isPrimitive = true ∧ t.flaw? = none := by
  induction members with
  | nil => simp [FieldType.memberFlaw?]
  | cons t rest ih =>
    rw [FieldType.memberFlaw?]
    by_cases hp : t.isPrimitive
    · simp [hp, ih]
    · simp [hp]

theorem members {members : List FieldType} (h : (FieldType.union members).Built) :
    ∀ t ∈ members, t.isPrimitive = true ∧ t.flaw? = none := by
  have hf := h.flawless
  rw [FieldType.flaw?] at hf
  split_ifs at hf
  exact memberFlaw?_eq_none_iff.mp hf

theorem member {members : List FieldType} (h : (FieldType.union members).Built) {t : FieldType}
    (ht : t ∈ members) : t.Built := by
  obtain ⟨hp, hf⟩ := h.members t ht
  refine ⟨hf, fun s hs ↦ ?_⟩
  cases t <;> simp [FieldType.isPrimitive, FieldType.nested] at hp hs

end FieldType.Built

end TypedRecord
