import TypedRecord.Proofs.Outcome
import TypedRecord.Proofs.Schema.Built
import TypedRecord.Proofs.Schema.Induction
import TypedRecord.Record.Decode

namespace TypedRecord

/-- No bound is seen to be violated by the number. -/
structure Range.Allows (r : Range) (n : Json.Number) : Prop where
  gt : ∀ b, r.gt = some b → n.toBinary64.le b = false
  gte : ∀ b, r.gte = some b → n.toBinary64.lt b = false
  lt : ∀ b, r.lt = some b → b.le n.toBinary64 = false
  lte : ∀ b, r.lte = some b → b.lt n.toBinary64 = false

structure Limits.Allows (l : Limits) (length : Nat) : Prop where
  min : ∀ m, l.min = some m → m ≤ length
  max : ∀ m, l.max = some m → length ≤ m

inductive FieldType.Admits : FieldType → Json → Prop
  | str {limits : Limits} {s : String} :
      limits.Allows s.length → FieldType.Admits (.str limits) (.str s)
  | int {range : Range} {n : Int} :
      range.Allows (.int n) → FieldType.Admits (.int range) (.num (.int n))
  | num {range : Range} {n : Json.Number} :
      range.Allows n → FieldType.Admits (.num range) (.num n)
  | bool (b : Bool) : FieldType.Admits .bool (.bool b)
  | any {json : Json} : json ≠ .null → FieldType.Admits .any json
  | enum {e : Enumeration} {s : String} : s ∈ e.values → FieldType.Admits (.enum e) (.str s)
  | union {members : List FieldType} {t : FieldType} {json : Json} :
      t ∈ members → FieldType.Admits t json → FieldType.Admits (.union members) json

/-- The JSON values that a type declares, where objects stand for records by their aliases. -/
inductive FieldType.Conforms (unknown : UnknownKeys) : FieldType → Json → Prop
  | scalar {t : FieldType} {json : Json} : t.Admits json → FieldType.Conforms unknown t json
  | record {s : Schema} {entries : List (String × Json)} :
      (∀ f ∈ s.fields, f.required = true → f.wireKey ∈ entries.map Prod.fst) →
      (∀ f ∈ s.fields, Entries.get? f.wireKey entries = some .null → f.nullable = true) →
      (∀ f ∈ s.fields, ∀ json, json ≠ .null → Entries.get? f.wireKey entries = some json →
        FieldType.Conforms unknown f.type json) →
      (unknown = .reject → ∀ key ∈ entries.map Prod.fst, ∃ f ∈ s.fields, f.wireKey = key) →
      FieldType.Conforms unknown (.record s) (.obj entries)
  | seq {items : FieldType} {limits : Limits} {elements : List Json} :
      limits.Allows elements.length → (∀ json ∈ elements, FieldType.Conforms unknown items json) →
      FieldType.Conforms unknown (.seq items limits) (.arr elements)
  | map {values : FieldType} {entries : List (String × Json)} :
      (∀ e ∈ entries, FieldType.Conforms unknown values e.2) →
      FieldType.Conforms unknown (.map values) (.obj entries)

theorem Range.breach?_eq_none_iff {r : Range} {n : Json.Number} :
    r.breach? n = none ↔ r.Allows n := by
  obtain ⟨gt, gte, lt, lte⟩ := r
  constructor
  · intro h
    simp only [Range.breach?, Option.or_eq_none_iff, Option.map_eq_none_iff,
      Option.filter_eq_none_iff, Bool.not_eq_true] at h
    exact ⟨h.1, h.2.1, h.2.2.1, h.2.2.2⟩
  · intro h
    obtain ⟨hgt, hgte, hlt, hlte⟩ := h
    simp only [Range.breach?, Option.or_eq_none_iff, Option.map_eq_none_iff,
      Option.filter_eq_none_iff, Bool.not_eq_true]
    exact ⟨hgt, hgte, hlt, hlte⟩

theorem Limits.breach?_eq_none_iff {l : Limits} {measured : Measured} {length : Nat} :
    l.breach? measured length = none ↔ l.Allows length := by
  simp only [Limits.breach?, Option.or_eq_none_iff, Option.map_eq_none_iff,
    Option.filter_eq_none_iff, decide_eq_true_eq, Nat.not_lt]
  exact ⟨fun h ↦ ⟨h.1, h.2⟩, fun h ↦ ⟨h.min, h.max⟩⟩

theorem FieldType.Admits.ne_null {t : FieldType} {json : Json} (h : t.Admits json) :
    json ≠ .null := by
  induction h with
  | any h => exact h
  | union _ _ ih => exact ih
  | str | int | num | bool | enum => nofun

theorem FieldType.Conforms.ne_null {unknown : UnknownKeys} {t : FieldType} {json : Json}
    (h : t.Conforms unknown json) : json ≠ .null := by
  cases h with
  | scalar h => exact h.ne_null
  | record | seq | map => nofun

namespace FieldType

variable {json : Json}

theorem admits_str_iff {limits : Limits} :
    (str limits).Admits json ↔ ∃ s, json = .str s ∧ limits.Allows s.length := by
  constructor
  · intro h
    cases h with
    | str h => exact ⟨_, rfl, h⟩
  · intro h
    obtain ⟨s, rfl, h⟩ := h
    exact .str h

theorem admits_int_iff {range : Range} :
    (int range).Admits json ↔ ∃ n, json = .num (.int n) ∧ range.Allows (.int n) := by
  constructor
  · intro h
    cases h with
    | int h => exact ⟨_, rfl, h⟩
  · intro h
    obtain ⟨n, rfl, h⟩ := h
    exact .int h

theorem admits_num_iff {range : Range} :
    (num range).Admits json ↔ ∃ n, json = .num n ∧ range.Allows n := by
  constructor
  · intro h
    cases h with
    | num h => exact ⟨_, rfl, h⟩
  · intro h
    obtain ⟨n, rfl, h⟩ := h
    exact .num h

theorem admits_bool_iff : bool.Admits json ↔ ∃ b, json = .bool b := by
  constructor
  · intro h
    cases h with
    | bool b => exact ⟨b, rfl⟩
  · intro h
    obtain ⟨b, rfl⟩ := h
    exact .bool b

theorem admits_enum_iff {e : Enumeration} :
    (enum e).Admits json ↔ ∃ s, json = .str s ∧ s ∈ e.values := by
  constructor
  · intro h
    cases h with
    | enum h => exact ⟨_, rfl, h⟩
  · intro h
    obtain ⟨s, rfl, h⟩ := h
    exact .enum h

theorem admits_union_iff {members : List FieldType} :
    (union members).Admits json ↔ ∃ t ∈ members, t.Admits json := by
  constructor
  · intro h
    cases h with
    | union ht h => exact ⟨_, ht, h⟩
  · intro h
    obtain ⟨t, ht, h⟩ := h
    exact .union ht h

end FieldType

section

variable {json : Json} {v : Value}

theorem Limits.acceptString_eq_ok {limits : Limits} : limits.acceptString json = .ok v ↔
    (FieldType.str limits).Admits json ∧ v = .scalar json := by
  rw [FieldType.admits_str_iff]
  cases json with
  | str s => simp [acceptString, guardBreach_eq_ok, breach?_eq_none_iff, @eq_comm _ v]
  | _ => simp [acceptString, wrongType, Located.here]

theorem Range.acceptInt_eq_ok {range : Range} : range.acceptInt json = .ok v ↔
    (FieldType.int range).Admits json ∧ v = .scalar json := by
  rw [FieldType.admits_int_iff]
  cases json with
  | num n =>
    cases n with
    | int n => simp [acceptInt, guardBreach_eq_ok, breach?_eq_none_iff, @eq_comm _ v]
    | float => simp [acceptInt, wrongType, Located.here]
  | _ => simp [acceptInt, wrongType, Located.here]

theorem Range.acceptNum_eq_ok {range : Range} : range.acceptNum json = .ok v ↔
    (FieldType.num range).Admits json ∧ v = .scalar json := by
  rw [FieldType.admits_num_iff]
  cases json with
  | num n => simp [acceptNum, guardBreach_eq_ok, breach?_eq_none_iff, @eq_comm _ v]
  | _ => simp [acceptNum, wrongType, Located.here]

theorem acceptBool_eq_ok : acceptBool json = .ok v ↔
    FieldType.bool.Admits json ∧ v = .scalar json := by
  rw [FieldType.admits_bool_iff]
  cases json with
  | bool b => simp [acceptBool, @eq_comm _ v]
  | _ => simp [acceptBool, wrongType, Located.here]

theorem Enumeration.accept_eq_ok {e : Enumeration} : e.accept json = .ok v ↔
    (FieldType.enum e).Admits json ∧ v = .scalar json := by
  rw [FieldType.admits_enum_iff]
  cases json with
  | str s =>
    by_cases hs : s ∈ e.values
    · simp [accept, contains, hs, @eq_comm _ v]
    · simp [accept, contains, hs, wrongType, Located.here]
  | _ => simp [accept, wrongType, Located.here]

theorem ofMembers_eq_ok {kind : Json.Kind} {r : Except (Option ValidationError) Value} :
    ofMembers kind r = .ok v ↔ r = .ok v := by
  cases r with
  | ok w => simp [ofMembers]
  | error e => cases e <;> simp [ofMembers, wrongType, Located.here]

theorem orElseMember_eq_ok {first : Except ValidationError Value}
    {rest : Except (Option ValidationError) Value} : orElseMember first rest = .ok v ↔
      first = .ok v ∨ (∃ e, first = .error e) ∧ rest = .ok v := by
  cases first <;> cases rest <;> simp [orElseMember]

theorem FieldType.accept_primitive_eq_ok {rule : KeyRule} {t : FieldType} (ht : t.isPrimitive) :
    t.accept rule json = .ok v ↔ t.Admits json ∧ v = .scalar json := by
  cases t with
  | str limits => rw [FieldType.accept]; exact Limits.acceptString_eq_ok
  | int range => rw [FieldType.accept]; exact Range.acceptInt_eq_ok
  | num range => rw [FieldType.accept]; exact Range.acceptNum_eq_ok
  | bool => rw [FieldType.accept]; exact acceptBool_eq_ok
  | enum e => rw [FieldType.accept]; exact Enumeration.accept_eq_ok
  | any | union | record | seq | map => simp [FieldType.isPrimitive] at ht

theorem FieldType.acceptAny_eq_ok {rule : KeyRule} {members : List FieldType}
    (hm : ∀ t ∈ members, t.isPrimitive = true) : FieldType.acceptAny rule members json = .ok v ↔
      (∃ t ∈ members, t.Admits json) ∧ v = .scalar json := by
  induction members with
  | nil => simp [FieldType.acceptAny]
  | cons t rest ih =>
    have ht : t.accept rule json = .ok v ↔ t.Admits json ∧ v = .scalar json :=
      FieldType.accept_primitive_eq_ok (hm t List.mem_cons_self)
    have hr := ih fun u hu ↦ hm u (List.mem_cons_of_mem _ hu)
    rw [FieldType.acceptAny, orElseMember_eq_ok, ht, hr]
    simp only [List.exists_mem_cons_iff]
    constructor
    · intro h
      rcases h with ⟨ha, hv⟩ | ⟨-, ha, hv⟩
      · exact ⟨.inl ha, hv⟩
      · exact ⟨.inr ha, hv⟩
    · intro h
      rcases h with ⟨ha | ha, hv⟩
      · exact .inl ⟨ha, hv⟩
      -- a later member decides only where the first one refuses
      · cases hf : t.accept rule json with
        | ok w =>
          have hw := (FieldType.accept_primitive_eq_ok (hm t List.mem_cons_self)).mp hf
          exact .inl ⟨hw.1, hv⟩
        | error e => exact .inr ⟨⟨e, rfl⟩, ha, hv⟩

/-- Scalars are accepted alike under either key rule. -/
theorem FieldType.accept_scalar_eq_ok {rule : KeyRule} {t : FieldType} (hs : t.isScalar)
    (ht : t.Built) (hj : json ≠ .null) :
    t.accept rule json = .ok v ↔ t.Admits json ∧ v = .scalar json := by
  cases t with
  | str | int | num | bool | enum => exact FieldType.accept_primitive_eq_ok rfl
  | any =>
    simp only [FieldType.accept, Except.ok.injEq, @eq_comm _ _ v]
    exact ⟨fun h ↦ ⟨.any hj, h⟩, fun h ↦ h.2⟩
  | union members =>
    rw [FieldType.accept, ofMembers_eq_ok, FieldType.acceptAny_eq_ok fun t hm ↦ (ht.members t hm).1]
    exact and_congr_left fun _ ↦ admits_union_iff.symm
  | record | seq | map => simp [FieldType.isScalar] at hs

end

section

variable {unknown : UnknownKeys} {json : Json}

theorem FieldType.conforms_scalar_iff {t : FieldType} (ht : t.isScalar) :
    t.Conforms unknown json ↔ t.Admits json := by
  constructor
  · intro h
    cases h with
    | scalar h => exact h
    | record | seq | map => simp [FieldType.isScalar] at ht
  · exact .scalar

theorem FieldType.conforms_seq_iff {items : FieldType} {limits : Limits} :
    (FieldType.seq items limits).Conforms unknown json ↔ ∃ elements, json = .arr elements ∧
      limits.Allows elements.length ∧ ∀ j ∈ elements, items.Conforms unknown j := by
  constructor
  · intro h
    cases h with
    | scalar h => cases h
    | seq hl he => exact ⟨_, rfl, hl, he⟩
  · intro h
    rcases h with ⟨elements, rfl, hl, he⟩
    exact .seq hl he

theorem FieldType.conforms_map_iff {values : FieldType} :
    (FieldType.map values).Conforms unknown json ↔ ∃ entries, json = .obj entries ∧
      ∀ e ∈ entries, values.Conforms unknown e.2 := by
  constructor
  · intro h
    cases h with
    | scalar h => cases h
    | map he => exact ⟨_, rfl, he⟩
  · intro h
    rcases h with ⟨entries, rfl, he⟩
    exact .map he

structure Field.Conforms (unknown : UnknownKeys) (f : Field) (entries : List (String × Json)) :
    Prop where
  required : f.required = true → f.wireKey ∈ entries.map Prod.fst
  null : Entries.get? f.wireKey entries = some .null → f.nullable = true
  value : ∀ json, json ≠ .null → Entries.get? f.wireKey entries = some json →
    f.type.Conforms unknown json

namespace Field

variable {f : Field} {entries : List (String × Json)}

theorem conforms_of_absent (hr : f.required = false) (h : Entries.get? f.wireKey entries = none) :
    f.Conforms unknown entries where
  required hq := by
    rw [hr] at hq
    cases hq
  null hn := by
    rw [h] at hn
    cases hn
  value json _ hj := by
    rw [h] at hj
    cases hj

theorem conforms_of_null (hn : f.nullable = true)
    (h : Entries.get? f.wireKey entries = some .null) : f.Conforms unknown entries where
  required _ := by
    rw [← Entries.get?_isSome_iff, h]
    rfl
  null _ := hn
  value json hne hj := by
    rw [h] at hj
    exact absurd (Option.some.inj hj).symm hne

theorem conforms_of_value (hc : f.type.Conforms unknown json)
    (h : Entries.get? f.wireKey entries = some json) : f.Conforms unknown entries where
  required _ := by
    rw [← Entries.get?_isSome_iff, h]
    rfl
  null hn := by
    rw [h] at hn
    exact absurd (Option.some.inj hn) hc.ne_null
  value other _ ho := by
    rw [h] at ho
    exact Option.some.inj ho ▸ hc

end Field

theorem FieldType.conforms_record_iff {s : Schema} :
    (FieldType.record s).Conforms unknown json ↔ ∃ entries, json = .obj entries ∧
      (∀ f ∈ s.fields, f.Conforms unknown entries) ∧
      (unknown = .reject → ∀ key ∈ entries.map Prod.fst, ∃ f ∈ s.fields, f.wireKey = key) := by
  constructor
  · intro h
    cases h with
    | scalar h => cases h
    | record hr hn hv hk => exact ⟨_, rfl, fun f hf ↦ ⟨hr f hf, hn f hf, hv f hf⟩, hk⟩
  · intro h
    rcases h with ⟨entries, rfl, hf, hk⟩
    exact .record (fun f hm ↦ (hf f hm).required) (fun f hm ↦ (hf f hm).null)
      (fun f hm ↦ (hf f hm).value) hk

end

end TypedRecord
