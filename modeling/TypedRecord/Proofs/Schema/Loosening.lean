import Mathlib.Data.Prod.Lex
import TypedRecord.Proofs.Record.Conformance
import TypedRecord.Proofs.Schema.Equality

namespace TypedRecord

namespace Binary64

/-- The place of a number in the order: its units, between those of the infinities. -/
def place? : Binary64 → Option (ℤ ×ₗ ℤ)
  | .nan => none
  | .infinite true => some (toLex (-1, 0))
  | .infinite false => some (toLex (1, 0))
  | .finite x => some (toLex (0, x.units))

variable {x y z : Binary64}

theorem lt_iff : x.lt y = true ↔
    ∃ a b, x.place? = some a ∧ y.place? = some b ∧ a < b := by
  rcases x with _ | (_ | _) | x <;> rcases y with _ | (_ | _) | y <;>
    simp [lt, place?, Prod.Lex.toLex_lt_toLex]

theorem le_iff : x.le y = true ↔
    ∃ a b, x.place? = some a ∧ y.place? = some b ∧ a ≤ b := by
  rcases x with _ | (_ | _) | x <;> rcases y with _ | (_ | _) | y <;>
    simp [le, lt, equal, place?, Prod.Lex.toLex_le_toLex, Int.le_iff_lt_or_eq]

theorem le_of_lt (h : x.lt y = true) : x.le y = true := by
  rw [le, h, Bool.true_or]

theorem le_trans (hxy : x.le y = true) (hyz : y.le z = true) : x.le z = true := by
  obtain ⟨a, b, hx, hy, hab⟩ := le_iff.mp hxy
  obtain ⟨b', c, hy', hz, hbc⟩ := le_iff.mp hyz
  obtain rfl := Option.some.inj (hy.symm.trans hy')
  exact le_iff.mpr ⟨a, c, hx, hz, hab.trans hbc⟩

theorem lt_of_lt_of_le (hxy : x.lt y = true) (hyz : y.le z = true) : x.lt z = true := by
  obtain ⟨a, b, hx, hy, hab⟩ := lt_iff.mp hxy
  obtain ⟨b', c, hy', hz, hbc⟩ := le_iff.mp hyz
  obtain rfl := Option.some.inj (hy.symm.trans hy')
  exact lt_iff.mpr ⟨a, c, hx, hz, hab.trans_le hbc⟩

theorem lt_of_le_of_lt (hxy : x.le y = true) (hyz : y.lt z = true) : x.lt z = true := by
  obtain ⟨a, b, hx, hy, hab⟩ := le_iff.mp hxy
  obtain ⟨b', c, hy', hz, hbc⟩ := lt_iff.mp hyz
  obtain rfl := Option.some.inj (hy.symm.trans hy')
  exact lt_iff.mpr ⟨a, c, hx, hz, hab.trans_lt hbc⟩

def AtMost (x y : Binary64) : Prop := x = y ∨ x.le y = true

theorem AtMost.trans (hxy : x.AtMost y) (hyz : y.AtMost z) : x.AtMost z := by
  obtain rfl | hxy := hxy
  · exact hyz
  · obtain rfl | hyz := hyz
    · exact .inr hxy
    · exact .inr (le_trans hxy hyz)

theorem AtMost.le_of_le (h : y.AtMost z) (hxy : x.le y = true) : x.le z = true := by
  obtain rfl | h := h
  · exact hxy
  · exact le_trans hxy h

theorem AtMost.lt_of_lt (h : y.AtMost z) (hxy : x.lt y = true) : x.lt z = true := by
  obtain rfl | h := h
  · exact hxy
  · exact lt_of_lt_of_le hxy h

theorem AtMost.le_of_ge (h : x.AtMost y) (hyz : y.le z = true) : x.le z = true := by
  obtain rfl | h := h
  · exact hyz
  · exact le_trans h hyz

theorem AtMost.lt_of_gt (h : x.AtMost y) (hyz : y.lt z = true) : x.lt z = true := by
  obtain rfl | h := h
  · exact hyz
  · exact lt_of_le_of_lt h hyz

end Binary64

/-- Every bound of the second range follows from one of the first: it has moved outwards, or has
become inclusive. -/
structure Range.Loosens (r s : Range) : Prop where
  gt : ∀ b, s.gt = some b →
    (∃ a, r.gt = some a ∧ b.AtMost a) ∨ ∃ a, r.gte = some a ∧ b.lt a = true
  gte : ∀ b, s.gte = some b →
    (∃ a, r.gte = some a ∧ b.AtMost a) ∨ ∃ a, r.gt = some a ∧ b.AtMost a
  lt : ∀ b, s.lt = some b →
    (∃ a, r.lt = some a ∧ a.AtMost b) ∨ ∃ a, r.lte = some a ∧ a.lt b = true
  lte : ∀ b, s.lte = some b →
    (∃ a, r.lte = some a ∧ a.AtMost b) ∨ ∃ a, r.lt = some a ∧ a.AtMost b

theorem Range.Loosens.allows {r s : Range} {n : Json.Number} (h : r.Loosens s)
    (hn : r.Allows n) : s.Allows n where
  gt b hb := by
    rw [Bool.eq_false_iff]
    intro hnb
    obtain ⟨a, ha, hba⟩ | ⟨a, ha, hba⟩ := h.gt b hb
    · exact Bool.eq_false_iff.mp (hn.gt a ha) (hba.le_of_le hnb)
    · exact Bool.eq_false_iff.mp (hn.gte a ha) (Binary64.lt_of_le_of_lt hnb hba)
  gte b hb := by
    rw [Bool.eq_false_iff]
    intro hnb
    obtain ⟨a, ha, hba⟩ | ⟨a, ha, hba⟩ := h.gte b hb
    · exact Bool.eq_false_iff.mp (hn.gte a ha) (hba.lt_of_lt hnb)
    · exact Bool.eq_false_iff.mp (hn.gt a ha) (Binary64.le_of_lt (hba.lt_of_lt hnb))
  lt b hb := by
    rw [Bool.eq_false_iff]
    intro hbn
    obtain ⟨a, ha, hab⟩ | ⟨a, ha, hab⟩ := h.lt b hb
    · exact Bool.eq_false_iff.mp (hn.lt a ha) (hab.le_of_ge hbn)
    · exact Bool.eq_false_iff.mp (hn.lte a ha) (Binary64.lt_of_lt_of_le hab hbn)
  lte b hb := by
    rw [Bool.eq_false_iff]
    intro hbn
    obtain ⟨a, ha, hab⟩ | ⟨a, ha, hab⟩ := h.lte b hb
    · exact Bool.eq_false_iff.mp (hn.lte a ha) (hab.lt_of_gt hbn)
    · exact Bool.eq_false_iff.mp (hn.lt a ha) (Binary64.le_of_lt (hab.lt_of_gt hbn))

theorem Range.Loosens.inclusive (b : Binary64) :
    Range.Loosens { gt := some b } { gte := some b } where
  gt _ hb := nomatch hb
  gte _ hb := .inr ⟨b, rfl, .inl (Option.some.inj hb).symm⟩
  lt _ hb := nomatch hb
  lte _ hb := nomatch hb

theorem Range.Loosens.refl (r : Range) : r.Loosens r where
  gt b hb := .inl ⟨b, hb, .inl rfl⟩
  gte b hb := .inl ⟨b, hb, .inl rfl⟩
  lt b hb := .inl ⟨b, hb, .inl rfl⟩
  lte b hb := .inl ⟨b, hb, .inl rfl⟩

theorem Range.Loosens.trans {q r s : Range} (hqr : q.Loosens r) (hrs : r.Loosens s) :
    q.Loosens s where
  gt c hc := by
    obtain ⟨b, hb, hcb⟩ | ⟨b, hb, hcb⟩ := hrs.gt c hc
    · obtain ⟨a, ha, hba⟩ | ⟨a, ha, hba⟩ := hqr.gt b hb
      · exact .inl ⟨a, ha, hcb.trans hba⟩
      · exact .inr ⟨a, ha, hcb.lt_of_gt hba⟩
    · obtain ⟨a, ha, hba⟩ | ⟨a, ha, hba⟩ := hqr.gte b hb
      · exact .inr ⟨a, ha, hba.lt_of_lt hcb⟩
      · exact .inl ⟨a, ha, .inr (Binary64.le_of_lt (hba.lt_of_lt hcb))⟩
  gte c hc := by
    obtain ⟨b, hb, hcb⟩ | ⟨b, hb, hcb⟩ := hrs.gte c hc
    · obtain ⟨a, ha, hba⟩ | ⟨a, ha, hba⟩ := hqr.gte b hb
      · exact .inl ⟨a, ha, hcb.trans hba⟩
      · exact .inr ⟨a, ha, hcb.trans hba⟩
    · obtain ⟨a, ha, hba⟩ | ⟨a, ha, hba⟩ := hqr.gt b hb
      · exact .inr ⟨a, ha, hcb.trans hba⟩
      · exact .inl ⟨a, ha, .inr (Binary64.le_of_lt (hcb.lt_of_gt hba))⟩
  lt c hc := by
    obtain ⟨b, hb, hbc⟩ | ⟨b, hb, hbc⟩ := hrs.lt c hc
    · obtain ⟨a, ha, hab⟩ | ⟨a, ha, hab⟩ := hqr.lt b hb
      · exact .inl ⟨a, ha, hab.trans hbc⟩
      · exact .inr ⟨a, ha, hbc.lt_of_lt hab⟩
    · obtain ⟨a, ha, hab⟩ | ⟨a, ha, hab⟩ := hqr.lte b hb
      · exact .inr ⟨a, ha, hab.lt_of_gt hbc⟩
      · exact .inl ⟨a, ha, .inr (Binary64.le_of_lt (hab.lt_of_gt hbc))⟩
  lte c hc := by
    obtain ⟨b, hb, hbc⟩ | ⟨b, hb, hbc⟩ := hrs.lte c hc
    · obtain ⟨a, ha, hab⟩ | ⟨a, ha, hab⟩ := hqr.lte b hb
      · exact .inl ⟨a, ha, hab.trans hbc⟩
      · exact .inr ⟨a, ha, hab.trans hbc⟩
    · obtain ⟨a, ha, hab⟩ | ⟨a, ha, hab⟩ := hqr.lt b hb
      · exact .inr ⟨a, ha, hab.trans hbc⟩
      · exact .inl ⟨a, ha, .inr (Binary64.le_of_lt (hbc.lt_of_lt hab))⟩

structure Limits.Loosens (l m : Limits) : Prop where
  min : ∀ b, m.min = some b → ∃ a, l.min = some a ∧ b ≤ a
  max : ∀ b, m.max = some b → ∃ a, l.max = some a ∧ a ≤ b

theorem Limits.Loosens.allows {l m : Limits} {length : Nat} (h : l.Loosens m)
    (hl : l.Allows length) : m.Allows length where
  min b hb := by
    obtain ⟨a, ha, hba⟩ := h.min b hb
    exact hba.trans (hl.min a ha)
  max b hb := by
    obtain ⟨a, ha, hab⟩ := h.max b hb
    exact (hl.max a ha).trans hab

theorem Limits.Loosens.refl (l : Limits) : l.Loosens l where
  min b hb := ⟨b, hb, le_rfl⟩
  max b hb := ⟨b, hb, le_rfl⟩

theorem Limits.Loosens.trans {k l m : Limits} (hkl : k.Loosens l) (hlm : l.Loosens m) :
    k.Loosens m where
  min c hc := by
    obtain ⟨b, hb, hcb⟩ := hlm.min c hc
    obtain ⟨a, ha, hba⟩ := hkl.min b hb
    exact ⟨a, ha, hcb.trans hba⟩
  max c hc := by
    obtain ⟨b, hb, hbc⟩ := hlm.max c hc
    obtain ⟨a, ha, hab⟩ := hkl.max b hb
    exact ⟨a, ha, hab.trans hbc⟩

theorem Limits.Loosens.raised {a b : Nat} (h : a ≤ b) :
    Limits.Loosens { max := some a } { max := some b } where
  min := nofun
  max _ hb := ⟨a, rfl, Option.some.inj hb ▸ h⟩

structure Field.Loosens (f g : Field) : Prop where
  name : f.name = g.name
  wireKey : f.wireKey = g.wireKey
  required : g.required = true → f.required = true
  nullable : f.nullable = true → g.nullable = true
  description : f.description = g.description

theorem Field.Loosens.refl (f : Field) : f.Loosens f := ⟨rfl, rfl, id, id, rfl⟩

theorem Field.Loosens.trans {f g h : Field} (hfg : f.Loosens g) (hgh : g.Loosens h) :
    f.Loosens h where
  name := hfg.name.trans hgh.name
  wireKey := hfg.wireKey.trans hgh.wireKey
  required := hfg.required ∘ hgh.required
  nullable := hgh.nullable ∘ hfg.nullable
  description := hfg.description.trans hgh.description

/-- The second type is the first one with any of its conditions weakened, at any depth. -/
inductive FieldType.Loosens : FieldType → FieldType → Prop
  | str {limits limits' : Limits} : limits.Loosens limits' →
      FieldType.Loosens (.str limits) (.str limits')
  | int {range range' : Range} : range.Loosens range' →
      FieldType.Loosens (.int range) (.int range')
  | num {range range' : Range} : range.Loosens range' →
      FieldType.Loosens (.num range) (.num range')
  | bool : FieldType.Loosens .bool .bool
  | any : FieldType.Loosens .any .any
  | enum {e e' : Enumeration} : e.name = e'.name → e.values <+: e'.values →
      FieldType.Loosens (.enum e) (.enum e')
  | union {members members' : List FieldType} : members.length ≤ members'.length →
      (∀ t u, (t, u) ∈ members.zip members' → FieldType.Loosens t u) →
      FieldType.Loosens (.union members) (.union members')
  | record {s t : Schema} : s.name = t.name → s.description = t.description →
      List.Forall₂ Field.Loosens s.fields t.fields →
      (∀ f g, (f, g) ∈ s.fields.zip t.fields → FieldType.Loosens f.type g.type) →
      FieldType.Loosens (.record s) (.record t)
  | seq {items items' : FieldType} {limits limits' : Limits} : limits.Loosens limits' →
      FieldType.Loosens items items' →
      FieldType.Loosens (.seq items limits) (.seq items' limits')
  | map {values values' : FieldType} : FieldType.Loosens values values' →
      FieldType.Loosens (.map values) (.map values')

namespace FieldType

variable {t u v : FieldType}

theorem Loosens.fields {s l : Schema} (h : (FieldType.record s).Loosens (.record l)) :
    List.Forall₂ Field.Loosens s.fields l.fields ∧
      ∀ f g, (f, g) ∈ s.fields.zip l.fields → f.type.Loosens g.type := by
  cases h with
  | record _ _ hfields htypes => exact ⟨hfields, htypes⟩

theorem Loosens.refl (t : FieldType) : t.Loosens t := by
  induction t using FieldType.induction with
  | scalar t hs ih =>
    cases t with
    | str limits => exact .str (.refl limits)
    | int range => exact .int (.refl range)
    | num range => exact .num (.refl range)
    | bool => exact .bool
    | any => exact .any
    | enum e => exact .enum rfl List.prefix_rfl
    | union members =>
      refine .union le_rfl fun t u hm ↦ ?_
      obtain rfl := eq_of_mem_zip_self hm
      exact ih t (List.of_mem_zip hm).1
    | record | seq | map => cases hs
  | record s ih =>
    refine .record rfl rfl (List.forall₂_same.mpr fun f _ ↦ .refl f) fun f g hm ↦ ?_
    obtain rfl := eq_of_mem_zip_self hm
    exact ih f (List.of_mem_zip hm).1
  | seq items limits ih => exact .seq (.refl limits) ih
  | map values ih => exact .map ih

/-- Loosening one after another is loosening at once. -/
theorem Loosens.trans (htu : t.Loosens u) (huv : u.Loosens v) : t.Loosens v := by
  induction htu generalizing v with
  | str h =>
    cases huv with
    | str h' => exact .str (h.trans h')
  | int h =>
    cases huv with
    | int h' => exact .int (h.trans h')
  | num h =>
    cases huv with
    | num h' => exact .num (h.trans h')
  | bool | any => exact huv
  | enum hn h =>
    cases huv with
    | enum hn' h' => exact .enum (hn.trans hn') (h.trans h')
  | union hl _ ih =>
    cases huv with
    | union hl' hm' =>
      refine .union (hl.trans hl') fun t v hm ↦ ?_
      obtain ⟨u, htu, huv⟩ := exists_mem_zip_between hl hm
      exact ih t u htu (hm' u v huv)
  | record hn hd hfields _ ih =>
    cases huv with
    | record hn' hd' hfields' hm' =>
      refine .record (hn.trans hn') (hd.trans hd') ?_ fun f h hm ↦ ?_
      · exact forall₂_trans_of_mem (fun _ _ _ _ ↦ Field.Loosens.trans) hfields hfields'
      · obtain ⟨g, hfg, hgh⟩ := exists_mem_zip_between hfields.length_eq.le hm
        exact ih f g hfg (hm' g h hgh)
  | seq hl _ ih =>
    cases huv with
    | seq hl' h' => exact .seq (hl.trans hl') (ih h')
  | map _ ih =>
    cases huv with
    | map h' => exact .map (ih h')

theorem Loosens.isScalar (h : t.Loosens u) : u.isScalar = t.isScalar := by
  cases h <;> rfl

/-- What is stored as it came under a type is so under a looser one, though another member of a
union may be the first that admits it. -/
theorem Loosens.admits {json : Json} (h : t.Loosens u) : t.Admits json → u.Admits json := by
  induction h with
  | str hl =>
    intro ha
    obtain ⟨s, rfl, hs⟩ := admits_str_iff.mp ha
    exact .str (hl.allows hs)
  | int hr =>
    intro ha
    obtain ⟨n, rfl, hn⟩ := admits_int_iff.mp ha
    exact .int (hr.allows hn)
  | num hr =>
    intro ha
    obtain ⟨n, rfl, hn⟩ := admits_num_iff.mp ha
    exact .num (hr.allows hn)
  | bool | any => exact id
  | enum _ hvalues =>
    intro ha
    obtain ⟨s, rfl, hs⟩ := admits_enum_iff.mp ha
    exact .enum (hvalues.subset hs)
  | union hl _ ih =>
    intro ha
    obtain ⟨t, ht, ha⟩ := admits_union_iff.mp ha
    obtain ⟨u, hm⟩ := exists_mem_zip hl ht
    exact .union (List.of_mem_zip hm).2 (ih t u hm ha)
  | record | seq | map =>
    intro ha
    cases ha

end FieldType

end TypedRecord
