import Mathlib.Data.List.Forall2
import Mathlib.Data.Option.Basic
import TypedRecord.Proofs.Schema.Induction
import TypedRecord.Schema.Basic

namespace TypedRecord

namespace Binary64

variable {x y z : Binary64}

theorem equal_trans (hxy : x.equal y = true) (hyz : y.equal z = true) : x.equal z = true := by
  cases x <;> cases y <;> simp only [equal, decide_eq_true_eq, Bool.false_eq_true] at hxy
  · cases z <;> simp_all [equal]
  · cases z <;> simp_all [equal]

theorem lt_congr_left (h : x.equal y = true) : x.lt z = y.lt z := by
  cases x <;> cases y <;> simp only [equal, decide_eq_true_eq, Bool.false_eq_true] at h
  · rw [h]
  · cases z with
    | nan => rfl
    | infinite negative => cases negative <;> rfl
    | finite z => simp only [lt, h]

theorem lt_congr_right (h : y.equal z = true) : x.lt y = x.lt z := by
  cases y <;> cases z <;> simp only [equal, decide_eq_true_eq, Bool.false_eq_true] at h
  · rw [h]
  · cases x with
    | nan => rfl
    | infinite negative => cases negative <;> rfl
    | finite x => simp only [lt, h]

theorem equal_congr_left (h : x.equal y = true) : x.equal z = y.equal z := by
  rw [Bool.eq_iff_iff]
  exact ⟨equal_trans (equal_comm x y ▸ h), equal_trans h⟩

theorem le_congr_left (h : x.equal y = true) : x.le z = y.le z := by
  rw [le, le, lt_congr_left h, equal_congr_left h]

theorem le_congr_right (h : y.equal z = true) : x.le y = x.le z := by
  rw [le, le, lt_congr_right h, equal_comm x y, equal_comm x z, equal_congr_left h]

end Binary64

namespace Range

variable {r s t : Range}

structure Agrees (r s : Range) : Prop where
  gt : Option.Rel (fun x y ↦ x.equal y = true) r.gt s.gt
  gte : Option.Rel (fun x y ↦ x.equal y = true) r.gte s.gte
  lt : Option.Rel (fun x y ↦ x.equal y = true) r.lt s.lt
  lte : Option.Rel (fun x y ↦ x.equal y = true) r.lte s.lte

theorem equalBound_iff {x y : Option Binary64} :
    equalBound x y = true ↔ Option.Rel (fun x y ↦ x.equal y = true) x y := by
  cases x <;> cases y <;> simp [equalBound]

theorem equal_iff : r.equal s = true ↔ r.Agrees s := by
  simp only [equal, Bool.and_eq_true, equalBound_iff]
  constructor
  · intro h
    obtain ⟨⟨⟨hgt, hgte⟩, hlt⟩, hlte⟩ := h
    exact ⟨hgt, hgte, hlt, hlte⟩
  · intro h
    obtain ⟨hgt, hgte, hlt, hlte⟩ := h
    exact ⟨⟨⟨hgt, hgte⟩, hlt⟩, hlte⟩

theorem equalBound_trans {x y z : Option Binary64} (hxy : equalBound x y = true)
    (hyz : equalBound y z = true) : equalBound x z = true := by
  rw [equalBound_iff] at hxy hyz ⊢
  cases hxy with
  | none => exact hyz
  | some hxy =>
    cases hyz with
    | some hyz => exact .some (Binary64.equal_trans hxy hyz)

theorem equal_trans (hrs : r.equal s = true) (hst : s.equal t = true) : r.equal t = true := by
  simp only [equal, Bool.and_eq_true] at hrs hst ⊢
  exact ⟨⟨⟨equalBound_trans hrs.1.1.1 hst.1.1.1, equalBound_trans hrs.1.1.2 hst.1.1.2⟩,
    equalBound_trans hrs.1.2 hst.1.2⟩, equalBound_trans hrs.2 hst.2⟩

def nanFree (r : Range) : Bool :=
  [r.gt, r.gte, r.lt, r.lte].all fun bound ↦ bound != some .nan

theorem equal_self (h : r.nanFree = true) : r.equal r = true := by
  have hb : ∀ {x : Option Binary64}, x ≠ some .nan → equalBound x x = true := by
    intro x hx
    cases x with
    | none => rfl
    | some x => exact Binary64.equal_self fun he ↦ hx (he ▸ rfl)
  simp only [nanFree, List.all_cons, List.all_nil, Bool.and_true, Bool.and_eq_true,
    bne_iff_ne] at h
  obtain ⟨hgt, hgte, hlt, hlte⟩ := h
  simp only [equal, hb hgt, hb hgte, hb hlt, hb hlte, Bool.and_self]

end Range

namespace FieldType

variable {t u : FieldType}

theorem equal_str_iff {l : Limits} : (str l).equal u = true ↔ u = str l := by
  cases u <;> simp [equal, eq_comm]

theorem equal_int_iff {r : Range} :
    (int r).equal u = true ↔ ∃ s, r.equal s = true ∧ u = int s := by
  cases u <;> simp [equal]

theorem equal_num_iff {r : Range} :
    (num r).equal u = true ↔ ∃ s, r.equal s = true ∧ u = num s := by
  cases u <;> simp [equal]

theorem equal_bool_iff : bool.equal u = true ↔ u = bool := by
  cases u <;> simp [equal]

theorem equal_any_iff : any.equal u = true ↔ u = any := by
  cases u <;> simp [equal]

theorem equal_enum_iff {e : Enumeration} : (enum e).equal u = true ↔ u = enum e := by
  cases u <;> simp [equal, eq_comm]

theorem equalAll_iff {ts us : List FieldType} :
    equalAll ts us = true ↔ List.Forall₂ (fun t u ↦ t.equal u = true) ts us := by
  induction ts generalizing us with
  | nil => cases us <;> simp [equalAll]
  | cons t ts ih => cases us <;> simp [equalAll, ih]

theorem equal_union_iff {ts : List FieldType} : (union ts).equal u = true ↔
    ∃ us, List.Forall₂ (fun t u ↦ t.equal u = true) ts us ∧ u = union us := by
  cases u <;> simp [equal, equalAll_iff]

theorem equal_record_iff {s : Schema} :
    (record s).equal u = true ↔ ∃ t, s.equal t = true ∧ u = record t := by
  cases u <;> simp [equal]

theorem equal_seq_iff {limits : Limits} :
    (seq t limits).equal u = true ↔ ∃ v, t.equal v = true ∧ u = seq v limits := by
  cases u <;> simp [equal, @eq_comm _ limits]

theorem equal_map_iff : (map t).equal u = true ↔ ∃ v, t.equal v = true ∧ u = map v := by
  cases u <;> simp [equal]

end FieldType

structure Field.Agrees (f g : Field) : Prop where
  name : f.name = g.name
  wireKey : f.wireKey = g.wireKey
  type : f.type.equal g.type = true
  required : f.required = g.required
  nullable : f.nullable = g.nullable
  description : f.description = g.description

theorem Field.equal_iff {f g : Field} : f.equal g = true ↔ f.Agrees g := by
  cases f
  simp only [Field.equal, Bool.and_eq_true, decide_eq_true_eq]
  constructor
  · intro h
    obtain ⟨⟨⟨⟨⟨hn, hw⟩, ht⟩, hr⟩, hu⟩, hd⟩ := h
    exact ⟨hn, hw, ht, hr, hu, hd⟩
  · intro h
    obtain ⟨hn, hw, ht, hr, hu, hd⟩ := h
    exact ⟨⟨⟨⟨⟨hn, hw⟩, ht⟩, hr⟩, hu⟩, hd⟩

theorem Field.equalAll_iff {fs gs : List Field} :
    Field.equalAll fs gs = true ↔ List.Forall₂ Field.Agrees fs gs := by
  induction fs generalizing gs with
  | nil => cases gs <;> simp [Field.equalAll]
  | cons f fs ih => cases gs <;> simp [Field.equalAll, Field.equal_iff, ih]

theorem Schema.equal_iff {s t : Schema} : s.equal t = true ↔ s.name = t.name ∧
    s.description = t.description ∧ List.Forall₂ Field.Agrees s.fields t.fields := by
  cases s
  simp [Schema.equal, Field.equalAll_iff, and_assoc]

section Transitivity

theorem forall₂_trans_of_mem {α : Type} {p : α → α → Prop} {xs ys zs : List α}
    (hp : ∀ x ∈ xs, ∀ y z, p x y → p y z → p x z) (hxy : List.Forall₂ p xs ys)
    (hyz : List.Forall₂ p ys zs) : List.Forall₂ p xs zs := by
  induction hxy generalizing zs with
  | nil => exact hyz
  | cons h _ ih =>
    cases hyz with
    | cons h' hrest =>
      exact .cons (hp _ List.mem_cons_self _ _ h h')
        (ih (fun x hx ↦ hp x (List.mem_cons_of_mem _ hx)) hrest)

theorem FieldType.equal_trans (t : FieldType) :
    ∀ u v : FieldType, t.equal u = true → u.equal v = true → t.equal v = true := by
  induction t using FieldType.induction with
  | scalar t hs ih =>
    intro u v htu huv
    cases t with
    | str | bool | any | enum =>
      simp only [equal_str_iff, equal_bool_iff, equal_any_iff, equal_enum_iff] at htu
      exact htu ▸ huv
    | int r =>
      obtain ⟨s, hrs, rfl⟩ := equal_int_iff.mp htu
      obtain ⟨q, hsq, rfl⟩ := equal_int_iff.mp huv
      exact equal_int_iff.mpr ⟨q, Range.equal_trans hrs hsq, rfl⟩
    | num r =>
      obtain ⟨s, hrs, rfl⟩ := equal_num_iff.mp htu
      obtain ⟨q, hsq, rfl⟩ := equal_num_iff.mp huv
      exact equal_num_iff.mpr ⟨q, Range.equal_trans hrs hsq, rfl⟩
    | union ts =>
      obtain ⟨us, htus, rfl⟩ := equal_union_iff.mp htu
      obtain ⟨vs, huvs, rfl⟩ := equal_union_iff.mp huv
      exact equal_union_iff.mpr ⟨vs, forall₂_trans_of_mem ih htus huvs, rfl⟩
    | record | seq | map => simp [isScalar] at hs
  | record s ih =>
    intro u v htu huv
    obtain ⟨t, hst, rfl⟩ := equal_record_iff.mp htu
    obtain ⟨q, htq, rfl⟩ := equal_record_iff.mp huv
    obtain ⟨hn, hd, hf⟩ := Schema.equal_iff.mp hst
    obtain ⟨hn', hd', hf'⟩ := Schema.equal_iff.mp htq
    refine equal_record_iff.mpr ⟨q, Schema.equal_iff.mpr ⟨hn.trans hn', hd.trans hd', ?_⟩, rfl⟩
    refine forall₂_trans_of_mem ?_ hf hf'
    intro f hm g h hfg hgh
    exact ⟨hfg.name.trans hgh.name, hfg.wireKey.trans hgh.wireKey,
      ih f hm _ _ hfg.type hgh.type, hfg.required.trans hgh.required,
      hfg.nullable.trans hgh.nullable, hfg.description.trans hgh.description⟩
  | seq items limits ih =>
    intro u v htu huv
    obtain ⟨t, hit, rfl⟩ := equal_seq_iff.mp htu
    obtain ⟨q, htq, rfl⟩ := equal_seq_iff.mp huv
    exact equal_seq_iff.mpr ⟨q, ih t q hit htq, rfl⟩
  | map values ih =>
    intro u v htu huv
    obtain ⟨t, hvt, rfl⟩ := equal_map_iff.mp htu
    obtain ⟨q, htq, rfl⟩ := equal_map_iff.mp huv
    exact equal_map_iff.mpr ⟨q, ih t q hvt htq, rfl⟩

theorem Schema.equal_trans {s t u : Schema} (hst : s.equal t = true) (htu : t.equal u = true) :
    s.equal u = true := by
  obtain ⟨v, hv, he⟩ := FieldType.equal_record_iff.mp
    (FieldType.equal_trans (.record s) (.record t) (.record u) (by simpa only [FieldType.equal])
      (by simpa only [FieldType.equal]))
  cases he
  exact hv

end Transitivity

section Reflexivity

mutual

def FieldType.nanFree : FieldType → Bool
  | .int range | .num range => range.nanFree
  | .union members => FieldType.nanFreeAll members
  | .record schema => schema.nanFree
  | .seq items _ => items.nanFree
  | .map values => values.nanFree
  | .str _ | .bool | .any | .enum _ => true

def FieldType.nanFreeAll : List FieldType → Bool
  | [] => true
  | t :: rest => t.nanFree && FieldType.nanFreeAll rest

def Schema.nanFree : Schema → Bool
  | ⟨_, _, _, fields⟩ => Field.nanFreeAll fields

def Field.nanFreeAll : List Field → Bool
  | [] => true
  | f :: rest => f.nanFree && Field.nanFreeAll rest

def Field.nanFree : Field → Bool
  | ⟨_, _, type, _, _, _⟩ => type.nanFree

end

theorem FieldType.nanFreeAll_iff {ts : List FieldType} :
    FieldType.nanFreeAll ts = true ↔ ∀ t ∈ ts, t.nanFree = true := by
  induction ts with
  | nil => simp [FieldType.nanFreeAll]
  | cons t ts ih => simp [FieldType.nanFreeAll, ih]

theorem Field.nanFreeAll_iff {fs : List Field} :
    Field.nanFreeAll fs = true ↔ ∀ f ∈ fs, f.type.nanFree = true := by
  induction fs with
  | nil => simp [Field.nanFreeAll]
  | cons f fs ih =>
    cases f
    simp [Field.nanFreeAll, Field.nanFree, ih]

theorem Schema.nanFree_iff {s : Schema} :
    s.nanFree = true ↔ ∀ f ∈ s.fields, f.type.nanFree = true := by
  cases s
  exact Field.nanFreeAll_iff

theorem FieldType.equal_self (t : FieldType) : t.nanFree = true → t.equal t = true := by
  induction t using FieldType.induction with
  | scalar t hs ih =>
    intro hn
    cases t with
    | str | bool | any | enum => simp [equal]
    | int r => exact equal_int_iff.mpr ⟨r, Range.equal_self hn, rfl⟩
    | num r => exact equal_num_iff.mpr ⟨r, Range.equal_self hn, rfl⟩
    | union ts =>
      have hts := nanFreeAll_iff.mp hn
      exact equal_union_iff.mpr ⟨ts, List.forall₂_same.mpr fun t ht ↦ ih t ht (hts t ht), rfl⟩
    | record | seq | map => simp [isScalar] at hs
  | record s ih =>
    intro hn
    have hf := Schema.nanFree_iff.mp hn
    refine equal_record_iff.mpr ⟨s, Schema.equal_iff.mpr ⟨rfl, rfl, ?_⟩, rfl⟩
    exact List.forall₂_same.mpr fun f hm ↦ ⟨rfl, rfl, ih f hm (hf f hm), rfl, rfl, rfl⟩
  | seq items limits ih =>
    intro hn
    exact equal_seq_iff.mpr ⟨items, ih hn, rfl⟩
  | map values ih =>
    intro hn
    exact equal_map_iff.mpr ⟨values, ih hn, rfl⟩

theorem Schema.equal_self {s : Schema} (h : s.nanFree = true) : s.equal s = true := by
  have hr := FieldType.equal_self (.record s) (by simpa only [FieldType.nanFree])
  simpa only [FieldType.equal] using hr

end Reflexivity

end TypedRecord
