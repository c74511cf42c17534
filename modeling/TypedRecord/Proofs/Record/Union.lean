import TypedRecord.Proofs.Record.Refusal
import TypedRecord.Proofs.Record.Tracking
import TypedRecord.Proofs.Schema.Integrity

namespace TypedRecord

open Located

namespace FieldType

def FailsByBound (rule : KeyRule) (p : Path) (json : Json) (t : FieldType) : Prop :=
  ∃ e, t.checkAt rule p json = .error e ∧ e.cause.isConstraint = true

variable {rule : KeyRule} {p : Path} {json : Json} {v : Value} {e : ValidationError}
  {t : FieldType} {members : List FieldType}

theorem failsByBound_iff :
    t.FailsByBound rule p json ↔ ∃ e, boundError? (t.check rule json) = some e := by
  simp only [FailsByBound, checkAt_eq, beneath_eq_error, boundError?_eq_some_iff]
  constructor
  · rintro ⟨_, ⟨e, he, rfl⟩, hc⟩
    exact ⟨e, he, hc⟩
  · rintro ⟨e, he, hc⟩
    exact ⟨_, ⟨e, he, rfl⟩, hc⟩

theorem not_failsByBound_iff :
    ¬ t.FailsByBound rule p json ↔ boundError? (t.check rule json) = none := by
  rw [failsByBound_iff, ← Option.isSome_iff_exists, Option.not_isSome_iff_eq_none]

theorem check_primitive_eq_ok (ht : t.isPrimitive = true) :
    t.check rule json = .ok v ↔ t.Admits json ∧ v = .scalar json := by
  rw [check, refuseNull_eq_ok, accept_primitive_eq_ok ht]
  constructor
  · exact fun h ↦ h.2
  · exact fun h ↦ ⟨h.1.ne_null, h⟩

theorem check_union_eq_ok (hm : ∀ t ∈ members, t.isPrimitive = true) :
    (union members).check rule json = .ok v ↔
      (∃ t ∈ members, t.Admits json) ∧ v = .scalar json := by
  rw [check, refuseNull_eq_ok, accept, ofMembers_eq_ok, acceptAny_eq_ok hm]
  constructor
  · exact fun h ↦ h.2
  · exact fun h ↦ ⟨h.1.elim fun t ht ↦ ht.2.ne_null, h⟩

theorem primitive_of_flawless (h : (union members).flaw? = none) :
    ∀ t ∈ members, t.isPrimitive = true := by
  cases flaw?_eq_none_iff.mp h with
  | union _ hp => exact hp

/-- The first member that fails by a bound is heard, at the place of the union; a type is wrong only
if no member fails by a bound. -/
theorem checkAt_union_eq_error (hm : ∀ t ∈ members, t.isPrimitive = true) (hj : json ≠ .null)
    (h : (union members).checkAt rule p json = .error e) :
    (∃ before t after b, members = before ++ t :: after ∧
      (∀ u ∈ before, ¬ u.FailsByBound rule p json) ∧
      t.checkAt rule p json = .error ⟨p, .outOfBounds b⟩ ∧ e = ⟨p, .outOfBounds b⟩) ∨
    (∀ t ∈ members, ¬ t.FailsByBound rule p json) ∧
      e = ⟨p, .wrongType .union (.json json.kind)⟩ := by
  have hcheck : ∀ t : FieldType, t.check rule json = t.accept rule json :=
    fun t ↦ refuseNull_of_ne_null hj
  rw [checkAt_eq, hcheck, beneath_eq_error] at h
  obtain ⟨e, he, rfl⟩ := h
  simp only [not_failsByBound_iff, hcheck]
  obtain hfirst | ⟨hnone, rfl⟩ := accept_union_eq_error he
  · obtain ⟨before, t, after, rfl, ht, hbefore⟩ := List.findSome?_eq_some_iff.mp hfirst
    obtain ⟨hr, hc⟩ := boundError?_eq_some_iff.mp ht
    -- a primitive member has no parts, so it fails where the union is
    obtain rfl | ⟨b, -, rfl⟩ := accept_primitive_eq_error (hm t (by simp)) hr
    · cases hc
    · refine .inl ⟨before, t, after, b, rfl, hbefore, ?_, placedAt_root _⟩
      rw [checkAt_eq, hcheck, hr]
      exact beneath_here _
  · exact .inr ⟨List.findSome?_eq_none_iff.mp hnone, placedAt_root _⟩

/-- A union accepts what any member accepts, and the outcome depends neither on the order of the
members nor on repetitions; further members refuse nothing. Only errors tell the members apart. -/
theorem union_disjunctive (h : (union members).flaw? = none) (rule : KeyRule) (p : Path)
    (json : Json) :
    ((∃ v, (union members).checkAt rule p json = .ok v) ↔
      json ≠ .null ∧ ∃ t ∈ members, ∃ v, t.checkAt rule p json = .ok v) ∧
    (∀ v, (union members).checkAt rule p json = .ok v → v = .scalar json) ∧
    (∀ others, (∀ t, t ∈ others ↔ t ∈ members) → ∀ v,
      (union others).checkAt rule p json = .ok v ↔ (union members).checkAt rule p json = .ok v) ∧
    (∀ more, (union more).flaw? = none → members ⊆ more → ∀ v,
      (union members).checkAt rule p json = .ok v → (union more).checkAt rule p json = .ok v) ∧
    ∀ e, json ≠ .null → (union members).checkAt rule p json = .error e →
      (∃ before t after b, members = before ++ t :: after ∧
        (∀ u ∈ before, ¬ u.FailsByBound rule p json) ∧
        t.checkAt rule p json = .error ⟨p, .outOfBounds b⟩ ∧ e = ⟨p, .outOfBounds b⟩) ∨
      (∀ t ∈ members, ¬ t.FailsByBound rule p json) ∧
        e = ⟨p, .wrongType .union (.json json.kind)⟩ := by
  have hm := primitive_of_flawless h
  simp only [checkAt_eq, beneath_eq_ok]
  refine ⟨?_, fun v hv ↦ ((check_union_eq_ok hm).mp hv).2, fun others ho v ↦ ?_,
    fun more hmore hsub v hv ↦ ?_, fun e hj he ↦ ?_⟩
  · constructor
    · rintro ⟨v, hv⟩
      obtain ⟨⟨t, ht, ha⟩, -⟩ := (check_union_eq_ok hm).mp hv
      exact ⟨ha.ne_null, t, ht, _, (check_primitive_eq_ok (hm t ht)).mpr ⟨ha, rfl⟩⟩
    · rintro ⟨-, t, ht, v, hv⟩
      have ha := ((check_primitive_eq_ok (hm t ht)).mp hv).1
      exact ⟨_, (check_union_eq_ok hm).mpr ⟨⟨t, ht, ha⟩, rfl⟩⟩
  · rw [check_union_eq_ok hm, check_union_eq_ok fun t ht ↦ hm t ((ho t).mp ht)]
    simp only [ho]
  · obtain ⟨⟨t, ht, ha⟩, rfl⟩ := (check_union_eq_ok hm).mp hv
    exact (check_union_eq_ok (primitive_of_flawless hmore)).mpr ⟨⟨t, hsub ht, ha⟩, rfl⟩
  · rw [← checkAt_eq] at he
    simpa only [checkAt_eq] using checkAt_union_eq_error hm hj he

def label : List FieldType :=
  [.num {}, .str { min := some 3 }, .enum ⟨"Size", ["S", "L"]⟩, .str { min := some 2 }]

/-- The first of the two lengths is heard. The number before them and the size between them are not,
but the size is accepted, also where the members stand in reverse. -/
theorem label_disjunctive :
    (union label).flaw? = none ∧
    (union label.reverse).checkAt .names .root (.str "L") = .ok (.scalar (.str "L")) ∧
    ∃ before t after b, label = before ++ t :: after ∧
      (∀ u ∈ before, ¬ u.FailsByBound .names .root (.str "M")) ∧
      t.checkAt .names .root (.str "M") = .error ⟨.root, .outOfBounds b⟩ ∧
      (union label).checkAt .names .root (.str "M") = .error ⟨.root, .outOfBounds b⟩ := by
  have hlabel : (union label).flaw? = none := rfl
  refine ⟨hlabel, ?_, ?_⟩
  · obtain ⟨-, -, horder, -, -⟩ := union_disjunctive hlabel .names .root (.str "L")
    exact (horder _ (fun t ↦ List.mem_reverse) _).mpr rfl
  · obtain ⟨-, -, -, -, herror⟩ := union_disjunctive hlabel .names .root (.str "M")
    have hm : (union label).checkAt .names .root (.str "M") =
        .error ⟨.root, .outOfBounds (.tooShort .string 1 3)⟩ := rfl
    obtain ⟨before, t, after, b, hsplit, hbefore, ht, he⟩ | ⟨-, he⟩ := herror _ nofun hm
    · exact ⟨before, t, after, b, hsplit, hbefore, ht, he ▸ hm⟩
    · cases he

end FieldType

end TypedRecord
