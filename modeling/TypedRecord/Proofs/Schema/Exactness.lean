import TypedRecord.Proofs.Binary64.Exact
import TypedRecord.Proofs.Schema.Keywords

namespace TypedRecord

open Binary64

/-- The exact number satisfies every bound that is finite. -/
structure Range.Holds (r : Range) (q : ℚ) : Prop where
  gt : ∀ b, r.gt = some (.finite b) → b.value < q
  gte : ∀ b, r.gte = some (.finite b) → b.value ≤ q
  lt : ∀ b, r.lt = some (.finite b) → q < b.value
  lte : ∀ b, r.lte = some (.finite b) → q ≤ b.value

def Range.HasBound (r : Range) (x : Binary64) : Prop := some x ∈ [r.gt, r.gte, r.lt, r.lte]

/-- The integer is rounded to the bound, though the two differ. -/
def Binary64.Finite.MistakenFor (b : Finite) (n : ℤ) : Prop :=
  (ofInt n).Denotes b.value ∧ b.value ≠ n

/-- The integer satisfies the bounds, except that one it is mistaken for counts as equal to it. -/
structure Range.Meets (r : Range) (n : ℤ) : Prop where
  gt : ∀ b, r.gt = some (.finite b) → b.value < n ∧ ¬ b.MistakenFor n
  gte : ∀ b, r.gte = some (.finite b) → b.value ≤ n ∨ b.MistakenFor n
  lt : ∀ b, r.lt = some (.finite b) → n < b.value ∧ ¬ b.MistakenFor n
  lte : ∀ b, r.lte = some (.finite b) → n ≤ b.value ∨ b.MistakenFor n

namespace Binary64.Finite

variable {b f : Finite} {n : ℤ}

theorem mistakenFor_iff (hf : ofInt n = .finite f) :
    b.MistakenFor n ↔ f.value = b.value ∧ b.value ≠ n := by
  refine and_congr_left fun _ ↦ ?_
  rw [hf]
  constructor
  · exact fun h ↦ (denotes_finite f).unique h
  · exact fun h ↦ h ▸ denotes_finite f

variable (hf : ofInt n = .finite f) (h : f.Adjoins n)

include hf h

theorem value_lt_rounded_iff : b.value < f.value ↔ b.value < n ∧ ¬ b.MistakenFor n := by
  rw [h.lt_iff, mistakenFor_iff hf]
  exact and_congr_right fun hlt ↦ by simp [hlt.ne]

theorem rounded_lt_value_iff : f.value < b.value ↔ n < b.value ∧ ¬ b.MistakenFor n := by
  rw [h.gt_iff, mistakenFor_iff hf]
  exact and_congr_right fun hlt ↦ by simp [hlt.ne']

theorem value_le_rounded_iff : b.value ≤ f.value ↔ b.value ≤ n ∨ b.MistakenFor n := by
  rw [← not_lt, rounded_lt_value_iff hf h, not_and_or, not_not, not_lt]

theorem rounded_le_value_iff : f.value ≤ b.value ↔ n ≤ b.value ∨ b.MistakenFor n := by
  rw [← not_lt, value_lt_rounded_iff hf h, not_and_or, not_not, not_lt]

end Binary64.Finite

namespace Range

variable {r : Range} {n : ℤ} {q : ℚ}

theorem isFinite_iff : r.isFinite = true ↔ ∀ x, r.HasBound x → ∃ b, x = .finite b := by
  have hfinite : ∀ x : Binary64, x.isFinite = true ↔ ∃ b, x = .finite b := by
    intro x
    cases x <;> simp [Binary64.isFinite]
  simp only [isFinite, HasBound, List.all_eq_true, Option.all_eq_true, hfinite]
  constructor
  · exact fun h x hx ↦ h _ hx x rfl
  · rintro h _ hb x rfl
    exact h x hb

theorem forall_bound_iff (hr : r.isFinite = true) {limit : Option Binary64}
    (hl : limit ∈ [r.gt, r.gte, r.lt, r.lte]) {p : Binary64 → Prop} {p' : Finite → Prop}
    (h : ∀ b, p (.finite b) ↔ p' b) :
    (∀ x, limit = some x → p x) ↔ ∀ b, limit = some (.finite b) → p' b := by
  constructor
  · exact fun hp b hb ↦ (h b).mp (hp _ hb)
  · rintro hp x rfl
    obtain ⟨b, rfl⟩ := isFinite_iff.mp hr x hl
    exact (h b).mpr (hp b rfl)

/-- Finite bounds allow a number if they hold for its rounded value. -/
theorem allows_iff_holds (hr : r.isFinite = true) {m : Json.Number}
    (hm : m.toBinary64.Denotes q) : r.Allows m ↔ r.Holds q := by
  have hle : ∀ b : Finite, m.toBinary64.le (.finite b) = false ↔ b.value < q := by
    intro b
    rw [← Bool.not_eq_true, hm.le_iff (denotes_finite b), not_le]
  have hlt : ∀ b : Finite, m.toBinary64.lt (.finite b) = false ↔ b.value ≤ q := by
    intro b
    rw [← Bool.not_eq_true, hm.lt_iff (denotes_finite b), not_lt]
  have hge : ∀ b : Finite, Binary64.le (.finite b) m.toBinary64 = false ↔ q < b.value := by
    intro b
    rw [← Bool.not_eq_true, (denotes_finite b).le_iff hm, not_le]
  have hgt : ∀ b : Finite, Binary64.lt (.finite b) m.toBinary64 = false ↔ q ≤ b.value := by
    intro b
    rw [← Bool.not_eq_true, (denotes_finite b).lt_iff hm, not_lt]
  constructor
  · intro h
    exact ⟨(forall_bound_iff hr (by simp) hle).mp h.gt,
      (forall_bound_iff hr (by simp) hlt).mp h.gte,
      (forall_bound_iff hr (by simp) hge).mp h.lt, (forall_bound_iff hr (by simp) hgt).mp h.lte⟩
  · intro h
    exact ⟨(forall_bound_iff hr (by simp) hle).mpr h.gt,
      (forall_bound_iff hr (by simp) hlt).mpr h.gte,
      (forall_bound_iff hr (by simp) hge).mpr h.lt, (forall_bound_iff hr (by simp) hgt).mpr h.lte⟩

theorem holds_gt_iff {x : Binary64} {p : ℚ} (hx : x.Denotes p) :
    Range.Holds { gt := some x } q ↔ p < q := by
  obtain ⟨b, rfl, rfl⟩ := hx
  constructor
  · exact fun h ↦ h.gt b rfl
  · exact fun h ↦ ⟨by simpa using h, by simp, by simp, by simp⟩

theorem holds_lte_iff {x : Binary64} {p : ℚ} (hx : x.Denotes p) :
    Range.Holds { lte := some x } q ↔ q ≤ p := by
  obtain ⟨b, rfl, rfl⟩ := hx
  constructor
  · exact fun h ↦ h.lte b rfl
  · exact fun h ↦ ⟨by simp, by simp, by simp, by simpa using h⟩

theorem holds_rounded_iff {f : Finite} (hf : ofInt n = .finite f) (h : f.Adjoins n) :
    r.Holds f.value ↔ r.Meets n := by
  constructor
  · intro hr
    exact ⟨fun b hb ↦ (Finite.value_lt_rounded_iff hf h).mp (hr.gt b hb),
      fun b hb ↦ (Finite.value_le_rounded_iff hf h).mp (hr.gte b hb),
      fun b hb ↦ (Finite.rounded_lt_value_iff hf h).mp (hr.lt b hb),
      fun b hb ↦ (Finite.rounded_le_value_iff hf h).mp (hr.lte b hb)⟩
  · intro hr
    exact ⟨fun b hb ↦ (Finite.value_lt_rounded_iff hf h).mpr (hr.gt b hb),
      fun b hb ↦ (Finite.value_le_rounded_iff hf h).mpr (hr.gte b hb),
      fun b hb ↦ (Finite.rounded_lt_value_iff hf h).mpr (hr.lt b hb),
      fun b hb ↦ (Finite.rounded_le_value_iff hf h).mpr (hr.lte b hb)⟩

theorem meets_iff_holds (h : ∀ b, r.HasBound (.finite b) → ¬ b.MistakenFor n) :
    r.Meets n ↔ r.Holds n := by
  constructor
  · intro hr
    exact ⟨fun b hb ↦ (hr.gt b hb).1,
      fun b hb ↦ (hr.gte b hb).resolve_right (h b (by simp [HasBound, hb])),
      fun b hb ↦ (hr.lt b hb).1,
      fun b hb ↦ (hr.lte b hb).resolve_right (h b (by simp [HasBound, hb]))⟩
  · intro hr
    exact ⟨fun b hb ↦ ⟨hr.gt b hb, h b (by simp [HasBound, hb])⟩, fun b hb ↦ .inl (hr.gte b hb),
      fun b hb ↦ ⟨hr.lt b hb, h b (by simp [HasBound, hb])⟩, fun b hb ↦ .inl (hr.lte b hb)⟩

end Range

/-- Integers of at most 53 bits are not rounded. -/
theorem Binary64.Finite.not_mistakenFor {b : Finite} {n : ℤ} (hn : |n| ≤ 2 ^ 53) :
    ¬ b.MistakenFor n :=
  fun h ↦ h.2 (h.1.unique (denotes_ofInt hn))

theorem Binary64.within_word {n : ℤ} (hlow : leastInt64 ≤ n) (hhigh : n < wordCount) :
    Within n := by
  apply within_of_abs_le_two_pow (j := 64) (by decide)
  rw [← Int.cast_abs]
  simp only [leastInt64, wordCount, Nat.pow_eq] at hlow hhigh
  have h : |n| ≤ 2 ^ 64 := by
    rw [abs_le]
    omega
  exact_mod_cast h

namespace FieldType

variable {r : Range} {n : ℤ}

theorem check_int_iff_allows {rule : KeyRule} :
    (∃ v, (int r).check rule (.num (.int n)) = .ok v) ↔ r.Allows (.int n) := by
  simp [check, refuseNull, accept, Range.acceptInt, guardBreach_eq_ok, Range.breach?_eq_none_iff]

/-- A 64-bit integer is accepted if it satisfies the finite bounds, where one that it is mistaken
for counts as equal to it. So the check is exact unless the integer is rounded to a bound, and
always for integers of at most 53 bits. -/
theorem check_int_iff (hr : r.isFinite = true) (hlow : leastInt64 ≤ n) (hhigh : n < wordCount)
    (rule : KeyRule) :
    ((∃ v, (int r).check rule (.num (.int n)) = .ok v) ↔ r.Meets n) ∧
    ((∀ b, r.HasBound (.finite b) → ¬ b.MistakenFor n) →
      ((∃ v, (int r).check rule (.num (.int n)) = .ok v) ↔ r.Holds n)) ∧
    (|n| ≤ 2 ^ 53 → ((∃ v, (int r).check rule (.num (.int n)) = .ok v) ↔ r.Holds n)) := by
  obtain ⟨f, hf, hadjoins⟩ := rounds_ofInt (within_word hlow hhigh)
  have hm : (Json.Number.int n).toBinary64.Denotes f.value := ⟨f, hf, rfl⟩
  have hmeets : (∃ v, (int r).check rule (.num (.int n)) = .ok v) ↔ r.Meets n := by
    rw [check_int_iff_allows, Range.allows_iff_holds hr hm, Range.holds_rounded_iff hf hadjoins]
  refine ⟨hmeets, fun h ↦ ?_, fun hn ↦ ?_⟩
  · rw [hmeets, Range.meets_iff_holds h]
  · rw [hmeets, Range.meets_iff_holds fun b _ ↦ Finite.not_mistakenFor hn]

def brink : Binary64 := 9007199254740992

theorem denotes_brink : brink.Denotes (2 ^ 53) := by
  have h := denotes_ofInt (n := 2 ^ 53) (by decide)
  exact_mod_cast h

theorem ofInt_above_brink : ofInt 9007199254740993 = brink := by decide +kernel

/-- An integer above the bound is refused, with a message that contradicts itself; the same integer
is accepted where it should not be above. -/
theorem check_int_inexact :
    let above : Range := { gt := some brink }
    let upTo : Range := { lte := some brink }
    (above.flaw? = none ∧ above.isFinite = true ∧ above.Holds (9007199254740993 : ℤ) ∧
      (int above).check .names (.num (.int 9007199254740993)) =
        Located.here (.outOfBounds (.value .gt brink (.int 9007199254740993)))) ∧
    upTo.flaw? = none ∧ upTo.isFinite = true ∧ ¬ upTo.Holds (9007199254740993 : ℤ) ∧
      (int upTo).check .names (.num (.int 9007199254740993)) =
        .ok (.scalar (.num (.int 9007199254740993))) := by
  have hle : brink.le brink = true := by decide +kernel
  have hlt : brink.lt brink = false := by decide +kernel
  refine ⟨⟨rfl, by decide +kernel, ?_, ?_⟩, rfl, by decide +kernel, ?_, ?_⟩
  · rw [Range.holds_gt_iff denotes_brink]
    norm_num
  · simp [check, refuseNull, accept, Range.acceptInt, Range.breach?, Json.Number.toBinary64,
      ofInt_above_brink, Option.filter, guardBreach, hle]
  · rw [Range.holds_lte_iff denotes_brink]
    norm_num
  · simp [check, refuseNull, accept, Range.acceptInt, Range.breach?, Json.Number.toBinary64,
      ofInt_above_brink, Option.filter, guardBreach, hlt]

/-- Up to the bound the check is exact; the first integer above it is mistaken for the bound. -/
theorem check_int_around_brink :
    let above : Range := { gt := some brink }
    (¬ ∃ v, (int above).check .names (.num (.int 9007199254740992)) = .ok v) ∧
    ¬ ∃ v, (int above).check .names (.num (.int 9007199254740993)) = .ok v := by
  intro above
  have hr : above.isFinite = true := by decide +kernel
  refine ⟨?_, ?_⟩
  · rw [(check_int_iff hr (by decide) (by decide) .names).2.2 (by decide),
      Range.holds_gt_iff denotes_brink]
    norm_num
  · rw [(check_int_iff hr (by decide) (by decide) .names).1]
    intro h
    obtain ⟨b, hb, hv⟩ := denotes_brink
    refine (h.gt b (by rw [← hb])).2 ⟨?_, ?_⟩
    · rw [hv, ofInt_above_brink]
      exact denotes_brink
    · rw [hv]
      norm_num

end FieldType

end TypedRecord
