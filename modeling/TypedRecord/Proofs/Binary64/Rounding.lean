import Mathlib.Algebra.Order.Field.Basic
import Mathlib.Algebra.Order.Ring.Rat
import Mathlib.Data.Nat.Log
import Mathlib.Tactic.Linarith
import Mathlib.Tactic.Ring
import TypedRecord.Binary64

namespace TypedRecord.Binary64

theorem two_pow_pos (n : ℕ) : 0 < Nat.pow 2 n := Nat.two_pow_pos n

theorem two_pow_lt {m n : ℕ} (h : m < n) : 2 ^ m < Nat.pow 2 n :=
  Nat.pow_lt_pow_right (by decide) h

theorem unitsPerOne_pos : 0 < unitsPerOne := by
  unfold unitsPerOne
  apply two_pow_pos

theorem cast_unitsPerOne_pos : (0 : ℚ) < unitsPerOne := Nat.cast_pos.mpr unitsPerOne_pos

theorem inUnits_nonneg (n : ℕ) : (0 : ℚ) ≤ n / unitsPerOne :=
  div_nonneg (Nat.cast_nonneg n) cast_unitsPerOne_pos.le

theorem inUnits_mono {m n : ℕ} (h : m ≤ n) : (m : ℚ) / unitsPerOne ≤ n / unitsPerOne :=
  div_le_div_of_nonneg_right (Nat.cast_le.mpr h) cast_unitsPerOne_pos.le

theorem quotient_nonneg (num den : ℕ) : (0 : ℚ) ≤ num / (den * unitsPerOne) :=
  div_nonneg (Nat.cast_nonneg num) (mul_nonneg (Nat.cast_nonneg den) cast_unitsPerOne_pos.le)

section

variable {num den m n : ℕ}

theorem halfEven_le_of_le (hd : 0 < den) (h : num ≤ m * den) : halfEven num den ≤ m := by
  have hq : num / den ≤ m := Nat.div_le_of_le_mul (by rwa [Nat.mul_comm])
  obtain hq | hq := Nat.lt_or_eq_of_le hq
  · exact (halfEven_le num den).trans hq
  · -- nothing is left over
    have hr : num % den = 0 := by
      have hnum := Nat.div_add_mod num den
      rw [hq, Nat.mul_comm] at hnum
      omega
    rw [halfEven, if_pos (.inl (by omega))]
    omega

theorem le_halfEven_of_le (hd : 0 < den) (h : m * den ≤ num) : m ≤ halfEven num den :=
  ((Nat.le_div_iff_mul_le hd).mpr h).trans (le_halfEven num den)

theorem log2_mono (h : m ≤ n) : m.log2 ≤ n.log2 := by
  rw [Nat.log2_eq_log_two, Nat.log2_eq_log_two]
  exact Nat.log_mono_right h

theorem spacing_dvd_spacing (h : m.log2 ≤ n.log2) : spacing m ∣ spacing n :=
  Nat.pow_dvd_pow 2 (Nat.sub_le_sub_right h 52)

theorem nearest_le (hd : 0 < den) (hm : Representable m) (h : num ≤ m * den) :
    nearest num den ≤ m := by
  have hq : num / den ≤ m := Nat.div_le_of_le_mul (by rwa [Nat.mul_comm])
  obtain ⟨k, hk⟩ := (spacing_dvd_spacing (log2_mono hq)).trans hm.2
  have hle : halfEven num (den * spacing (num / den)) ≤ k := by
    apply halfEven_le_of_le (Nat.mul_pos hd (spacing_pos _))
    calc num ≤ m * den := h
      _ = k * (den * spacing (num / den)) := by rw [hk]; ring
  calc nearest num den ≤ k * spacing (num / den) := Nat.mul_le_mul_right _ hle
    _ = m := by rw [hk, Nat.mul_comm]

/-- Between a magnitude and a larger number there is one of the number's own spacing. -/
theorem exists_spaced (hm : Representable m) (h : m ≤ n) :
    ∃ k, m ≤ k * spacing n ∧ k * spacing n ≤ n := by
  by_cases hlog : n.log2 ≤ m.log2
  · obtain ⟨k, hk⟩ := (spacing_dvd_spacing hlog).trans hm.2
    rw [Nat.mul_comm] at hk
    exact ⟨k, hk.le, hk ▸ h⟩
  · have hpow : 2 ^ n.log2 ≤ n := Nat.log2_self_le (by rintro rfl; simp at hlog)
    have hlt : m < 2 ^ n.log2 :=
      Nat.lt_of_lt_of_le Nat.lt_log2_self (Nat.pow_le_pow_right (by decide) (by omega))
    obtain h52 | h52 := Nat.lt_or_ge n.log2 52
    · have hone : spacing n = 1 := by
        rw [spacing, Nat.sub_eq_zero_of_le h52.le]
      exact ⟨m, by rw [hone, Nat.mul_one], by rwa [hone, Nat.mul_one]⟩
    · have hk : 2 ^ 52 * spacing n = 2 ^ n.log2 := by
        rw [spacing, Nat.pow_eq, ← Nat.pow_add, Nat.add_sub_cancel' h52]
      exact ⟨2 ^ 52, hk ▸ hlt.le, hk ▸ hpow⟩

theorem le_nearest (hd : 0 < den) (hm : Representable m) (h : m * den ≤ num) :
    m ≤ nearest num den := by
  obtain ⟨k, hmk, hk⟩ := exists_spaced hm ((Nat.le_div_iff_mul_le hd).mpr h)
  have hle : k ≤ halfEven num (den * spacing (num / den)) := by
    apply le_halfEven_of_le (Nat.mul_pos hd (spacing_pos _))
    calc k * (den * spacing (num / den)) = k * spacing (num / den) * den := by ring
      _ ≤ num / den * den := Nat.mul_le_mul_right _ hk
      _ ≤ num := Nat.div_mul_le_self num den
  exact hmk.trans (Nat.mul_le_mul_right _ hle)

theorem representable_mul {k e : ℕ} (hk : k ≤ 2 ^ 53) (he : e ≤ 2044) :
    Representable (k * 2 ^ e) := by
  refine ⟨?_, spacing_dvd_of_le hk⟩
  have hle : k * 2 ^ e ≤ 2 ^ (53 + e) := by
    rw [Nat.pow_add]
    exact Nat.mul_le_mul_right _ hk
  apply Nat.lt_of_le_of_lt hle
  unfold overflow
  apply two_pow_lt
  omega

end

def Finite.value (x : Finite) : ℚ := x.units / unitsPerOne

def signed (negative : Bool) (q : ℚ) : ℚ := if negative then -q else q

theorem signed_false (q : ℚ) : signed false q = q := rfl

theorem signed_true (q : ℚ) : signed true q = -q := rfl

theorem signed_not (negative : Bool) (q : ℚ) : signed (!negative) q = -signed negative q := by
  cases negative <;> simp [signed]

theorem signed_mul_signed (a b : Bool) (p q : ℚ) :
    signed a p * signed b q = signed (a ^^ b) (p * q) := by
  cases a <;> cases b <;> simp [signed]

def Finite.opposite (x : Finite) : Finite := { x with negative := !x.negative }

namespace Finite

variable {x y : Finite} {p q : ℚ}

theorem value_eq_signed (x : Finite) :
    x.value = signed x.negative (x.magnitude / unitsPerOne) := by
  rw [value, units, signed]
  split
  · rw [Int.cast_neg, Int.cast_natCast, neg_div]
  · rw [Int.cast_natCast]

theorem value_mk_false {m : ℕ} (h : Representable m) :
    Finite.value ⟨false, m, h⟩ = m / unitsPerOne :=
  value_eq_signed _

theorem value_opposite (x : Finite) : x.opposite.value = -x.value := by
  rw [value_eq_signed, value_eq_signed]
  exact signed_not _ _

theorem value_lt_iff : x.value < y.value ↔ x.units < y.units := by
  rw [value, value, div_lt_div_iff_of_pos_right cast_unitsPerOne_pos, Int.cast_lt]

theorem value_le_iff : x.value ≤ y.value ↔ x.units ≤ y.units := by
  rw [value, value, div_le_div_iff_of_pos_right cast_unitsPerOne_pos, Int.cast_le]

/-- No finite number lies strictly between the two. -/
structure Adjoins (x : Finite) (q : ℚ) : Prop where
  lower : ∀ y : Finite, y.value ≤ q → y.value ≤ x.value
  upper : ∀ y : Finite, q ≤ y.value → x.value ≤ y.value

namespace Adjoins

theorem of_value_eq (h : x.value = q) : x.Adjoins q :=
  ⟨fun _ hy ↦ h ▸ hy, fun _ hy ↦ h ▸ hy⟩

theorem opposite (h : x.Adjoins q) : x.opposite.Adjoins (-q) := by
  refine ⟨fun y hy ↦ ?_, fun y hy ↦ ?_⟩
  · have hle := h.upper y.opposite (by rw [value_opposite]; linarith)
    rw [value_opposite] at hle ⊢
    linarith
  · have hle := h.lower y.opposite (by rw [value_opposite]; linarith)
    rw [value_opposite] at hle ⊢
    linarith

theorem value_eq (h : x.Adjoins q) (hy : y.value = q) : x.value = q := by
  apply le_antisymm
  · exact hy ▸ h.upper y hy.ge
  · exact hy ▸ h.lower y hy.le

/-- A finite number on one side of `q` is on the same side of the nearest one, or is that one. -/
theorem lt_iff (h : x.Adjoins q) : y.value < x.value ↔ y.value < q ∧ x.value ≠ y.value := by
  constructor
  · intro hlt
    exact ⟨lt_of_not_ge fun hq ↦ hlt.not_ge (h.upper y hq), hlt.ne'⟩
  · intro hq
    exact lt_of_le_of_ne (h.lower y hq.1.le) hq.2.symm

theorem gt_iff (h : x.Adjoins q) : x.value < y.value ↔ q < y.value ∧ x.value ≠ y.value := by
  constructor
  · intro hlt
    exact ⟨lt_of_not_ge fun hq ↦ hlt.not_ge (h.lower y hq), hlt.ne⟩
  · intro hq
    exact lt_of_le_of_ne (h.upper y hq.1.le) hq.2

end Adjoins

end Finite

def Rounds (x : Binary64) (q : ℚ) : Prop := ∃ f : Finite, x = .finite f ∧ f.Adjoins q

/-- The number is no larger than some finite one, whatever its sign. -/
def Within (q : ℚ) : Prop := ∃ y : Finite, |q| ≤ y.value

theorem Within.of_abs_le {p q : ℚ} (hq : Within q) (h : |p| ≤ |q|) : Within p := by
  obtain ⟨y, hy⟩ := hq
  exact ⟨y, h.trans hy⟩

section

variable {num den : ℕ} {negative : Bool} {q : ℚ}

theorem div_le_magnitude_iff (hd : 0 < den) {m : ℕ} :
    (num : ℚ) / (den * unitsPerOne) ≤ m / unitsPerOne ↔ num ≤ m * den := by
  have hden : (0 : ℚ) < den := Nat.cast_pos.mpr hd
  rw [← div_div, div_le_div_iff_of_pos_right cast_unitsPerOne_pos, div_le_iff₀ hden]
  exact_mod_cast Iff.rfl

theorem magnitude_le_div_iff (hd : 0 < den) {m : ℕ} :
    (m : ℚ) / unitsPerOne ≤ num / (den * unitsPerOne) ↔ m * den ≤ num := by
  have hden : (0 : ℚ) < den := Nat.cast_pos.mpr hd
  rw [← div_div, div_le_div_iff_of_pos_right cast_unitsPerOne_pos, le_div_iff₀ hden]
  exact_mod_cast Iff.rfl

theorem Finite.value_le_magnitude (y : Finite) : y.value ≤ y.magnitude / unitsPerOne := by
  have h := inUnits_nonneg y.magnitude
  rw [y.value_eq_signed, signed]
  split
  · linarith
  · exact le_rfl

theorem adjoins_nearest (hd : 0 < den) (hr : Representable (nearest num den)) :
    Finite.Adjoins ⟨false, nearest num den, hr⟩ (num / (den * unitsPerOne)) := by
  have hx := Finite.value_mk_false hr
  have hsign : ∀ y : Finite, y.value = y.magnitude / unitsPerOne ∨
      y.value = -(y.magnitude / unitsPerOne) := by
    intro y
    rw [y.value_eq_signed, signed]
    split
    · exact .inr rfl
    · exact .inl rfl
  refine ⟨fun y hy ↦ ?_, fun y hy ↦ ?_⟩
  · rw [hx]
    obtain hv | hv := hsign y
    · rw [hv] at hy ⊢
      exact inUnits_mono (le_nearest hd y.representable ((magnitude_le_div_iff hd).mp hy))
    · have hy' := inUnits_nonneg y.magnitude
      have hx' := inUnits_nonneg (nearest num den)
      linarith
  · rw [hx]
    obtain hv | hv := hsign y
    · rw [hv] at hy ⊢
      exact inUnits_mono (nearest_le hd y.representable ((div_le_magnitude_iff hd).mp hy))
    · -- a number that is not positive is above the quotient only if both are zero
      have hq := quotient_nonneg num den
      have hy' := inUnits_nonneg y.magnitude
      have hzero : num ≤ 0 * den := by
        rw [← div_le_magnitude_iff hd]
        simp only [Nat.cast_zero, zero_div]
        linarith
      have hle := inUnits_mono (nearest_le hd representable_zero hzero)
      simp only [Nat.cast_zero, zero_div] at hle
      linarith

theorem rounds_ofQuotient (hd : 0 < den) (hq : q = signed negative (num / (den * unitsPerOne)))
    (hw : Within q) : (ofQuotient negative num den).Rounds q := by
  obtain ⟨y, hy⟩ := hw
  have habs : |q| = num / (den * unitsPerOne) := by
    rw [hq, signed]
    split <;> simp only [abs_neg, abs_of_nonneg (quotient_nonneg num den)]
  have hle : nearest num den ≤ y.magnitude := by
    apply nearest_le hd y.representable
    rw [← div_le_magnitude_iff hd, ← habs]
    exact hy.trans y.value_le_magnitude
  have hlt : nearest num den < overflow := Nat.lt_of_le_of_lt hle y.representable.1
  refine ⟨⟨negative, nearest num den, hlt, spacing_nearest_dvd num den⟩, dif_pos hlt, ?_⟩
  have hpositive := adjoins_nearest hd ⟨hlt, spacing_nearest_dvd num den⟩
  rw [hq]
  cases negative with
  | false => exact hpositive
  | true => exact hpositive.opposite

end

end TypedRecord.Binary64
