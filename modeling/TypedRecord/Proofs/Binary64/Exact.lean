import Mathlib.Data.Rat.Floor
import Mathlib.Tactic.FieldSimp
import TypedRecord.Binary64
import TypedRecord.Proofs.Binary64.Rounding

namespace TypedRecord.Binary64

def Denotes (x : Binary64) (q : ℚ) : Prop := ∃ f : Finite, x = .finite f ∧ f.value = q

def IsValue (q : ℚ) : Prop := ∃ f : Finite, f.value = q

section

variable {x y : Binary64} {p q : ℚ}

theorem IsValue.neg (h : IsValue q) : IsValue (-q) := by
  obtain ⟨f, rfl⟩ := h
  exact ⟨f.opposite, f.value_opposite⟩

theorem IsValue.within (h : IsValue q) : Within q := by
  obtain ⟨f, hf⟩ := h
  obtain ⟨g, hg⟩ := IsValue.neg ⟨f, hf⟩
  obtain hq | hq := abs_choice q
  · exact ⟨f, by rw [hq, hf]⟩
  · exact ⟨g, by rw [hq, hg]⟩

theorem denotes_finite (f : Finite) : (finite f).Denotes f.value := ⟨f, rfl, rfl⟩

theorem Denotes.unique (hp : x.Denotes p) (hq : x.Denotes q) : p = q := by
  obtain ⟨f, rfl, rfl⟩ := hp
  obtain ⟨g, hg, rfl⟩ := hq
  rw [finite.inj hg]

theorem Denotes.isValue (h : x.Denotes q) : IsValue q := by
  obtain ⟨f, -, hf⟩ := h
  exact ⟨f, hf⟩

theorem Rounds.denotes (h : x.Rounds q) (hq : IsValue q) : x.Denotes q := by
  obtain ⟨f, hx, hf⟩ := h
  obtain ⟨g, hg⟩ := hq
  exact ⟨f, hx, hf.value_eq hg⟩

/-- An outcome stays within the floating-point numbers around the exact one. -/
theorem Rounds.between (h : x.Rounds q) {low high : ℚ} (hlow : IsValue low) (hhigh : IsValue high)
    (hl : low ≤ q) (hh : q ≤ high) : ∃ p, x.Denotes p ∧ low ≤ p ∧ p ≤ high := by
  obtain ⟨f, hx, hf⟩ := h
  obtain ⟨g, rfl⟩ := hlow
  obtain ⟨g', rfl⟩ := hhigh
  exact ⟨f.value, ⟨f, hx, rfl⟩, hf.lower g hl, hf.upper g' hh⟩

theorem signed_natAbs (n : ℤ) (d : ℚ) : signed (n < 0) (n.natAbs / d) = n / d := by
  rw [Nat.cast_natAbs, signed]
  simp only [decide_eq_true_eq]
  split_ifs with hn
  · rw [abs_of_neg hn, Int.cast_neg, neg_div, neg_neg]
  · rw [abs_of_nonneg (not_lt.mp hn)]

theorem two_pow_eq_mul {j n : ℕ} (hj : j ≤ n) : Nat.pow 2 n = 2 ^ j * 2 ^ (n - j) := by
  rw [← Nat.pow_add, Nat.add_sub_cancel' hj, Nat.pow_eq]

theorem unitsPerOne_eq {j : ℕ} (hj : j ≤ 1074) : unitsPerOne = 2 ^ j * 2 ^ (1074 - j) := by
  unfold unitsPerOne
  apply two_pow_eq_mul
  exact hj

theorem two_pow_mul (m n : ℕ) : Nat.pow 2 m * 2 ^ n = 2 ^ (m + n) := (Nat.pow_add 2 m n).symm

theorem unitsPerOne_mul (j : ℕ) : unitsPerOne * 2 ^ j = 2 ^ (1074 + j) := by
  unfold unitsPerOne
  apply two_pow_mul

/-- The multiples of a negative power of two that have at most 53 significant bits. -/
theorem isValue_div_pow {k : ℤ} {j : ℕ} (hk : |k| ≤ 2 ^ 53) (hj : j ≤ 1074) :
    IsValue (k / 2 ^ j) := by
  have hk' : k.natAbs ≤ 2 ^ 53 := by
    rw [Int.abs_eq_natAbs] at hk
    exact_mod_cast hk
  refine ⟨⟨k < 0, k.natAbs * 2 ^ (1074 - j), representable_mul hk' (by omega)⟩, ?_⟩
  rw [Finite.value_eq_signed, ← signed_natAbs, unitsPerOne_eq hj]
  congr 1
  push_cast
  field_simp

theorem isValue_intCast {n : ℤ} (hn : |n| ≤ 2 ^ 53) : IsValue n := by
  have h := isValue_div_pow hn (Nat.zero_le 1074)
  rwa [pow_zero, div_one] at h

theorem isValue_half {n : ℤ} (hn : |n| ≤ 2 ^ 53) : IsValue (n / 2) := by
  have h := isValue_div_pow (j := 1) hn (by decide)
  rwa [pow_one] at h

theorem within_of_abs_le_two_pow {j : ℕ} (hj : j ≤ 970) (hq : |q| ≤ 2 ^ j) : Within q := by
  have hr : Representable (1 * 2 ^ (1074 + j)) := representable_mul (by decide) (by omega)
  refine ⟨⟨false, _, hr⟩, ?_⟩
  calc |q| ≤ 2 ^ j := hq
    _ = ((1 * 2 ^ (1074 + j) : ℕ) : ℚ) / unitsPerOne := by
      rw [Nat.one_mul, ← unitsPerOne_mul, Nat.cast_mul, Nat.cast_pow, Nat.cast_two,
        mul_div_cancel_left₀ _ cast_unitsPerOne_pos.ne']
    _ = Finite.value ⟨false, _, hr⟩ := (Finite.value_mk_false hr).symm

end

section

variable {x y : Binary64} {p q : ℚ} {n : ℤ}

theorem denotes_zero (negative : Bool) : (zero negative).Denotes 0 := by
  refine ⟨_, rfl, ?_⟩
  rw [Finite.value_eq_signed, Nat.cast_zero, zero_div, signed, neg_zero, ite_self]

theorem Denotes.neg (hx : x.Denotes q) : x.neg.Denotes (-q) := by
  obtain ⟨f, rfl, rfl⟩ := hx
  exact ⟨f.opposite, rfl, f.value_opposite⟩

theorem Denotes.add (hx : x.Denotes p) (hy : y.Denotes q) (hw : Within (p + q)) :
    (x.add y).Rounds (p + q) := by
  obtain ⟨f, rfl, rfl⟩ := hx
  obtain ⟨g, rfl, rfl⟩ := hy
  have hsum : f.value + g.value = ((f.units + g.units : ℤ) : ℚ) / unitsPerOne := by
    rw [Finite.value, Finite.value, ← add_div, Int.cast_add]
  rw [Binary64.add]
  split_ifs with hzero
  · obtain ⟨z, hz, hv⟩ := denotes_zero (f.negative && g.negative)
    refine ⟨z, hz, .of_value_eq ?_⟩
    rw [hv, hsum, hzero, Int.cast_zero, zero_div]
  · apply rounds_ofQuotient Nat.one_pos _ hw
    rw [hsum, Nat.cast_one, one_mul, signed_natAbs]

theorem Denotes.sub (hx : x.Denotes p) (hy : y.Denotes q) (hw : Within (p - q)) :
    (x.sub y).Rounds (p - q) := by
  rw [sub_eq_add_neg] at hw ⊢
  exact hx.add hy.neg hw

theorem Denotes.neg_int (hx : x.Denotes n) : x.neg.Denotes (-n : ℤ) := by
  rw [Int.cast_neg]
  exact hx.neg

theorem Denotes.add_int {m : ℤ} (hx : x.Denotes m) (hy : y.Denotes n) (h : |m + n| ≤ 2 ^ 53) :
    (x.add y).Denotes (m + n : ℤ) := by
  have hvalue := isValue_intCast h
  rw [Int.cast_add] at hvalue ⊢
  exact (hx.add hy hvalue.within).denotes hvalue

theorem Denotes.sub_int {m : ℤ} (hx : x.Denotes m) (hy : y.Denotes n) (h : |m - n| ≤ 2 ^ 53) :
    (x.sub y).Denotes (m - n : ℤ) := by
  have hvalue := isValue_intCast h
  rw [Int.cast_sub] at hvalue ⊢
  exact (hx.sub hy hvalue.within).denotes hvalue

theorem Denotes.mul (hx : x.Denotes p) (hy : y.Denotes q) (hw : Within (p * q)) :
    (x.mul y).Rounds (p * q) := by
  obtain ⟨f, rfl, rfl⟩ := hx
  obtain ⟨g, rfl, rfl⟩ := hy
  apply rounds_ofQuotient unitsPerOne_pos _ hw
  rw [f.value_eq_signed, g.value_eq_signed, Nat.cast_mul, ← div_mul_div_comm, signed_mul_signed]

theorem Denotes.half (hx : x.Denotes q) (hw : Within (q / 2)) : x.half.Rounds (q / 2) := by
  obtain ⟨f, rfl, rfl⟩ := hx
  apply rounds_ofQuotient Nat.two_pos _ hw
  rw [f.value_eq_signed, mul_comm, ← div_div, signed, signed]
  split
  · rw [neg_div, Nat.cast_two]
  · rw [Nat.cast_two]

theorem rounds_ofInt (hw : Within n) : (ofInt n).Rounds n := by
  apply rounds_ofQuotient Nat.one_pos _ hw
  rw [Nat.cast_mul, mul_div_mul_right _ _ cast_unitsPerOne_pos.ne', signed_natAbs, Nat.cast_one,
    div_one]

theorem denotes_ofInt (hn : |n| ≤ 2 ^ 53) : (ofInt n).Denotes n :=
  (rounds_ofInt (isValue_intCast hn).within).denotes (isValue_intCast hn)

theorem denotes_one : (1 : Binary64).Denotes (1 : ℤ) := denotes_ofInt (by decide)

theorem Finite.units_eq {f : Finite} (hf : f.value = n) : f.units = n * unitsPerOne := by
  rw [Finite.value, div_eq_iff cast_unitsPerOne_pos.ne'] at hf
  exact_mod_cast hf

theorem cast_wholeBelow (m : ℕ) : (wholeBelow m : ℤ) = ⌊(m : ℚ) / unitsPerOne⌋ := by
  rw [Rat.floor_natCast_div_natCast, wholeBelow, Int.natCast_ediv]

theorem cast_wholeAbove (m : ℕ) : (wholeAbove m : ℤ) = ⌈(m : ℚ) / unitsPerOne⌉ := by
  have hpos := unitsPerOne_pos
  have hle : m ≤ wholeAbove m * unitsPerOne := by
    have h := Nat.lt_div_mul_add hpos (a := m + (unitsPerOne - 1))
    rw [← wholeAbove] at h
    omega
  have hlt : wholeAbove m * unitsPerOne < m + unitsPerOne := by
    have h := Nat.div_mul_le_self (m + (unitsPerOne - 1)) unitsPerOne
    rw [← wholeAbove] at h
    omega
  symm
  rw [Int.ceil_eq_iff, lt_div_iff₀ cast_unitsPerOne_pos, div_le_iff₀ cast_unitsPerOne_pos,
    sub_mul, one_mul, sub_lt_iff_lt_add]
  constructor
  · exact_mod_cast hlt
  · exact_mod_cast hle

/-- Made whole, a number is the whole one that is chosen for its sign and its magnitude. -/
theorem Finite.denotes_toWhole {f : Finite} {choose : Bool → ℕ → ℕ} (hn : IsValue n)
    (h : signed f.negative (choose f.negative f.magnitude) = n) :
    (toWhole choose (finite f)).Denotes n := by
  apply (rounds_ofQuotient Nat.one_pos _ hn.within).denotes hn
  rw [Nat.cast_mul, mul_div_mul_right _ _ cast_unitsPerOne_pos.ne', Nat.cast_one, div_one, h]

theorem Denotes.floor (hx : x.Denotes q) (hq : IsValue ⌊q⌋) : x.floor.Denotes ⌊q⌋ := by
  obtain ⟨f, rfl, rfl⟩ := hx
  apply Finite.denotes_toWhole hq
  rw [f.value_eq_signed]
  cases f.negative with
  | false =>
    simp only [signed_false, ← cast_wholeBelow, Int.cast_natCast, Bool.false_eq_true, if_false]
  | true =>
    simp only [signed_true, Int.floor_neg, ← cast_wholeAbove, Int.cast_neg, Int.cast_natCast,
      if_true]

theorem Denotes.ceil (hx : x.Denotes q) (hq : IsValue ⌈q⌉) : x.ceil.Denotes ⌈q⌉ := by
  obtain ⟨f, rfl, rfl⟩ := hx
  apply Finite.denotes_toWhole hq
  rw [f.value_eq_signed]
  cases f.negative with
  | false =>
    simp only [signed_false, ← cast_wholeAbove, Int.cast_natCast, Bool.false_eq_true, if_false]
  | true =>
    simp only [signed_true, Int.ceil_neg, ← cast_wholeBelow, Int.cast_neg, Int.cast_natCast,
      if_true]

theorem Denotes.floor_int (hx : x.Denotes n) : x.floor.Denotes n := by
  have h := hx.floor
  rw [Int.floor_intCast] at h
  exact h hx.isValue

theorem Denotes.ceil_int (hx : x.Denotes n) : x.ceil.Denotes n := by
  have h := hx.ceil
  rw [Int.ceil_intCast] at h
  exact h hx.isValue

theorem Denotes.toInt64 (hx : x.Denotes n) (hlow : leastInt64 ≤ n) (hhigh : n ≤ greatestInt64) :
    x.toInt64 = n := by
  obtain ⟨f, rfl, hf⟩ := hx
  have hd : (unitsPerOne : ℤ) ≠ 0 := by exact_mod_cast cast_unitsPerOne_pos.ne'
  have hwhole : f.units.tdiv unitsPerOne = n := by
    rw [Finite.units_eq hf, Int.mul_tdiv_cancel _ hd]
  simp only [Binary64.toInt64, hwhole]
  split_ifs <;> omega

theorem Denotes.lt_iff (hx : x.Denotes p) (hy : y.Denotes q) : x.lt y = true ↔ p < q := by
  obtain ⟨f, rfl, rfl⟩ := hx
  obtain ⟨g, rfl, rfl⟩ := hy
  rw [lt, decide_eq_true_eq, Finite.value_lt_iff]

theorem Denotes.le_iff (hx : x.Denotes p) (hy : y.Denotes q) : x.le y = true ↔ p ≤ q := by
  obtain ⟨f, rfl, rfl⟩ := hx
  obtain ⟨g, rfl, rfl⟩ := hy
  rw [le_finite, decide_eq_true_eq, Finite.value_le_iff]

theorem Denotes.ne_nan (hx : x.Denotes p) : x ≠ .nan := by
  obtain ⟨f, rfl, -⟩ := hx
  nofun

theorem Denotes.max (hx : x.Denotes p) (hy : y.Denotes q) : (x.max y).Denotes (p ⊔ q) := by
  have hlt := hx.lt_iff hy
  rw [Binary64.max, if_neg hx.ne_nan]
  split_ifs with h
  · rwa [sup_eq_right.mpr (hlt.mp h).le]
  · rwa [sup_eq_left.mpr (not_lt.mp (mt hlt.mpr h))]

theorem Denotes.min (hx : x.Denotes p) (hy : y.Denotes q) : (x.min y).Denotes (p ⊓ q) := by
  have hlt := hy.lt_iff hx
  rw [Binary64.min, if_neg hx.ne_nan]
  split_ifs with h
  · rwa [inf_eq_right.mpr (hlt.mp h).le]
  · rwa [inf_eq_left.mpr (not_lt.mp (mt hlt.mpr h))]

end

end TypedRecord.Binary64
