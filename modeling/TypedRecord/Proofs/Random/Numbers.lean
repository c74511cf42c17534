import TypedRecord.Proofs.Random.Draws
import TypedRecord.Proofs.Sample.Numbers

namespace TypedRecord

open Binary64

namespace Draw

variable {σ : Type} [WordSource σ] {r : Range}

theorem denotes_span : span.Denotes (1000 : ℤ) := by
  have h : (ofInt ((1000 : ℕ) : ℤ)).Denotes ((1000 : ℕ) : ℤ) := denotes_ofInt (by decide)
  exact h

/-- Bounds that are completed are whole still, and not crossed if something lies between them. -/
theorem spread_edges {α : Type} {p p' : α → Prop} {near far near' far' : ℤ → α → Prop}
    {low? high? : Option Binary64} (hlow : Range.Edge p near far low?)
    (hhigh : Range.Edge p' near' far' high?) (hnear : ∀ m n a, near m a → near' n a → m ≤ n)
    (h : ∃ a, p a ∧ p' a) :
    ∃ m n : ℤ, (spread low? high?).1.Denotes m ∧ (spread low? high?).2.Denotes n ∧ m ≤ n ∧
      |m| ≤ 2 ^ 51 ∧ |n| ≤ 2 ^ 51 ∧ (∀ a, far m a → p a) ∧ ∀ a, far' n a → p' a := by
  obtain ⟨a, ha, ha'⟩ := h
  cases hlow with
  | none hp =>
    cases hhigh with
    | none hp' =>
      simp only [spread]
      exact ⟨-1000, 1000, denotes_span.neg_int, denotes_span, by omega, by decide, by decide,
        fun a _ ↦ hp a, fun a _ ↦ hp' a⟩
    | @some high n hhigh hn _ far =>
      rw [abs_le] at hn
      exact ⟨n - 1000, n, hhigh.sub_int denotes_span (abs_le.mpr (by omega)), hhigh, by omega,
        abs_le.mpr (by omega), abs_le.mpr (by omega), fun a _ ↦ hp a, far⟩
  | @some low m hlow hm near far =>
    cases hhigh with
    | none hp' =>
      rw [abs_le] at hm
      exact ⟨m, m + 1000, hlow, hlow.add_int denotes_span (abs_le.mpr (by omega)), by omega,
        abs_le.mpr (by omega), abs_le.mpr (by omega), far, fun a _ ↦ hp' a⟩
    | @some high n hhigh hn near' far' =>
      exact ⟨m, n, hlow, hhigh, hnear m n a (near a ha) (near' a ha'), by omega, by omega, far,
        far'⟩

theorem intWithin_holds (hw : r.Whole) (h : ∃ n : ℤ, r.Holds n) :
    (intWithin r : Draw σ Binary64).Yields fun x ↦
      ∃ n : ℤ, |n| ≤ 2 ^ 51 ∧ x.Denotes n ∧ r.Holds n := by
  simp only [Range.holds_iff] at h ⊢
  obtain ⟨m, n, hlow, hhigh, hmn, hm, hn, habove, hbelow⟩ :=
    spread_edges hw.edge_lowerInt hw.edge_upperInt (fun _ _ _ ↦ Int.le_trans) h
  rw [intWithin]
  generalize spread r.lowerInt? r.upperInt? = bounds at hlow hhigh
  obtain ⟨low, high⟩ := bounds
  have huncrossed : ¬ high.lt low = true := by
    rw [hhigh.lt_iff hlow, not_lt]
    exact_mod_cast hmn
  rw [abs_le] at hm hn
  have hmoderate : ∀ k : ℤ, m ≤ k → k ≤ n → |k| ≤ 2 ^ 51 :=
    fun k hmk hkn ↦ abs_le.mpr (by omega)
  have hword : ∀ k : ℤ, -2 ^ 51 ≤ k → k ≤ 2 ^ 51 → leastInt64 ≤ k ∧ k ≤ greatestInt64 := by
    intro k hk hk'
    simp only [leastInt64, greatestInt64, Nat.pow_eq]
    omega
  have hcount : n - m + 1 < wordCount := by
    simp only [wordCount, Nat.pow_eq]
    omega
  have hm' := hword m hm.1 hm.2
  have hn' := hword n hn.1 hn.2
  simp only [huncrossed]
  rw [hlow.toInt64 hm'.1 hm'.2, hhigh.toInt64 hn'.1 hn'.2]
  refine (intBetween_yields m n).bind fun k hk ↦ .pure ?_
  obtain ⟨hmk, hkn⟩ := hk hmn hcount
  have hk' := hmoderate k hmk hkn
  exact ⟨k, hk', denotes_ofInt (by omega), habove k hmk, hbelow k hkn⟩

/-- Rounded or not, a product of a whole number with a fraction stays within the whole number. -/
theorem denotes_fraction_mul {u x : Binary64} {q : ℚ} {d : ℤ} (hu : u.Denotes q)
    (hx : x.Denotes d) (hq : 0 ≤ q) (hq' : q < 1) (hd : 0 ≤ d) (hd' : d ≤ 2 ^ 52) :
    ∃ p, (u.mul x).Denotes p ∧ 0 ≤ p ∧ p ≤ d := by
  have hvalue : IsValue (d : ℚ) := isValue_intCast (by rw [abs_of_nonneg hd]; omega)
  have hzero : IsValue 0 := (denotes_zero false).isValue
  have hdq : (0 : ℚ) ≤ d := by exact_mod_cast hd
  have hnonneg : 0 ≤ q * d := mul_nonneg hq hdq
  have hle : q * d ≤ d := mul_le_of_le_one_left hdq hq'.le
  have hwithin : Within (q * d) := by
    apply hvalue.within.of_abs_le
    rwa [abs_of_nonneg hnonneg, abs_of_nonneg hdq]
  exact (hu.mul hx hwithin).between hzero hvalue hnonneg hle

theorem numWithin_holds (hw : r.Whole) (h : ∃ q, r.Holds q) :
    (numWithin r : Draw σ Binary64).Yields fun x ↦ ∃ q, x.Denotes q ∧ r.Holds q := by
  have h' := h
  simp only [Range.holds_iff] at h'
  have hnear : ∀ (m n : ℤ) (q : ℚ), (m : ℚ) ≤ q → q ≤ n → m ≤ n :=
    fun m n q hm hn ↦ by exact_mod_cast hm.trans hn
  obtain ⟨m, n, hlow, hhigh, hmn, hm, hn, -⟩ := spread_edges hw.edge_lower hw.edge_upper hnear h'
  rw [numWithin]
  generalize spread r.lower? r.upper? = bounds at hlow hhigh
  obtain ⟨low, high⟩ := bounds
  refine unit_within.bind fun u hu ↦ .pure ?_
  obtain ⟨q, hu, hq, hq'⟩ := hu
  rw [abs_le] at hm hn
  have hdiff : |n - m| ≤ 2 ^ 53 := abs_le.mpr (by omega)
  obtain ⟨p, hp, hp0, hpd⟩ := denotes_fraction_mul hu (hhigh.sub_int hlow hdiff) hq hq' (by omega)
    (by omega)
  -- the sum lies between the completed bounds, so it is finite, although it may be rounded
  have hsum : Within (m + p) := by
    apply within_of_abs_le_two_pow (j := 53) (by decide)
    have hm' : |(m : ℚ)| ≤ 2 ^ 51 := by exact_mod_cast abs_le.mpr hm
    have hn' : |(n : ℚ)| ≤ 2 ^ 51 := by exact_mod_cast abs_le.mpr hn
    rw [abs_le] at hm' hn' ⊢
    push_cast at hpd
    constructor <;> linarith
  obtain ⟨f, hf, -⟩ := hlow.add hp hsum
  have hx : (low.add (u.mul (high.sub low))).Denotes f.value := ⟨f, hf, rfl⟩
  split_ifs with hc
  · exact ⟨f.value, hx, (Range.contains_iff_holds hw.isFinite hx).mp hc⟩
  · obtain ⟨p, hp, hholds⟩ := hw.pickNum_holds hx
    exact ⟨p, hp, hholds h⟩

end Draw

end TypedRecord
