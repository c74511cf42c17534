import TypedRecord.Proofs.Binary64.Exact
import TypedRecord.Proofs.Outcome
import TypedRecord.Random.Value

namespace TypedRecord

namespace Draw

variable {σ α β : Type} [WordSource σ]

def attempt (f : UInt64 → Option α) : Draw σ (Option α) := do
  return f (← word)

variable (σ) in
/-- No draw from the source runs out of patience, given that it accepts at least the word zero. -/
def Patient : Prop :=
  ∀ {α : Type} (f : UInt64 → Option α), f 0 ≠ none → ∀ state : σ,
    ∃ a next, patiently (attempt f) state = some (a, next)

/-- The draw has an outcome unless some draw runs out of patience, and only ones of the property. -/
structure Yields (p : α → Prop) (d : Draw σ α) : Prop where
  outcome : ∀ state a next, d state = some (a, next) → p a
  returns : Patient σ → ∀ state, ∃ a next, d state = some (a, next)

def skip (k : ℕ) (state : σ) : σ := (fun s ↦ (WordSource.next s).2)^[k] state

theorem skip_succ (k : ℕ) (state : σ) :
    skip (k + 1) state = skip k (WordSource.next state).2 := rfl

theorem retry_succ (f : UInt64 → Option α) (patience : ℕ) (state : σ) :
    retry (attempt f) (patience + 1) state = match f (WordSource.next state).1 with
      | some a => some (a, (WordSource.next state).2)
      | none => retry (attempt f) patience (WordSource.next state).2 := by
  have hstep : retry (attempt f) (patience + 1) state =
      (match f (WordSource.next state).1 with
        | some a => Pure.pure a
        | none => retry (attempt f) patience : Draw σ α) (WordSource.next state).2 := rfl
  rw [hstep]
  cases f (WordSource.next state).1 <;> rfl

theorem exists_of_retry {f : UInt64 → Option α} {patience : ℕ} {state next : σ} {a : α}
    (h : retry (attempt f) patience state = some (a, next)) : ∃ w, f w = some a := by
  induction patience generalizing state with
  | zero => cases h
  | succ patience ih =>
    rw [retry_succ] at h
    cases hf : f (WordSource.next state).1 with
    | some b =>
      rw [hf] at h
      cases h
      exact ⟨_, hf⟩
    | none =>
      rw [hf] at h
      exact ih h

namespace Yields

variable {p q : α → Prop} {r : β → Prop}

theorem mono {d : Draw σ α} (h : d.Yields p) (hpq : ∀ a, p a → q a) : d.Yields q :=
  ⟨fun state a next ha ↦ hpq a (h.outcome state a next ha), h.returns⟩

theorem pure {a : α} (h : p a) : (Pure.pure a : Draw σ α).Yields p where
  outcome state b next hb := by
    cases hb
    exact h
  returns _ state := ⟨a, state, rfl⟩

theorem bind {d : Draw σ α} {f : α → Draw σ β} (hd : d.Yields p) (hf : ∀ a, p a → (f a).Yields r) :
    (d >>= f).Yields r where
  outcome state b next h := by
    obtain ⟨⟨a, mid⟩, ha, hb⟩ := Option.bind_eq_some_iff.mp h
    exact (hf a (hd.outcome state a mid ha)).outcome mid b next hb
  returns hp state := by
    obtain ⟨a, mid, ha⟩ := hd.returns hp state
    obtain ⟨b, next, hb⟩ := (hf a (hd.outcome state a mid ha)).returns hp mid
    exact ⟨b, next, Option.bind_eq_some_iff.mpr ⟨(a, mid), ha, hb⟩⟩

theorem branch {c : Prop} [Decidable c] {d e : Draw σ α} (hd : c → d.Yields p)
    (he : ¬ c → e.Yields p) : (if c then d else e).Yields p := by
  split
  next h => exact hd h
  next h => exact he h

theorem ite {c : Prop} [Decidable c] {d e : Draw σ α} (hd : d.Yields p) (he : e.Yields p) :
    (if c then d else e).Yields p :=
  branch (fun _ ↦ hd) fun _ ↦ he

/-- Whatever was rejected before, the outcome comes from one word. -/
theorem patiently {f : UInt64 → Option α} (hf : f 0 ≠ none) (h : ∀ w a, f w = some a → p a) :
    (Draw.patiently (attempt f) : Draw σ α).Yields p where
  outcome state a next ha := by
    obtain ⟨w, hw⟩ := exists_of_retry ha
    exact h w a hw
  returns hp := hp f hf

theorem timesFrom {draw : ℕ → Draw σ α} {r : ℕ → α → Prop} (h : ∀ i, (draw i).Yields (r i))
    (i count : ℕ) :
    (Draw.timesFrom draw i count).Yields fun out ↦ List.Forall₂ r (List.range' i count) out := by
  induction count generalizing i with
  | zero => exact pure .nil
  | succ count ih =>
    rw [Draw.timesFrom, List.range'_succ]
    exact (h i).bind fun a ha ↦ (ih (i + 1)).bind fun out ho ↦ pure (.cons ha ho)

theorem times {draw : ℕ → Draw σ α} (h : ∀ i, (draw i).Yields p) (count : ℕ) :
    (Draw.times count draw).Yields fun out ↦ out.length = count ∧ ∀ a ∈ out, p a := by
  refine (Yields.timesFrom h 0 count).mono fun out hout ↦ ⟨?_, fun a ha ↦ ?_⟩
  · rw [← hout.length_eq, List.length_range']
  · obtain ⟨_, -, hp⟩ := exists_of_mem_outcomes hout ha
    exact hp

end Yields

theorem word_yields : (word : Draw σ UInt64).Yields fun _ ↦ True :=
  ⟨fun _ _ _ _ ↦ trivial, fun _ _ ↦ ⟨_, _, rfl⟩⟩

theorem coin_yields : (coin : Draw σ Bool).Yields fun _ ↦ True :=
  word_yields.bind fun _ _ ↦ .pure trivial

theorem oneInFour_yields : (oneInFour : Draw σ Bool).Yields fun _ ↦ True :=
  word_yields.bind fun _ _ ↦ .pure trivial

/-- A product below the range times all words has its high half below the range. -/
theorem below_yields (width zone range : ℕ) :
    (below width zone range : Draw σ ℕ).Yields fun n ↦ 0 < range → n < range := by
  have hzero : (0 % Nat.pow 2 width) * range % Nat.pow 2 width ≤ zone := by simp
  refine Yields.patiently (f := fun w ↦
    if w.toNat % Nat.pow 2 width * range % Nat.pow 2 width ≤ zone
      then some (w.toNat % Nat.pow 2 width * range / Nat.pow 2 width) else none) ?_ ?_
  · rw [UInt64.toNat_zero, if_pos hzero]
    exact Option.some_ne_none _
  · intro w n h hr
    obtain ⟨-, hn⟩ := Option.ite_none_right_eq_some.mp h
    rw [← Option.some.inj hn]
    apply Nat.div_lt_of_lt_mul
    exact Nat.mul_lt_mul_of_pos_right (Nat.mod_lt _ (Nat.two_pow_pos width)) hr

theorem between_yields (low high : ℕ) :
    (between low high : Draw σ ℕ).Yields fun n ↦ low ≤ n ∧ (low ≤ high → n ≤ high) := by
  refine (below_yields _ _ _).bind fun n hn ↦ .pure ?_
  have hlt := hn (Nat.succ_pos _)
  omega

theorem intBetween_yields (low high : ℤ) : (intBetween low high : Draw σ ℤ).Yields fun n ↦
    low ≤ high → high - low + 1 < wordCount → low ≤ n ∧ n ≤ high := by
  rw [intBetween]
  refine .branch (fun hrange ↦ word_yields.bind fun _ _ ↦ .pure ?_) fun _ ↦
    (below_yields _ _ _).bind fun n hn ↦ .pure ?_
  · intro h hw
    omega
  · intro h hw
    have hlt := hn (by omega)
    omega

theorem unit_within : (unit : Draw σ Binary64).Yields fun x ↦
    ∃ q, x.Denotes q ∧ 0 ≤ q ∧ q < 1 := by
  refine word_yields.bind fun word _ ↦ .pure ?_
  have hk : word.toNat / Nat.pow 2 11 < 2 ^ 53 := Nat.div_lt_of_lt_mul word.toNat_lt
  generalize word.toNat / Nat.pow 2 11 = k at hk
  have hlt : (k : ℚ) < 2 ^ 53 := by exact_mod_cast hk
  have hvalue : Binary64.IsValue ((k : ℤ) / 2 ^ 53) := by
    apply Binary64.isValue_div_pow _ (by decide)
    rw [Nat.abs_cast]
    exact_mod_cast hk.le
  refine ⟨_, (Binary64.rounds_ofQuotient (Nat.two_pow_pos 53) ?_ hvalue.within).denotes hvalue,
    ?_, ?_⟩
  · rw [Binary64.signed, if_neg Bool.false_ne_true, Nat.cast_mul,
      mul_div_mul_right _ _ Binary64.cast_unitsPerOne_pos.ne']
    norm_num
  · rw [Int.cast_natCast]
    exact div_nonneg (Nat.cast_nonneg k) (by norm_num)
  · rw [Int.cast_natCast, div_lt_one (by norm_num)]
    exact hlt

/-- Whatever the width, a word of zero gives the lower bound itself. -/
theorem floatBetween_yields {low high : Binary64}
    (h : (((Binary64.ofQuotient false (0 / Nat.pow 2 12 * Binary64.unitsPerOne)
      (Nat.pow 2 52)).mul (high.sub low)).add low).lt high = true) :
    (floatBetween low high : Draw σ Binary64).Yields fun _ ↦ True := by
  refine Yields.patiently (f := fun w ↦
    let x := ((Binary64.ofQuotient false (w.toNat / Nat.pow 2 12 * Binary64.unitsPerOne)
      (Nat.pow 2 52)).mul (high.sub low)).add low
    if x.lt high then some x else none) ?_ fun _ _ _ ↦ trivial
  rw [UInt64.toNat_zero, if_pos h]
  exact Option.some_ne_none _

theorem exists_retry_eq {f : UInt64 → Option α} {k patience : ℕ} {state : σ} (hk : k < patience)
    (hf : f (WordSource.next (skip k state)).1 ≠ none) :
    ∃ a next, retry (attempt f) patience state = some (a, next) := by
  induction patience generalizing k state with
  | zero => exact absurd hk (Nat.not_lt_zero k)
  | succ patience ih =>
    rw [retry_succ]
    cases hw : f (WordSource.next state).1 with
    | some a => exact ⟨a, _, rfl⟩
    | none =>
      cases k with
      | zero => exact absurd hw hf
      | succ k => exact ih (Nat.lt_of_succ_lt_succ hk) hf

end Draw

namespace SuppliedWords

theorem skip_length (words : List UInt64) (rest : SplitMix) :
    Draw.skip words.length (⟨words, rest⟩ : SuppliedWords) = ⟨[], rest⟩ := by
  induction words with
  | nil => rfl
  | cons word words ih => exact ih

theorem next_rest (state : UInt64) :
    (WordSource.next (⟨[], ⟨state⟩⟩ : SuppliedWords)).2 = ⟨[], ⟨state + 0x9E3779B97F4A7C15⟩⟩ := rfl

theorem skip_rest (k : ℕ) (state : UInt64) :
    Draw.skip k (⟨[], ⟨state⟩⟩ : SuppliedWords) =
      ⟨[], ⟨state + UInt64.ofNat k * 0x9E3779B97F4A7C15⟩⟩ := by
  induction k generalizing state with
  | zero =>
    have hnone : ∀ a b : UInt64, a + UInt64.ofNat 0 * b = a := by simp
    rw [hnone]
    rfl
  | succ k ih =>
    have hcount : ∀ a b : UInt64,
        a + b + UInt64.ofNat k * b = a + UInt64.ofNat (k + 1) * b := by
      intro a b
      rw [UInt64.ofNat_add, UInt64.ofNat_one]
      grind
    rw [Draw.skip_succ, next_rest, ih, hcount]

/-- The generator counts in steps of an odd number, so it passes the state that gives zero. -/
theorem exists_zero_word (s : SuppliedWords) :
    ∃ k < WordSource.patience s, (WordSource.next (Draw.skip k s)).1 = 0 := by
  obtain ⟨words, ⟨state⟩⟩ := s
  -- the factor is the inverse of the step
  let steps : UInt64 := -state * 0xF1DE83E19937733D - 1
  refine ⟨steps.toNat + words.length, ?_, ?_⟩
  · have hlt := steps.toNat_lt
    change steps.toNat + words.length < words.length + wordCount
    rw [wordCount, Nat.pow_eq]
    omega
  · have hskip : Draw.skip (steps.toNat + words.length) (⟨words, ⟨state⟩⟩ : SuppliedWords) =
        ⟨[], ⟨state + steps * 0x9E3779B97F4A7C15⟩⟩ := by
      rw [Draw.skip, Function.iterate_add_apply]
      have hrest := skip_rest steps.toNat state
      rw [UInt64.ofNat_toNat, ← skip_length words] at hrest
      exact hrest
    have hzero : state + steps * 0x9E3779B97F4A7C15 + 0x9E3779B97F4A7C15 = 0 := by
      simp only [steps]
      grind
    rw [hskip]
    change (SplitMix.next ⟨state + steps * 0x9E3779B97F4A7C15⟩).1 = 0
    simp only [SplitMix.next, hzero]
    decide

theorem patient : Draw.Patient SuppliedWords := by
  intro α f hf state
  obtain ⟨k, hk, hzero⟩ := exists_zero_word state
  exact Draw.exists_retry_eq hk (hzero ▸ hf)

end SuppliedWords

end TypedRecord
