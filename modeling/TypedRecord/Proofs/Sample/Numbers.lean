import Mathlib.Algebra.Order.Archimedean.Real.Basic
import TypedRecord.Proofs.Schema.Built
import TypedRecord.Proofs.Schema.Equality
import TypedRecord.Proofs.Schema.Exactness
import TypedRecord.Sample

namespace TypedRecord

open Binary64

namespace Range

def Whole (r : Range) : Prop := ∀ x, r.HasBound x → ∃ n : ℤ, |n| ≤ 2 ^ 50 ∧ x.Denotes n

structure HoldsReal (r : Range) (y : ℝ) : Prop where
  gt : ∀ b, r.gt = some (.finite b) → (b.value : ℝ) < y
  gte : ∀ b, r.gte = some (.finite b) → (b.value : ℝ) ≤ y
  lt : ∀ b, r.lt = some (.finite b) → y < b.value
  lte : ∀ b, r.lte = some (.finite b) → y ≤ b.value

def WithinInts (r : Range) (n : ℤ) : Prop :=
  (∀ x, r.lowerInt? = some x → ∃ m : ℤ, x.Denotes m ∧ m ≤ n) ∧
    ∀ x, r.upperInt? = some x → ∃ m : ℤ, x.Denotes m ∧ n ≤ m

def HoldsOn (lt le : ℚ → ℚ → Prop) (strict weak : Option Binary64) (q : ℚ) : Prop :=
  (∀ b, strict = some (.finite b) → lt b.value q) ∧ ∀ b, weak = some (.finite b) → le b.value q

def HoldsAbove (r : Range) : ℚ → Prop := HoldsOn (· < ·) (· ≤ ·) r.gt r.gte

def HoldsBelow (r : Range) : ℚ → Prop := HoldsOn (· > ·) (· ≥ ·) r.lt r.lte

/-- The limit, if there is one, is whole: what has the property is near to it, and whatever is far
from it has the property. -/
inductive Edge {α : Type} (p : α → Prop) (near far : ℤ → α → Prop) : Option Binary64 → Prop
  | none : (∀ a, p a) → Edge p near far none
  | some {x : Binary64} {n : ℤ} : x.Denotes n → |n| ≤ 2 ^ 50 + 1 → (∀ a, p a → near n a) →
      (∀ a, far n a → p a) → Edge p near far (some x)

namespace Edge

variable {α : Type} {p p' : α → Prop} {near far : ℤ → α → Prop} {limit limit' : Option Binary64}

/-- The edge that a single bound makes, if it is moved to a whole number beside it. -/
theorem of_bound (rel : ℚ → α → Prop) (shift : ℤ → ℤ) {move : Binary64 → Binary64}
    (hl : ∀ x, limit = Option.some x → ∃ n : ℤ, |n| ≤ 2 ^ 50 ∧ x.Denotes n)
    (hmove : ∀ (x : Binary64) (n : ℤ), |n| ≤ 2 ^ 50 → x.Denotes n →
      |shift n| ≤ 2 ^ 50 + 1 ∧ (move x).Denotes (shift n))
    (hnear : ∀ (n : ℤ) a, rel n a → near (shift n) a)
    (hfar : ∀ (n : ℤ) a, far (shift n) a → rel n a) :
    Edge (fun a ↦ ∀ b, limit = Option.some (.finite b) → rel b.value a) near far
      (limit.map move) := by
  cases limit with
  | none => exact .none (by simp)
  | some x =>
    obtain ⟨n, hn, hx⟩ := hl x rfl
    obtain ⟨hshift, hmoved⟩ := hmove x n hn hx
    obtain ⟨f, rfl, hf⟩ := hx
    refine .some hmoved hshift (fun a ha ↦ hnear n a (hf ▸ ha f rfl)) fun a ha b hb ↦ ?_
    cases hb
    exact hf ▸ hfar n a ha

/-- Of two edges on one side only the tighter one counts. -/
theorem merge {tighter : Binary64 → Binary64 → Binary64} {choose : ℤ → ℤ → ℤ}
    (h : Edge p near far limit) (h' : Edge p' near far limit')
    (hchoose : ∀ m n, choose m n = m ∨ choose m n = n)
    (htighter : ∀ (x y : Binary64) (m n : ℤ), x.Denotes m → y.Denotes n →
      (tighter x y).Denotes (choose m n))
    (hfar : ∀ m n a, far (choose m n) a → far m a ∧ far n a) :
    Edge (fun a ↦ p a ∧ p' a) near far (limit.merge tighter limit') := by
  cases h with
  | none hp =>
    cases h' with
    | none hp' => exact .none fun a ↦ ⟨hp a, hp' a⟩
    | some hy hn hnear' hfar' =>
      exact .some hy hn (fun a ha ↦ hnear' a ha.2) fun a ha ↦ ⟨hp a, hfar' a ha⟩
  | @some x m hx hm hnear hfar₁ =>
    cases h' with
    | none hp' => exact .some hx hm (fun a ha ↦ hnear a ha.1) fun a ha ↦ ⟨hfar₁ a ha, hp' a⟩
    | @some y n hy hn hnear' hfar' =>
      refine .some (htighter x y m n hx hy) ?_ (fun a ha ↦ ?_) fun a ha ↦ ?_
      · obtain h | h := hchoose m n <;> rwa [h]
      · obtain h | h := hchoose m n <;> rw [h]
        · exact hnear a ha.1
        · exact hnear' a ha.2
      · obtain ⟨hm', hn'⟩ := hfar m n a ha
        exact ⟨hfar₁ a hm', hfar' a hn'⟩

/-- Where near and far are the same, the edge decides. -/
theorem iff_forall (h : Edge p near near limit) {a : α} :
    p a ↔ ∀ x, limit = Option.some x → ∃ n : ℤ, x.Denotes n ∧ near n a := by
  cases h with
  | none hp => simp [hp a]
  | @some x n hx _ hnear hfar =>
    constructor
    · intro ha y hy
      cases hy
      exact ⟨n, hx, hnear a ha⟩
    · intro h
      obtain ⟨m, hm, ha⟩ := h x rfl
      obtain rfl : m = n := by exact_mod_cast hm.unique hx
      exact hfar a ha

end Edge

theorem max_int {x y : Binary64} {m n : ℤ} (hx : x.Denotes m) (hy : y.Denotes n) :
    (x.max y).Denotes (m ⊔ n : ℤ) := by
  rw [Int.cast_max]
  exact hx.max hy

theorem min_int {x y : Binary64} {m n : ℤ} (hx : x.Denotes m) (hy : y.Denotes n) :
    (x.min y).Denotes (m ⊓ n : ℤ) := by
  rw [Int.cast_min]
  exact hx.min hy

variable {r : Range}

theorem holds_iff {q : ℚ} : r.Holds q ↔ r.HoldsAbove q ∧ r.HoldsBelow q :=
  ⟨fun h ↦ ⟨⟨h.gt, h.gte⟩, h.lt, h.lte⟩, fun h ↦ ⟨h.1.1, h.1.2, h.2.1, h.2.2⟩⟩

theorem lower?_eq_merge : r.lower? = (r.gt.map id).merge Binary64.max (r.gte.map id) := by
  rw [lower?]
  cases r.gt <;> cases r.gte <;> rfl

theorem upper?_eq_merge : r.upper? = (r.lt.map id).merge Binary64.min (r.lte.map id) := by
  rw [upper?]
  cases r.lt <;> cases r.lte <;> rfl

theorem lowerInt?_eq_merge : r.lowerInt? =
    (r.gt.map fun gt ↦ gt.floor.add 1).merge Binary64.max (r.gte.map ceil) := by
  rw [lowerInt?]
  cases r.gt <;> cases r.gte <;> rfl

theorem upperInt?_eq_merge : r.upperInt? =
    (r.lt.map fun lt ↦ lt.ceil.sub 1).merge Binary64.min (r.lte.map floor) := by
  rw [upperInt?]
  cases r.lt <;> cases r.lte <;> rfl

/-- A bound that stays where it is. -/
theorem unmoved (x : Binary64) (n : ℤ) (hn : |n| ≤ 2 ^ 50) (hx : x.Denotes n) :
    |id n| ≤ 2 ^ 50 + 1 ∧ (id x).Denotes (id n : ℤ) :=
  ⟨hn.trans (by decide), hx⟩

namespace Whole

variable (hw : r.Whole)

include hw

theorem isFinite : r.isFinite = true := by
  rw [isFinite_iff]
  intro x hx
  obtain ⟨n, -, f, hf, -⟩ := hw x hx
  exact ⟨f, hf⟩

theorem bound (limit : Option Binary64) (hl : limit ∈ [r.gt, r.gte, r.lt, r.lte]) :
    ∀ x, limit = some x → ∃ n : ℤ, |n| ≤ 2 ^ 50 ∧ x.Denotes n := by
  rintro x rfl
  exact hw x hl

theorem edge_lower :
    Edge r.HoldsAbove (fun n q ↦ (n : ℚ) ≤ q) (fun n q ↦ (n : ℚ) < q) r.lower? := by
  have hgt : Edge (fun q ↦ ∀ b, r.gt = some (.finite b) → b.value < q) (fun n q ↦ (n : ℚ) ≤ q)
      (fun n q ↦ (n : ℚ) < q) (r.gt.map id) :=
    .of_bound (fun p q ↦ p < q) id (hw.bound r.gt (by simp)) unmoved
      (fun n q ↦ le_of_lt) fun n q ↦ id
  have hgte : Edge (fun q ↦ ∀ b, r.gte = some (.finite b) → b.value ≤ q) (fun n q ↦ (n : ℚ) ≤ q)
      (fun n q ↦ (n : ℚ) < q) (r.gte.map id) :=
    .of_bound (fun p q ↦ p ≤ q) id (hw.bound r.gte (by simp)) unmoved
      (fun n q ↦ id) fun n q ↦ le_of_lt
  rw [lower?_eq_merge]
  refine hgt.merge hgte max_choice (fun x y m n ↦ max_int) fun m n q hq ↦ ?_
  rwa [Int.cast_max, max_lt_iff] at hq

theorem edge_upper :
    Edge r.HoldsBelow (fun n q ↦ q ≤ (n : ℚ)) (fun n q ↦ q < (n : ℚ)) r.upper? := by
  have hlt : Edge (fun q ↦ ∀ b, r.lt = some (.finite b) → q < b.value) (fun n q ↦ q ≤ (n : ℚ))
      (fun n q ↦ q < (n : ℚ)) (r.lt.map id) :=
    .of_bound (fun p q ↦ q < p) id (hw.bound r.lt (by simp)) unmoved
      (fun n q ↦ le_of_lt) fun n q ↦ id
  have hlte : Edge (fun q ↦ ∀ b, r.lte = some (.finite b) → q ≤ b.value) (fun n q ↦ q ≤ (n : ℚ))
      (fun n q ↦ q < (n : ℚ)) (r.lte.map id) :=
    .of_bound (fun p q ↦ q ≤ p) id (hw.bound r.lte (by simp)) unmoved
      (fun n q ↦ id) fun n q ↦ le_of_lt
  rw [upper?_eq_merge]
  refine hlt.merge hlte min_choice (fun x y m n ↦ min_int) fun m n q hq ↦ ?_
  rwa [Int.cast_min, lt_min_iff] at hq

/-- Among integers the edge is one of those that have the property. -/
theorem edge_lowerInt : Edge (fun m : ℤ ↦ r.HoldsAbove m) (· ≤ ·) (· ≤ ·) r.lowerInt? := by
  have hgt : Edge (fun m : ℤ ↦ ∀ b, r.gt = some (.finite b) → b.value < m) (· ≤ ·) (· ≤ ·)
      (r.gt.map fun gt ↦ gt.floor.add 1) := by
    refine .of_bound (fun q (m : ℤ) ↦ q < m) (· + 1) (hw.bound r.gt (by simp)) ?_ ?_ ?_
    · intro x n hn hx
      rw [abs_le] at hn
      exact ⟨abs_le.mpr (by omega), hx.floor_int.add_int denotes_one (abs_le.mpr (by omega))⟩
    · exact fun n m h ↦ Int.add_one_le_of_lt (Int.cast_lt.mp h)
    · exact fun n m h ↦ Int.cast_lt.mpr (Int.lt_of_add_one_le h)
  have hgte : Edge (fun m : ℤ ↦ ∀ b, r.gte = some (.finite b) → b.value ≤ m) (· ≤ ·) (· ≤ ·)
      (r.gte.map ceil) := by
    refine .of_bound (fun q (m : ℤ) ↦ q ≤ m) id (hw.bound r.gte (by simp)) ?_ ?_ ?_
    · exact fun x n hn hx ↦ ⟨hn.trans (by decide), hx.ceil_int⟩
    · exact fun n m h ↦ Int.cast_le.mp h
    · exact fun n m h ↦ Int.cast_le.mpr h
  rw [lowerInt?_eq_merge]
  exact hgt.merge hgte max_choice (fun x y m n ↦ max_int) fun m n a ↦ max_le_iff.mp

theorem edge_upperInt :
    Edge (fun m : ℤ ↦ r.HoldsBelow m) (fun n m ↦ m ≤ n) (fun n m ↦ m ≤ n) r.upperInt? := by
  have hlt : Edge (fun m : ℤ ↦ ∀ b, r.lt = some (.finite b) → m < b.value) (fun n m ↦ m ≤ n)
      (fun n m ↦ m ≤ n) (r.lt.map fun lt ↦ lt.ceil.sub 1) := by
    refine .of_bound (fun q (m : ℤ) ↦ m < q) (· - 1) (hw.bound r.lt (by simp)) ?_ ?_ ?_
    · intro x n hn hx
      rw [abs_le] at hn
      exact ⟨abs_le.mpr (by omega), hx.ceil_int.sub_int denotes_one (abs_le.mpr (by omega))⟩
    · exact fun n m h ↦ Int.le_sub_one_of_lt (Int.cast_lt.mp h)
    · exact fun n m h ↦ Int.cast_lt.mpr (Int.lt_of_le_sub_one h)
  have hlte : Edge (fun m : ℤ ↦ ∀ b, r.lte = some (.finite b) → m ≤ b.value) (fun n m ↦ m ≤ n)
      (fun n m ↦ m ≤ n) (r.lte.map floor) := by
    refine .of_bound (fun q (m : ℤ) ↦ m ≤ q) id (hw.bound r.lte (by simp)) ?_ ?_ ?_
    · exact fun x n hn hx ↦ ⟨hn.trans (by decide), hx.floor_int⟩
    · exact fun n m h ↦ Int.cast_le.mp h
    · exact fun n m h ↦ Int.cast_le.mpr h
  rw [upperInt?_eq_merge]
  exact hlt.merge hlte min_choice (fun x y m n ↦ min_int) fun m n a ↦ le_min_iff.mp

end Whole

theorem contains_iff_holds (hr : r.isFinite = true) {x : Binary64} {q : ℚ} (hx : x.Denotes q) :
    r.contains x = true ↔ r.Holds q := by
  have hgt : (∀ y, r.gt = some y → y.lt x = true) ↔ ∀ b, r.gt = some (.finite b) → b.value < q :=
    forall_bound_iff hr (by simp) fun b ↦ (denotes_finite b).lt_iff hx
  have hgte : (∀ y, r.gte = some y → y.le x = true) ↔
      ∀ b, r.gte = some (.finite b) → b.value ≤ q :=
    forall_bound_iff hr (by simp) fun b ↦ (denotes_finite b).le_iff hx
  have hlt : (∀ y, r.lt = some y → x.lt y = true) ↔ ∀ b, r.lt = some (.finite b) → q < b.value :=
    forall_bound_iff hr (by simp) fun b ↦ hx.lt_iff (denotes_finite b)
  have hlte : (∀ y, r.lte = some y → x.le y = true) ↔
      ∀ b, r.lte = some (.finite b) → q ≤ b.value :=
    forall_bound_iff hr (by simp) fun b ↦ hx.le_iff (denotes_finite b)
  simp only [contains, Bool.and_eq_true, Option.all_eq_true, hgt, hgte, hlt, hlte]
  exact ⟨fun h ↦ ⟨h.1.1.1, h.1.1.2, h.1.2, h.2⟩, fun h ↦ ⟨⟨⟨h.gt, h.gte⟩, h.lt⟩, h.lte⟩⟩

/-- The midpoint of two whole numbers is not rounded. -/
theorem denotes_midpoint {low high : Binary64} {m n : ℤ} (hlow : low.Denotes m)
    (hhigh : high.Denotes n) (hm : |m| ≤ 2 ^ 50 + 1) (hn : |n| ≤ 2 ^ 50 + 1) :
    (low.add (high.sub low).half).Denotes ((m + n : ℤ) / 2) := by
  rw [abs_le] at hm hn
  have hdiff : |n - m| ≤ 2 ^ 53 := abs_le.mpr (by omega)
  have hsum : |m + n| ≤ 2 ^ 53 := abs_le.mpr (by omega)
  have hhalf := ((hhigh.sub_int hlow hdiff).half (isValue_half hdiff).within).denotes
    (isValue_half hdiff)
  have heq : (m : ℚ) + ((n - m : ℤ) : ℚ) / 2 = ((m + n : ℤ) : ℚ) / 2 := by
    push_cast
    ring
  have hadd := hlow.add hhalf (heq ▸ (isValue_half hsum).within)
  rw [heq] at hadd
  exact hadd.denotes (isValue_half hsum)

/-- What is picked is finite, and satisfies the bounds if anything does. -/
theorem Whole.pickNum_holds (hw : r.Whole) {x : Binary64} {q : ℚ} (hx : x.Denotes q) :
    ∃ p, (r.pickNum x).Denotes p ∧ ((∃ q, r.Holds q) → r.Holds p) := by
  rw [pickNum]
  split_ifs with hc
  · exact ⟨q, hx, fun _ ↦ (contains_iff_holds hw.isFinite hx).mp hc⟩
  simp only [holds_iff]
  have hlower := hw.edge_lower
  have hupper := hw.edge_upper
  generalize r.lower? = low at hlower
  generalize r.upper? = high at hupper
  cases hlower with
  | none habove =>
    cases hupper with
    | none hbelow => exact ⟨q, hx, fun _ ↦ ⟨habove q, hbelow q⟩⟩
    | @some high n hhigh hn near far =>
      rw [abs_le] at hn
      refine ⟨_, hhigh.sub_int denotes_one (abs_le.mpr (by omega)), fun _ ↦ ⟨habove _, far _ ?_⟩⟩
      push_cast
      linarith
  | @some low m hlow hm near far =>
    cases hupper with
    | none hbelow =>
      rw [abs_le] at hm
      refine ⟨_, hlow.add_int denotes_one (abs_le.mpr (by omega)), fun _ ↦ ⟨far _ ?_, hbelow _⟩⟩
      push_cast
      linarith
    | @some high n hhigh hn near' far' =>
      refine ⟨_, denotes_midpoint hlow hhigh hm hn, ?_⟩
      rintro ⟨p, hp⟩
      have hlowp := near p hp.1
      have hphigh := near' p hp.2
      push_cast
      obtain hlt | heq := (hlowp.trans hphigh).lt_or_eq
      · exact ⟨far _ (by linarith), far' _ (by linarith)⟩
      · -- only one number is left
        have hmid : ((m : ℚ) + n) / 2 = p := by linarith
        rwa [hmid]

/-- The midpoint of two whole numbers, made whole. -/
theorem denotes_floor_midpoint {low high : Binary64} {m n : ℤ} (hlow : low.Denotes m)
    (hhigh : high.Denotes n) (hm : |m| ≤ 2 ^ 50 + 1) (hn : |n| ≤ 2 ^ 50 + 1) :
    (low.add high).half.floor.Denotes ((m + n) / 2 : ℤ) := by
  rw [abs_le] at hm hn
  have hsum : |m + n| ≤ 2 ^ 53 := abs_le.mpr (by omega)
  have hhalf := ((hlow.add_int hhigh hsum).half (isValue_half hsum).within).denotes
    (isValue_half hsum)
  have hfloor : ⌊((m + n : ℤ) : ℚ) / 2⌋ = (m + n) / 2 := Rat.floor_intCast_div_natCast (m + n) 2
  have hvalue : IsValue ((m + n) / 2 : ℤ) := isValue_intCast (abs_le.mpr (by omega))
  rw [← hfloor] at hvalue ⊢
  exact hhalf.floor hvalue

/-- The integer that is picked satisfies the bounds if any does, and is the preferred one then if
that satisfies them. -/
theorem Whole.pickInt_holds (hw : r.Whole) {x : Binary64} {p : ℤ} (hx : x.Denotes p)
    (h : ∃ n : ℤ, r.Holds n) :
    (∃ k : ℤ, (r.pickInt x).Denotes k ∧ r.Holds k) ∧ (r.Holds p → r.pickInt x = x) := by
  obtain ⟨a, ha⟩ := h
  simp only [holds_iff] at ha ⊢
  rw [pickInt]
  have hlower := hw.edge_lowerInt
  have hupper := hw.edge_upperInt
  generalize r.lowerInt? = low at hlower
  generalize r.upperInt? = high at hupper
  cases hlower with
  | none habove =>
    cases hupper with
    | none hbelow => exact ⟨⟨p, hx, habove p, hbelow p⟩, fun _ ↦ rfl⟩
    | @some high n hhigh hn near far =>
      simp only [hhigh.lt_iff hx, Int.cast_lt]
      split_ifs with hlt
      · exact ⟨⟨n, hhigh, habove n, far n le_rfl⟩, fun hp ↦ absurd hlt (near p hp.2).not_gt⟩
      · exact ⟨⟨p, hx, habove p, far p (not_lt.mp hlt)⟩, fun _ ↦ rfl⟩
  | @some low m hlow hm near far =>
    cases hupper with
    | none hbelow =>
      simp only [hx.lt_iff hlow, Int.cast_lt]
      split_ifs with hlt
      · exact ⟨⟨m, hlow, far m le_rfl, hbelow m⟩, fun hp ↦ absurd hlt (near p hp.1).not_gt⟩
      · exact ⟨⟨p, hx, far p (not_lt.mp hlt), hbelow p⟩, fun _ ↦ rfl⟩
    | @some high n hhigh hn near' far' =>
      have hma := near a ha.1
      have han := near' a ha.2
      simp only [Bool.or_eq_true, hx.lt_iff hlow, hhigh.lt_iff hx, Int.cast_lt]
      split_ifs with hout
      -- the bounds are not crossed, since there is an integer between them
      · refine ⟨⟨_, denotes_floor_midpoint hlow hhigh hm hn, far _ ?_, far' _ ?_⟩, fun hp ↦ ?_⟩
        · omega
        · omega
        · have hmp := near p hp.1
          have hpn := near' p hp.2
          omega
      · rw [not_or, not_lt, not_lt] at hout
        exact ⟨⟨p, hx, far p hout.1, far' p hout.2⟩, fun _ ↦ rfl⟩

/-- To every real number there is a rational one on the same side of every integer. -/
theorem exists_rat_alike (y : ℝ) :
    ∃ q : ℚ, ∀ n : ℤ, ((n : ℚ) < q ↔ (n : ℝ) < y) ∧ (q < n ↔ y < n) := by
  by_cases hy : (⌊y⌋ : ℝ) = y
  · refine ⟨⌊y⌋, fun n ↦ ?_⟩
    rw [← hy, Int.floor_intCast]
    exact ⟨by norm_cast, by norm_cast⟩
  · have hlt : ∀ n : ℤ, (n : ℝ) < y ↔ n ≤ ⌊y⌋ := by
      intro n
      have hne : (n : ℝ) ≠ y := by
        rintro rfl
        exact hy (by rw [Int.floor_intCast])
      rw [← hne.le_iff_lt, Int.le_floor]
    have hgt : ∀ n : ℤ, y < n ↔ ⌊y⌋ < n := fun n ↦ Int.floor_lt.symm
    -- between the integers around the real number
    have hfloor : ⌊(⌊y⌋ + 1 / 2 : ℚ)⌋ = ⌊y⌋ := by
      rw [Int.floor_intCast_add]
      norm_num
    refine ⟨⌊y⌋ + 1 / 2, fun n ↦ ⟨?_, ?_⟩⟩
    · have hne : (n : ℚ) ≠ ⌊y⌋ + 1 / 2 := by
        intro h
        have hn : n = ⌊y⌋ := by rw [← hfloor, ← h, Int.floor_intCast]
        rw [hn] at h
        linarith
      rw [hlt, ← hne.le_iff_lt, ← Int.le_floor, hfloor]
    · rw [hgt, ← Int.floor_lt, hfloor]

/-- Whole bounds that a real number satisfies are satisfied by a rational one. -/
theorem Whole.exists_holds (hw : r.Whole) (h : ∃ y, r.HoldsReal y) : ∃ q, r.Holds q := by
  obtain ⟨y, hy⟩ := h
  obtain ⟨q, hq⟩ := exists_rat_alike y
  have hbound : ∀ b : Finite, r.HasBound (.finite b) → ∃ n : ℤ, b.value = n := by
    intro b hb
    obtain ⟨n, -, hn⟩ := hw _ hb
    exact ⟨n, (denotes_finite b).unique hn⟩
  refine ⟨q, fun b hb ↦ ?_, fun b hb ↦ ?_, fun b hb ↦ ?_, fun b hb ↦ ?_⟩
  all_goals obtain ⟨n, hn⟩ := hbound b (by simp [HasBound, hb])
  · have h := hy.gt b hb
    rw [hn, Rat.cast_intCast] at h
    rwa [hn, (hq n).1]
  · have h := hy.gte b hb
    rw [hn, Rat.cast_intCast] at h
    rwa [hn, ← not_lt, (hq n).2, not_lt]
  · have h := hy.lt b hb
    rw [hn, Rat.cast_intCast] at h
    rwa [hn, (hq n).2]
  · have h := hy.lte b hb
    rw [hn, Rat.cast_intCast] at h
    rwa [hn, ← not_lt, (hq n).1, not_lt]

/-- Where the bounds are whole, the integers that satisfy them are those within the bounds computed
for integers, and what is picked satisfies them if it can. It is the preferred number if that
does. -/
theorem Whole.picks_hold (hw : r.Whole) :
    (∀ (x : Binary64) (n : ℤ), x.Denotes n → (r.contains x = true ↔ r.WithinInts n)) ∧
    ((∃ n : ℤ, r.Holds n) → ∀ (x : Binary64) (p : ℤ), x.Denotes p →
      (∃ k : ℤ, (r.pickInt x).Denotes k ∧ r.Holds k) ∧ r.contains (r.pickInt x) = true ∧
      (r.contains x = true → r.pickInt x = x)) ∧
    ((∃ y, r.HoldsReal y) → ∀ f : Finite,
      (∃ q, (r.pickNum (.finite f)).Denotes q ∧ r.Holds q) ∧
      r.contains (r.pickNum (.finite f)) = true ∧
      (r.contains (.finite f) = true → r.pickNum (.finite f) = .finite f)) := by
  refine ⟨fun x n hx ↦ ?_, fun h x p hx ↦ ?_, fun h f ↦ ?_⟩
  · rw [contains_iff_holds hw.isFinite hx, holds_iff]
    exact and_congr hw.edge_lowerInt.iff_forall hw.edge_upperInt.iff_forall
  · obtain ⟨⟨k, hk, hholds⟩, hkept⟩ := hw.pickInt_holds hx h
    rw [contains_iff_holds hw.isFinite hk, contains_iff_holds hw.isFinite hx]
    exact ⟨⟨k, hk, hholds⟩, hholds, hkept⟩
  · obtain ⟨q, hq, hholds⟩ := hw.pickNum_holds (denotes_finite f)
    have hq' := hholds (hw.exists_holds h)
    refine ⟨⟨q, hq, hq'⟩, (contains_iff_holds hw.isFinite hq).mpr hq', fun hf ↦ ?_⟩
    rw [pickNum, if_pos hf]

theorem Holds.real {q : ℚ} (h : r.Holds q) : r.HoldsReal q :=
  ⟨fun b hb ↦ by exact_mod_cast h.gt b hb, fun b hb ↦ by exact_mod_cast h.gte b hb,
    fun b hb ↦ by exact_mod_cast h.lt b hb, fun b hb ↦ by exact_mod_cast h.lte b hb⟩

def narrow : Range := { gt := some 1, gte := some 2, lt := some 3, lte := some 5 }

theorem narrow_whole : narrow.Whole := by
  intro x hx
  simp only [HasBound, narrow, List.mem_cons, Option.some.injEq, List.not_mem_nil, or_false] at hx
  obtain hx | hx | hx | hx := hx <;> rw [hx]
  · exact ⟨1, by decide, denotes_one⟩
  · exact ⟨2, by decide, denotes_ofInt (by decide)⟩
  · exact ⟨3, by decide, denotes_ofInt (by decide)⟩
  · exact ⟨5, by decide, denotes_ofInt (by decide)⟩

/-- Two is the one integer that is left, so it is picked, and it is kept. -/
theorem narrow_picks :
    narrow.WithinInts 2 ∧ (∃ k : ℤ, (narrow.pickInt 56).Denotes k ∧ narrow.Holds k) ∧
      narrow.pickInt 2 = 2 ∧ ∀ f : Finite, narrow.contains (narrow.pickNum (.finite f)) = true := by
  have htwo : (2 : Binary64).Denotes (2 : ℤ) := denotes_ofInt (by decide)
  have hsample : (56 : Binary64).Denotes (56 : ℤ) := denotes_ofInt (by decide)
  have hcontains : narrow.contains 2 = true := by decide +kernel
  have hholds := (contains_iff_holds narrow_whole.isFinite htwo).mp hcontains
  obtain ⟨hwithin, hint, hnum⟩ := narrow_whole.picks_hold
  exact ⟨(hwithin 2 2 htwo).mp hcontains, (hint ⟨2, hholds⟩ 56 56 hsample).1,
    (hint ⟨2, hholds⟩ 2 2 htwo).2.2 hcontains, fun f ↦ (hnum ⟨_, hholds.real⟩ f).2.1⟩

theorem contains_iff_forall {x : Binary64} : r.contains x = true ↔
    ∀ bound limit, r.limit? bound = some limit → Bound.holds limit x bound = true := by
  simp only [contains, Bool.and_eq_true, Option.all_eq_true]
  constructor
  · intro h bound limit hl
    cases bound with
    | gt => exact h.1.1.1 limit hl
    | gte => exact h.1.1.2 limit hl
    | lt => exact h.1.2 limit hl
    | lte => exact h.2 limit hl
  · exact fun h ↦ ⟨⟨⟨h .gt, h .gte⟩, h .lt⟩, h .lte⟩

theorem breach?_eq_none_iff_forall {n : Json.Number} : r.breach? n = none ↔
    ∀ bound limit, r.limit? bound = some limit →
      Bound.violated limit n.toBinary64 bound = false := by
  rw [breach?_eq_none_iff]
  constructor
  · intro h bound limit hl
    cases bound with
    | gt => exact h.gt limit hl
    | gte => exact h.gte limit hl
    | lt => exact h.lt limit hl
    | lte => exact h.lte limit hl
  · exact fun h ↦ ⟨h .gt, h .gte, h .lt, h .lte⟩

theorem nanFree_iff_forall : r.nanFree = true ↔ ∀ bound, r.limit? bound ≠ some .nan := by
  simp only [nanFree, List.all_cons, List.all_nil, Bool.and_true, Bool.and_eq_true, bne_iff_ne]
  constructor
  · intro h bound
    cases bound with
    | gt => exact h.1
    | gte => exact h.2.1
    | lt => exact h.2.2.1
    | lte => exact h.2.2.2
  · exact fun h ↦ ⟨h .gt, h .gte, h .lt, h .lte⟩

/-- A number is seen to satisfy the bounds if the check finds none violated and none of them is
`nan`; a `nan` bound is neither satisfied nor violated, and the check of schemas lets it pass. -/
theorem contains_iff_unbroken (r : Range) (n : Json.Number) :
    r.contains n.toBinary64 = true ↔ r.nanFree = true ∧ r.breach? n = none := by
  rw [contains_iff_forall, nanFree_iff_forall, breach?_eq_none_iff_forall]
  constructor
  · intro h
    have hnan : ∀ bound, r.limit? bound ≠ some .nan := by
      intro bound hl
      exact absurd (h bound .nan hl) (by rw [Bound.holds_nan]; decide)
    refine ⟨hnan, fun bound limit hl ↦ ?_⟩
    have hne : limit ≠ .nan := fun he ↦ hnan bound (he ▸ hl)
    have hholds := h bound limit hl
    rwa [bound.holds_eq_not_violated hne n.toBinary64_ne_nan, Bool.not_eq_true'] at hholds
  · rintro ⟨hnan, hviolated⟩ bound limit hl
    have hne : limit ≠ .nan := fun he ↦ hnan bound (he ▸ hl)
    rw [bound.holds_eq_not_violated hne n.toBinary64_ne_nan, hviolated bound limit hl]
    rfl

/-- The schema is accepted, and its type takes every number; but no number is seen to satisfy the
bound, so the sample that has every field has null for this one. -/
theorem nan_bound_sampled_null :
    let r : Range := { gte := some .nan }
    let s : Schema := ⟨9, "R", none, [{ Field.plain "n" (.num r) false with nullable := true }]⟩
    r.flaw? = none ∧ (∀ x, r.contains x = false) ∧ (∀ n, r.breach? n = none) ∧ s.Built ∧
      (∀ n rule, (FieldType.num r).check rule (.num n) = .ok (.scalar (.num n))) ∧
      s.sample true = .ok ⟨s, [.null]⟩ := by
  intro r s
  have hbreach : ∀ n, r.breach? n = none := by
    intro n
    rw [breach?_eq_none_iff_forall]
    intro bound limit hl
    cases bound <;> cases hl
    exact Bound.violated_nan .gte _
  refine ⟨rfl, fun x ↦ ?_, hbreach, .intro rfl nofun, fun n rule ↦ ?_, rfl⟩
  · rw [← Bool.not_eq_true, contains_iff_forall]
    intro h
    have hnan := h .gte .nan rfl
    rw [Bound.holds_nan] at hnan
    cases hnan
  · simp [FieldType.check, FieldType.accept, refuseNull, acceptNum, hbreach, guardBreach]

end Range

end TypedRecord
