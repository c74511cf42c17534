namespace TypedRecord

def wordCount : Nat := Nat.pow 2 64

def leastInt64 : Int := -(Nat.pow 2 63 : Nat)

def greatestInt64 : Int := (Nat.pow 2 63 : Nat) - 1

namespace Binary64

def spacing (n : Nat) : Nat := Nat.pow 2 (n.log2 - 52)

def overflow : Nat := Nat.pow 2 2098

/-- The counts that are magnitudes of finite numbers: at most 53 significant bits. -/
def Representable (n : Nat) : Prop := n < overflow ∧ spacing n ∣ n

instance (n : Nat) : Decidable (Representable n) := inferInstanceAs (Decidable (_ ∧ _))

/-- A sign and a magnitude, which counts units of `2 ^ -1074`, the least positive number. Both zeros
are present. -/
structure Finite where
  negative : Bool
  magnitude : Nat
  representable : Representable magnitude
deriving DecidableEq

def unitsPerOne : Nat := Nat.pow 2 1074

def Finite.units (x : Finite) : Int := if x.negative then -x.magnitude else x.magnitude

end Binary64

inductive Binary64
  | nan
  | infinite (negative : Bool)
  | finite (value : Binary64.Finite)
deriving DecidableEq

namespace Binary64

theorem spacing_pos (n : Nat) : 0 < spacing n := Nat.two_pow_pos _

theorem representable_zero : Representable 0 := ⟨by decide +kernel, Nat.dvd_zero _⟩

def zero (negative : Bool) : Binary64 := .finite ⟨negative, 0, representable_zero⟩

/-- The integer nearest to `num / den`; a half goes to the even neighbour. -/
def halfEven (num den : Nat) : Nat :=
  if 2 * (num % den) < den ∨ 2 * (num % den) = den ∧ num / den % 2 = 0 then num / den
  else num / den + 1

theorem halfEven_le (num den : Nat) : halfEven num den ≤ num / den + 1 := by
  unfold halfEven
  split <;> omega

theorem le_halfEven (num den : Nat) : num / den ≤ halfEven num den := by
  unfold halfEven
  split <;> omega

def nearest (num den : Nat) : Nat :=
  halfEven num (den * spacing (num / den)) * spacing (num / den)

/-- A magnitude has at most 53 significant bits above its spacing. -/
theorem quotient_lt (n : Nat) : n / spacing n < Nat.pow 2 53 := by
  have hn : n < 2 ^ (n.log2 + 1) := Nat.lt_log2_self
  have he : n.log2 + 1 ≤ 53 + (n.log2 - 52) := by omega
  rw [Nat.div_lt_iff_lt_mul (spacing_pos n), spacing, Nat.pow_eq, Nat.pow_eq, ← Nat.pow_add]
  exact Nat.lt_of_lt_of_le hn (Nat.pow_le_pow_right (by decide) he)

theorem spacing_dvd_of_le {k e : Nat} (hk : k ≤ Nat.pow 2 53) :
    spacing (k * Nat.pow 2 e) ∣ k * Nat.pow 2 e := by
  simp only [Nat.pow_eq, spacing] at hk ⊢
  have hle : k * 2 ^ e ≤ 2 ^ (53 + e) := by
    rw [Nat.pow_add]
    exact Nat.mul_le_mul_right _ hk
  by_cases hz : k * 2 ^ e = 0
  · rw [hz]
    exact Nat.dvd_zero _
  by_cases hlog : (k * 2 ^ e).log2 ≤ 52 + e
  · exact Nat.dvd_trans (Nat.pow_dvd_pow 2 (by omega)) (Nat.dvd_mul_left _ _)
  · have hge : 2 ^ (53 + e) ≤ k * 2 ^ e := (Nat.le_log2 hz).1 (by omega)
    have heq : k * 2 ^ e = 2 ^ (53 + e) := Nat.le_antisymm hle hge
    rw [heq, Nat.log2_two_pow]
    exact Nat.pow_dvd_pow 2 (by omega)

theorem spacing_nearest_dvd (num den : Nat) : spacing (nearest num den) ∣ nearest num den := by
  refine spacing_dvd_of_le (e := (num / den).log2 - 52) ?_
  have hle := halfEven_le num (den * spacing (num / den))
  rw [← Nat.div_div_eq_div_mul] at hle
  exact Nat.le_trans hle (quotient_lt (num / den))

def ofQuotient (negative : Bool) (num den : Nat) : Binary64 :=
  if h : nearest num den < overflow then
    .finite ⟨negative, nearest num den, h, spacing_nearest_dvd num den⟩
  else
    .infinite negative

def ofInt (n : Int) : Binary64 := ofQuotient (n < 0) (n.natAbs * unitsPerOne) 1

instance (n : Nat) : OfNat Binary64 n := ⟨ofInt n⟩

/-- The number nearest to `digits * 10 ^ exponent`. Past the cut-offs the answer no longer depends
on the exponent, and powers of ten of any size stay out of the computation. -/
def ofDecimal (negative : Bool) (digits : Nat) (exponent : Int) : Binary64 :=
  if digits = 0 then zero negative
  else if 400 < exponent then .infinite negative
  else if (digits.log2 : Int) + exponent < -400 then zero negative
  else match exponent with
    | .ofNat e => ofQuotient negative (digits * Nat.pow 10 e * unitsPerOne) 1
    | .negSucc e => ofQuotient negative (digits * unitsPerOne) (Nat.pow 10 (e + 1))

def lt : Binary64 → Binary64 → Bool
  | .finite x, .finite y => x.units < y.units
  | .infinite true, .finite _ => true
  | .infinite true, .infinite false => true
  | .finite _, .infinite false => true
  | _, _ => false

/-- Numeric equality, not identity. -/
def equal : Binary64 → Binary64 → Bool
  | .finite x, .finite y => x.units = y.units
  | .infinite a, .infinite b => a = b
  | _, _ => false

def le (x y : Binary64) : Bool := lt x y || equal x y

/-- The larger of two numbers; `nan` gives way to the other. -/
def max (x y : Binary64) : Binary64 :=
  if x = .nan then y else if lt x y then y else x

def min (x y : Binary64) : Binary64 :=
  if x = .nan then y else if lt y x then y else x

def isFinite : Binary64 → Bool
  | .finite _ => true
  | _ => false

theorem le_finite (x y : Finite) : le (.finite x) (.finite y) = decide (x.units ≤ y.units) := by
  simp only [le, lt, equal, ← Bool.decide_or]
  congr 1
  exact propext Int.le_iff_lt_or_eq.symm

theorem equal_self {x : Binary64} (hx : x ≠ .nan) : equal x x = true := by
  cases x with
  | nan => exact absurd rfl hx
  | infinite negative => simp [equal]
  | finite value => simp [equal]

theorem equal_comm (x y : Binary64) : equal x y = equal y x := by
  cases x <;> cases y <;> simp [equal, eq_comm]

def neg : Binary64 → Binary64
  | .nan => .nan
  | .infinite negative => .infinite !negative
  | .finite x => .finite { x with negative := !x.negative }

/-- Opposite numbers add up to the positive zero; only two negative zeros make a negative one. -/
def add : Binary64 → Binary64 → Binary64
  | .finite x, .finite y =>
    if x.units + y.units = 0 then zero (x.negative && y.negative)
    else ofQuotient (x.units + y.units < 0) (x.units + y.units).natAbs 1
  | .infinite a, .infinite b => if a = b then .infinite a else .nan
  | .infinite a, .finite _ => .infinite a
  | .finite _, .infinite b => .infinite b
  | .nan, _ => .nan
  | _, .nan => .nan

def sub (x y : Binary64) : Binary64 := add x (neg y)

def mul : Binary64 → Binary64 → Binary64
  | .finite x, .finite y =>
    ofQuotient (x.negative ^^ y.negative) (x.magnitude * y.magnitude) unitsPerOne
  | .infinite a, .infinite b => .infinite (a ^^ b)
  | .infinite a, .finite y => if y.magnitude = 0 then .nan else .infinite (a ^^ y.negative)
  | .finite x, .infinite b => if x.magnitude = 0 then .nan else .infinite (x.negative ^^ b)
  | .nan, _ => .nan
  | _, .nan => .nan

def half : Binary64 → Binary64
  | .finite x => ofQuotient x.negative x.magnitude 2
  | x => x

def toWhole (choose : Bool → Nat → Nat) : Binary64 → Binary64
  | .finite x => ofQuotient x.negative (choose x.negative x.magnitude * unitsPerOne) 1
  | x => x

def wholeBelow (magnitude : Nat) : Nat := magnitude / unitsPerOne

def wholeAbove (magnitude : Nat) : Nat := (magnitude + (unitsPerOne - 1)) / unitsPerOne

def floor : Binary64 → Binary64 :=
  toWhole fun negative ↦ if negative then wholeAbove else wholeBelow

def ceil : Binary64 → Binary64 :=
  toWhole fun negative ↦ if negative then wholeBelow else wholeAbove

/-- The nearest whole number; a half goes away from zero. -/
def round : Binary64 → Binary64 :=
  toWhole fun _ magnitude ↦ wholeBelow (magnitude + unitsPerOne / 2)

/-- The whole part, held within the range of a signed 64-bit integer; `nan` counts as zero. -/
def toInt64 : Binary64 → Int
  | .nan => 0
  | .infinite negative => if negative then leastInt64 else greatestInt64
  | .finite x =>
    let whole := x.units.tdiv unitsPerOne
    if whole < leastInt64 then leastInt64
    else if greatestInt64 < whole then greatestInt64
    else whole

end Binary64

end TypedRecord
