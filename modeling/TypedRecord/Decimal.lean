import TypedRecord.Binary64

namespace TypedRecord

structure Decimal where
  digits : Nat
  exponent : Int
deriving DecidableEq

namespace Decimal

inductive Tie
  | toEven
  | up
deriving DecidableEq

structure Scaled where
  num : Nat
  den : Nat
  /-- How many parts of the numerator make up one unit. -/
  parts : Nat

open Binary64 in
def scale (magnitude : Nat) : Int → Scaled
  | .ofNat e => ⟨magnitude, unitsPerOne * Nat.pow 10 e, 1⟩
  | .negSucc e => ⟨magnitude * Nat.pow 10 (e + 1), unitsPerOne, Nat.pow 10 (e + 1)⟩

/-- Whether a neighbour at distance `gap`, in units, rounds to `magnitude`. The reals on the lower
side end half as far away where the spacing halves, and an end belongs to an even significand. -/
def within (magnitude parts gap : Nat) (isBelow : Bool) : Bool :=
  let spacing := Binary64.spacing magnitude
  let reach :=
    if isBelow ∧ 1 < spacing ∧ magnitude = Nat.pow 2 magnitude.log2 then spacing else 2 * spacing
  if magnitude / spacing % 2 = 0 then 4 * gap ≤ reach * parts else 4 * gap < reach * parts

def onGrid (tie : Tie) (magnitude : Nat) (exponent : Int) : Option Decimal :=
  let s := scale magnitude exponent
  let low := s.num / s.den
  let below := s.num % s.den
  let above := s.den - below
  match within magnitude s.parts below true, within magnitude s.parts above false with
  | false, false => none
  | true, false => some ⟨low, exponent⟩
  | false, true => some ⟨low + 1, exponent⟩
  | true, true =>
    if below < above then some ⟨low, exponent⟩
    else if above < below then some ⟨low + 1, exponent⟩
    else match tie with
      | .up => some ⟨low + 1, exponent⟩
      | .toEven => some ⟨if low % 2 = 0 then low else low + 1, exponent⟩

def width (n : Nat) : Nat := (Nat.toDigits 10 n).length

def leading (magnitude : Nat) : Int :=
  let whole := magnitude / Binary64.unitsPerOne
  if whole = 0 then
    -- Scaled by `10 ^ 324`, even the least magnitude has a whole part.
    (width (magnitude * Nat.pow 10 324 / Binary64.unitsPerOne) : Int) - 325
  else (width whole : Int) - 1

def order (d : Decimal) : Int := d.exponent + (width d.digits - 1 : Nat)

def trim : Nat → Decimal → Decimal
  | 0, d => d
  | fuel + 1, d =>
    if d.digits ≠ 0 ∧ d.digits % 10 = 0 then trim fuel ⟨d.digits / 10, d.exponent + 1⟩ else d

/-- The shortest decimal that reads back as a positive magnitude: the nearer neighbour on the first
grid of so many digits that has one. 17 digits are always enough. -/
def shortest (tie : Tie) (magnitude : Nat) : Decimal :=
  let found := (List.range 17).findSome? fun n : Nat ↦
    onGrid tie magnitude (leading magnitude - n)
  trim 17 (found.getD ⟨0, 0⟩)

structure Layout where
  tie : Tie
  /-- Whether a number whose leading digit has this exponent is written without an exponent. -/
  isPositional : Int → Bool
  /-- What follows the digits of a whole number. -/
  wholeMark : String

def digitText (n : Nat) : String := String.ofList (Nat.toDigits 10 n)

def zeros (n : Nat) : String := String.ofList (List.replicate n '0')

def positional (wholeMark : String) (d : Decimal) : String :=
  match d.exponent with
  | .ofNat e => digitText d.digits ++ zeros e ++ wholeMark
  | .negSucc e =>
    let places := e + 1
    let text := digitText d.digits
    let padded := zeros (places + 1 - text.length) ++ text
    String.ofList (padded.toList.take (padded.length - places)) ++ "." ++
      String.ofList (padded.toList.drop (padded.length - places))

def scientific (d : Decimal) : String :=
  match Nat.toDigits 10 d.digits with
  | [] => ""
  | first :: rest =>
    let exponent := d.order
    let fraction := if rest.isEmpty then "" else "." ++ String.ofList rest
    let sign := if exponent < 0 then "-" else "+"
    String.ofList [first] ++ fraction ++ "e" ++ sign ++ digitText exponent.natAbs

def Layout.magnitudeText (layout : Layout) (magnitude : Nat) : String :=
  if magnitude = 0 then "0" ++ layout.wholeMark
  else
    let d := shortest layout.tie magnitude
    if layout.isPositional d.order then positional layout.wholeMark d else scientific d

def Layout.text (layout : Layout) (x : Binary64.Finite) : String :=
  (if x.negative then "-" else "") ++ layout.magnitudeText x.magnitude

end Decimal

end TypedRecord
