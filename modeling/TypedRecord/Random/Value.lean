import TypedRecord.Random.Draw
import TypedRecord.Sample

namespace TypedRecord

variable {σ : Type} [WordSource σ]

namespace Draw

/-- How far a drawn number may lie from the only bound, or from zero if there is none. -/
def span : Binary64 := 1000

def textSlack : Nat := 12

def itemSlack : Nat := 3

def lengthWithin (limits : Limits) (slack : Nat) : Draw σ Nat :=
  let min := limits.min.getD 0
  between min (max (limits.max.getD (min + slack)) min)

def text (limits : Limits) : Draw σ String := do
  let length ← lengthWithin limits textSlack
  return String.ofList (← times length fun _ ↦ letter)

def spread : Option Binary64 → Option Binary64 → Binary64 × Binary64
  | some low, some high => (low, high)
  | some low, none => (low, low.add span)
  | none, some high => (high.sub span, high)
  | none, none => (span.neg, span)

def intWithin (range : Range) : Draw σ Binary64 := do
  let (low, high) := spread range.lowerInt? range.upperInt?
  if high.lt low then return range.pickInt 0
  else return .ofInt (← intBetween low.toInt64 high.toInt64)

def numWithin (range : Range) : Draw σ Binary64 := do
  let (low, high) := spread range.lower? range.upper?
  let x := low.add ((← unit).mul (high.sub low))
  return if range.contains x then x else range.pickNum x

def untyped : Draw σ Json := do
  match ← choice 4 with
  | 0 => return .bool (← coin)
  | 1 => return .wholeNumber (← floatBetween span.neg span).round
  | 2 => return .str (← text {})
  | _ => return .obj [("n", .wholeNumber (← floatBetween 0 span).round)]

end Draw

mutual

/-- A value of a type, null only if no value of the type is known. -/
def FieldType.random : FieldType → Draw σ Json
  | .str limits => return .str (← Draw.text limits)
  | .int range => return .wholeNumber (← Draw.intWithin range)
  | .num range => return .float (← Draw.numWithin range)
  | .bool => return .bool (← Draw.coin)
  | .any => Draw.untyped
  | .enum e =>
    if e.values.isEmpty then return .null
    else return (e.values[← Draw.between 0 (e.values.length - 1)]?.map Json.str).getD .null
  | .union members =>
    if members.isEmpty then return .null
    else do FieldType.randomAt members (← Draw.between 0 (members.length - 1))
  | .record schema => return .obj (← schema.randomEntries)
  | .seq items limits => do
    let count ← Draw.lengthWithin limits Draw.itemSlack
    return .arr (← Draw.times count fun _ ↦ items.random)
  | .map values => do
    let count ← Draw.between 0 Draw.itemSlack
    return .obj (← Draw.times count fun i ↦ do
      return ("k" ++ Decimal.digitText i, ← values.random))

def FieldType.randomAt : List FieldType → Nat → Draw σ Json
  | [], _ => return .null
  | t :: _, 0 => t.random
  | _ :: rest, i + 1 => FieldType.randomAt rest i

def Schema.randomEntries : Schema → Draw σ (List (String × Json))
  | ⟨_, _, _, fields⟩ => Field.randomAll fields

def Field.randomAll : List Field → Draw σ (List (String × Json))
  | [] => return []
  | f :: rest => do
    let entries ← f.random
    return entries ++ (← Field.randomAll rest)

def Field.random : Field → Draw σ (List (String × Json))
  | ⟨name, _, type, required, nullable, _⟩ => do
    if !required then
      if ← Draw.coin then return []
    if nullable then
      if ← Draw.oneInFour then return [(name, .null)]
    return [(name, ← type.random)]

end

def Schema.random (s : Schema) : Draw σ (Except ValidationError Record) := do
  let entries ← s.randomEntries
  return s.construct (entries.map fun (name, value) ↦ (name, .ofJson value))

end TypedRecord
