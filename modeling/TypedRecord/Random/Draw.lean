import TypedRecord.Binary64

namespace TypedRecord

class WordSource (σ : Type) where
  next : σ → UInt64 × σ
  /-- How many words one draw may reject before it gives up. -/
  patience : σ → Nat

structure SplitMix where
  state : UInt64

def SplitMix.next (s : SplitMix) : UInt64 × SplitMix :=
  let state := s.state + 0x9E3779B97F4A7C15
  let z := (state ^^^ (state >>> 30)) * 0xBF58476D1CE4E5B9
  let z := (z ^^^ (z >>> 27)) * 0x94D049BB133111EB
  (z ^^^ (z >>> 31), ⟨state⟩)

structure SuppliedWords where
  words : List UInt64
  rest : SplitMix

namespace SuppliedWords

def next : SuppliedWords → UInt64 × SuppliedWords
  | ⟨[], rest⟩ => (rest.next.1, ⟨[], rest.next.2⟩)
  | ⟨word :: words, rest⟩ => (word, ⟨words, rest⟩)

/-- The generator runs through all words before it repeats, so one of this many is accepted. -/
instance : WordSource SuppliedWords where
  next := next
  patience s := s.words.length + wordCount

end SuppliedWords

/-- A draw uses up words; it fails only if a source keeps giving words that have to be rejected. -/
abbrev Draw (σ α : Type) := StateT σ Option α

namespace Draw

variable {σ α : Type} [WordSource σ]

def word : Draw σ UInt64 := fun s ↦ some (WordSource.next s)

def coin : Draw σ Bool := do return (← word).toNat < Nat.pow 2 63

def oneInFour : Draw σ Bool := do return (← word).toNat < Nat.pow 2 62

def bits (width : Nat) : Draw σ Nat := do return (← word).toNat % Nat.pow 2 width

def retry (attempt : Draw σ (Option α)) : Nat → Draw σ α
  | 0 => failure
  | patience + 1 => do
    match ← attempt with
    | some a => return a
    | none => retry attempt patience

def patiently (attempt : Draw σ (Option α)) : Draw σ α :=
  fun s ↦ retry attempt (WordSource.patience s) s

/-- A number below `range`: the high half of the product with a draw of `width` bits, where draws
whose low half lies beyond `zone` are rejected. -/
def below (width zone range : Nat) : Draw σ Nat :=
  patiently do
    let product := (← bits width) * range
    return if product % Nat.pow 2 width ≤ zone then some (product / Nat.pow 2 width) else none

def topZone (width range : Nat) : Nat := range * Nat.pow 2 (width - 1 - range.log2) - 1

def fairZone (width range : Nat) : Nat := Nat.pow 2 width - 1 - (Nat.pow 2 width - range) % range

def between (low high : Nat) : Draw σ Nat := do
  let range := high - low + 1
  return low + (← below 64 (topZone 64 range) range)

/-- A signed 64-bit integer from `low` to `high`; if that is every one, a word is read as it is. -/
def intBetween (low high : Int) : Draw σ Int := do
  let range := (high - low + 1).toNat
  if range = wordCount then return (Int.ofNat (← word).toNat).bmod wordCount
  else return low + (← below 64 (topZone 64 range) range)

def choice (count : Nat) : Draw σ Nat := below 32 (topZone 32 count) count

def letter : Draw σ Char := do
  return Char.ofNat ('a'.toNat + (← below 32 (fairZone 32 26) 26))

def unit : Draw σ Binary64 := do
  return .ofQuotient false ((← word).toNat / Nat.pow 2 11 * Binary64.unitsPerOne) (Nat.pow 2 53)

def floatBetween (low high : Binary64) : Draw σ Binary64 :=
  patiently do
    let fraction := Binary64.ofQuotient false
      ((← word).toNat / Nat.pow 2 12 * Binary64.unitsPerOne) (Nat.pow 2 52)
    let x := (fraction.mul (high.sub low)).add low
    return if x.lt high then some x else none

def timesFrom (draw : Nat → Draw σ α) : Nat → Nat → Draw σ (List α)
  | _, 0 => return []
  | i, count + 1 => do
    let a ← draw i
    return a :: (← timesFrom draw (i + 1) count)

def times (count : Nat) (draw : Nat → Draw σ α) : Draw σ (List α) := timesFrom draw 0 count

end Draw

end TypedRecord
