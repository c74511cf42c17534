import TypedRecord.Json.Basic
import TypedRecord.Schema.Basic

namespace TypedRecord

mutual

inductive Value
  /-- A primitive, a member of an enumeration or union, or untyped JSON. -/
  | scalar (json : Json)
  | record (value : Record)
  | list (items : List Value)
  /-- Entries in the order in which they came. -/
  | map (entries : List (String × Value))

/-- The state of a field: never supplied, supplied as null, or set. -/
inductive Slot
  | absent
  | null
  | set (value : Value)

structure Record where
  schema : Schema
  slots : List Slot

end

namespace Slot

def isExplicit : Slot → Bool
  | .absent => false
  | .null | .set _ => true

def isNull : Slot → Bool
  | .null => true
  | .absent | .set _ => false

def value? : Slot → Option Value
  | .set value => some value
  | .absent | .null => none

end Slot

mutual

def Value.equal : Value → Value → Bool
  | .scalar x, .scalar y => x.equal y
  | .record r, .record s => r.equal s
  | .list xs, .list ys => Value.equalAll xs ys
  | .map xs, .map ys => Value.equalEntries xs ys
  | _, _ => false

def Value.equalAll : List Value → List Value → Bool
  | [], [] => true
  | x :: xs, y :: ys => x.equal y && Value.equalAll xs ys
  | _, _ => false

/-- Unlike JSON objects, maps compare in order. -/
def Value.equalEntries : List (String × Value) → List (String × Value) → Bool
  | [], [] => true
  | (key, x) :: xs, (key', y) :: ys => key = key' && x.equal y && Value.equalEntries xs ys
  | _, _ => false

def Slot.equal : Slot → Slot → Bool
  | .absent, .absent => true
  | .null, .null => true
  | .set x, .set y => x.equal y
  | _, _ => false

def Slot.equalAll : List Slot → List Slot → Bool
  | [], [] => true
  | x :: xs, y :: ys => x.equal y && Slot.equalAll xs ys
  | _, _ => false

def Record.equal : Record → Record → Bool
  | ⟨schema, slots⟩, r => schema.equal r.schema && Slot.equalAll slots r.slots

end

end TypedRecord
