import TypedRecord.Path
import TypedRecord.Record.Basic

namespace TypedRecord

namespace Value

def json? : Value → Option Json
  | .scalar json => some json
  | _ => none

def string? (v : Value) : Option String :=
  match v.json? with
  | some (.str s) => some s
  | _ => none

/-- An integer within the range of a signed 64-bit one; floats never count. -/
def int64? (v : Value) : Option Int :=
  match v.json? with
  | some (.num (.int n)) => if leastInt64 ≤ n ∧ n ≤ greatestInt64 then some n else none
  | _ => none

def number? (v : Value) : Option Binary64 :=
  match v.json? with
  | some (.num n) => some n.toBinary64
  | _ => none

def bool? (v : Value) : Option Bool :=
  match v.json? with
  | some (.bool b) => some b
  | _ => none

def record? : Value → Option Record
  | .record r => some r
  | _ => none

def list? : Value → Option (List Value)
  | .list items => some items
  | _ => none

def map? : Value → Option (List (String × Value))
  | .map entries => some entries
  | _ => none

end Value

namespace Record

def fields (r : Record) : List (Field × Slot) := r.schema.fields.zip r.slots

def slot? (r : Record) (name : String) : Option Slot := do
  r.slots[← r.schema.position? name]?

def get? (r : Record) (name : String) : Option Value := (r.slot? name).bind Slot.value?

def isExplicit (r : Record) (name : String) : Bool := (r.slot? name).any Slot.isExplicit

def isNull (r : Record) (name : String) : Bool := (r.slot? name).any Slot.isNull

end Record

namespace Value

def step? : Value → Path.Step → Option Value
  | .record r, .key name => r.get? name
  | .map entries, .key name => Entries.get? name entries
  | .list items, .index i => items[i]?
  | _, _ => none

def follow? (v : Value) (p : Path) : Option Value := p.steps.foldlM step? v

end Value

end TypedRecord
