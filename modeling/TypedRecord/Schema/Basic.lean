import TypedRecord.Binary64

namespace TypedRecord

structure Range where
  gt : Option Binary64 := none
  gte : Option Binary64 := none
  lt : Option Binary64 := none
  lte : Option Binary64 := none

def Range.isUnbounded (r : Range) : Bool :=
  r.gt.isNone && r.gte.isNone && r.lt.isNone && r.lte.isNone

structure Limits where
  min : Option Nat := none
  max : Option Nat := none
deriving DecidableEq

structure Enumeration where
  name : String
  values : List String
deriving DecidableEq

def Enumeration.contains (e : Enumeration) (value : String) : Bool := e.values.contains value

mutual

inductive FieldType
  /-- A string, its length counted in characters. -/
  | str (limits : Limits)
  /-- A number without a fractional part. -/
  | int (range : Range)
  | num (range : Range)
  | bool
  /-- Any JSON value but null, kept as it is. -/
  | any
  | enum (values : Enumeration)
  /-- A value of any member; members are primitive. -/
  | union (members : List FieldType)
  | record (schema : Schema)
  | seq (items : FieldType) (limits : Limits)
  /-- String keys, and values of one type. -/
  | map (values : FieldType)

structure Field where
  name : String
  /-- The alias: the key of the field on the wire. -/
  wireKey : String
  type : FieldType
  required : Bool
  nullable : Bool
  description : Option String

/-- A declared record. The serial number tells declarations apart that are equal in all else. -/
structure Schema where
  serial : Nat
  name : String
  description : Option String
  fields : List Field

end

namespace FieldType

def kind : FieldType → String
  | .str _ => "str"
  | .int _ => "int"
  | .num _ => "num"
  | .bool => "bool"
  | .any => "any"
  | .enum _ => "enum"
  | .union _ => "or"
  | .record _ => "record"
  | .seq _ _ => "seq"
  | .map _ => "map"

def isPrimitive : FieldType → Bool
  | .str _ | .int _ | .num _ | .bool | .enum _ => true
  | .any | .union _ | .record _ | .seq _ _ | .map _ => false

def range? : FieldType → Option Range
  | .int range | .num range => some range
  | _ => none

end FieldType

def Field.plain (name : String) (type : FieldType) (required : Bool) : Field where
  name
  wireKey := name
  type
  required
  nullable := false
  description := none

namespace Schema

def length (s : Schema) : Nat := s.fields.length

def isEmpty (s : Schema) : Bool := s.fields.isEmpty

def locate? (s : Schema) (name : String) : Option (Field × Nat) :=
  s.fields.zipIdx.find? (·.1.name = name)

def field? (s : Schema) (name : String) : Option Field := (s.locate? name).map Prod.fst

def position? (s : Schema) (name : String) : Option Nat := (s.locate? name).map Prod.snd

def requiredFields (s : Schema) : List Field := s.fields.filter (·.required)

end Schema

/-- Bounds compare by value, so a schema with a `nan` bound is unequal even to itself. -/
def Range.equalBound : Option Binary64 → Option Binary64 → Bool
  | none, none => true
  | some x, some y => x.equal y
  | _, _ => false

def Range.equal (r s : Range) : Bool :=
  equalBound r.gt s.gt && equalBound r.gte s.gte && equalBound r.lt s.lt && equalBound r.lte s.lte

mutual

def FieldType.equal : FieldType → FieldType → Bool
  | .str l, .str m => l = m
  | .int r, .int s => r.equal s
  | .num r, .num s => r.equal s
  | .bool, .bool => true
  | .any, .any => true
  | .enum e, .enum f => e = f
  | .union ts, .union us => FieldType.equalAll ts us
  | .record s, .record t => s.equal t
  | .seq t l, .seq u m => t.equal u && l = m
  | .map t, .map u => t.equal u
  | _, _ => false

def FieldType.equalAll : List FieldType → List FieldType → Bool
  | [], [] => true
  | t :: ts, u :: us => t.equal u && FieldType.equalAll ts us
  | _, _ => false

def Field.equal : Field → Field → Bool
  | ⟨name, wireKey, type, required, nullable, description⟩, f =>
    name = f.name && wireKey = f.wireKey && type.equal f.type && required = f.required &&
      nullable = f.nullable && description = f.description

def Field.equalAll : List Field → List Field → Bool
  | [], [] => true
  | f :: fs, g :: gs => f.equal g && Field.equalAll fs gs
  | _, _ => false

def Schema.equal : Schema → Schema → Bool
  | ⟨_, name, description, fields⟩, s =>
    name = s.name && description = s.description && Field.equalAll fields s.fields

end

/-- Whether records of one schema may stand where the other is expected: the schemas come from one
declaration, or are structurally equal. -/
def Schema.sameAs (s t : Schema) : Bool := s.serial = t.serial || s.equal t

theorem Schema.sameAs_self (s : Schema) : s.sameAs s = true := by simp [sameAs]

end TypedRecord
