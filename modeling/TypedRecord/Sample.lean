import TypedRecord.Record.Construct

namespace TypedRecord

namespace Range

open Binary64

/-- Whether a number is seen to satisfy every bound; a `nan` bound is satisfied by nothing. -/
def contains (r : Range) (x : Binary64) : Bool :=
  r.gt.all (·.lt x) && r.gte.all (·.le x) && r.lt.all x.lt && r.lte.all x.le

def lower? (r : Range) : Option Binary64 :=
  match r.gt, r.gte with
  | some gt, some gte => some (gt.max gte)
  | gt, gte => gt.or gte

def upper? (r : Range) : Option Binary64 :=
  match r.lt, r.lte with
  | some lt, some lte => some (lt.min lte)
  | lt, lte => lt.or lte

def lowerInt? (r : Range) : Option Binary64 :=
  let next := r.gt.map fun gt ↦ gt.floor.add 1
  match next, r.gte.map ceil with
  | some gt, some gte => some (gt.max gte)
  | gt, gte => gt.or gte

def upperInt? (r : Range) : Option Binary64 :=
  let next := r.lt.map fun lt ↦ lt.ceil.sub 1
  match next, r.lte.map floor with
  | some lt, some lte => some (lt.min lte)
  | lt, lte => lt.or lte

def pickInt (r : Range) (preferred : Binary64) : Binary64 :=
  match r.lowerInt?, r.upperInt? with
  | some low, some high =>
    if preferred.lt low || high.lt preferred then (low.add high).half.floor else preferred
  | some low, none => if preferred.lt low then low else preferred
  | none, some high => if high.lt preferred then high else preferred
  | none, none => preferred

def pickNum (r : Range) (preferred : Binary64) : Binary64 :=
  if r.contains preferred then preferred
  else match r.lower?, r.upper? with
    | some low, some high => low.add (high.sub low).half
    | some low, none => low.add 1
    | none, some high => high.sub 1
    | none, none => preferred

end Range

def Json.wholeNumber (x : Binary64) : Json := .int x.toInt64

def sampleInt : Binary64 := 56

def sampleNum : Binary64 := .ofQuotient false (3 * Binary64.unitsPerOne) 2

mutual

/-- The sample of a type; records have their optional fields only if asked for. -/
def FieldType.sample (withOptional : Bool) : FieldType → Json
  | .str limits => .str (String.ofList (List.replicate (limits.min.getD 0) 'x'))
  | .int range => .wholeNumber (range.pickInt sampleInt)
  | .num range => .float (range.pickNum sampleNum)
  | .bool => .bool true
  | .any => .obj []
  | .enum e => (e.values.head?.map Json.str).getD .null
  | .union members => FieldType.sampleFirst withOptional members
  | .record schema => .obj (schema.sampleEntries withOptional)
  | .seq items limits =>
    .arr (List.replicate (max (limits.min.getD 0) 1) (items.sample withOptional))
  | .map values => .obj [("key", values.sample withOptional)]

def FieldType.sampleFirst (withOptional : Bool) : List FieldType → Json
  | [] => .null
  | t :: _ => t.sample withOptional

def Schema.sampleEntries (withOptional : Bool) : Schema → List (String × Json)
  | ⟨_, _, _, fields⟩ => Field.sampleAll withOptional fields

def Field.sampleAll (withOptional : Bool) : List Field → List (String × Json)
  | [] => []
  | f :: rest => f.sample withOptional ++ Field.sampleAll withOptional rest

def Field.sample (withOptional : Bool) : Field → List (String × Json)
  | ⟨name, _, type, required, _, _⟩ =>
    if withOptional || required then [(name, type.sample withOptional)] else []

end

def Schema.sample (s : Schema) (withOptional : Bool) : Except ValidationError Record :=
  s.construct <| (s.sampleEntries withOptional).map fun (name, value) ↦ (name, .ofJson value)

end TypedRecord
