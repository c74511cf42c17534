import TypedRecord.Schema.Basic

namespace TypedRecord

inductive Flaw
  | nameEmpty
  | fieldEmpty
  | aliasEmpty
  | fieldDuplicate
  | aliasDuplicate
  | twoLowerBounds
  | twoUpperBounds
  | boundsCrossed
  | limitsCrossed
  | enumerationEmpty
  | unionEmpty
  | unionMember
deriving DecidableEq

def Flaw.code : Flaw → String
  | .nameEmpty => "NAME_EMPTY"
  | .fieldEmpty => "FIELD_EMPTY"
  | .aliasEmpty => "ALIAS_EMPTY"
  | .fieldDuplicate => "FIELD_DUPLICATE"
  | .aliasDuplicate => "ALIAS_DUPLICATE"
  | .twoLowerBounds => "GT_GTE"
  | .twoUpperBounds => "LT_LTE"
  | .boundsCrossed => "GT_LT"
  | .limitsCrossed => "MIN_MAX"
  | .enumerationEmpty => "ENUM_EMPTY"
  | .unionEmpty => "TYPES_LENGTH"
  | .unionMember => "UNION_MEMBER"

structure SchemaError where
  record : String
  field : Option String
  flaw : Flaw
deriving DecidableEq

def SchemaError.message (e : SchemaError) : String :=
  let place := match e.field with
    | some field => "." ++ field
    | none => ""
  "invalid schema " ++ e.record ++ place ++ ": " ++ e.flaw.code

/-- A lower bound above the upper one is a flaw; `nan` is above nothing. -/
def Range.flaw? (r : Range) : Option Flaw :=
  if r.gt.isSome && r.gte.isSome then some .twoLowerBounds
  else if r.lt.isSome && r.lte.isSome then some .twoUpperBounds
  else match r.gt.or r.gte, r.lt.or r.lte with
    | some low, some high => if high.lt low then some .boundsCrossed else none
    | _, _ => none

def Limits.flaw? (l : Limits) : Option Flaw :=
  match l.min, l.max with
  | some min, some max => if max < min then some .limitsCrossed else none
  | _, _ => none

mutual

def FieldType.flaw? : FieldType → Option Flaw
  | .bool | .any | .record _ => none
  | .int range | .num range => range.flaw?
  | .str limits => limits.flaw?
  | .enum e => if e.values.isEmpty then some .enumerationEmpty else none
  | .union members => if members.isEmpty then some .unionEmpty else FieldType.memberFlaw? members
  | .seq items limits => limits.flaw?.or items.flaw?
  | .map values => values.flaw?

def FieldType.memberFlaw? : List FieldType → Option Flaw
  | [] => none
  | t :: rest =>
    if t.isPrimitive then t.flaw?.or (FieldType.memberFlaw? rest) else some .unionMember

end

def Field.flaw? (earlier : List Field) (f : Field) : Option Flaw :=
  if f.name.isEmpty then some .fieldEmpty
  else if f.wireKey.isEmpty then some .aliasEmpty
  else if earlier.any (·.name = f.name) then some .fieldDuplicate
  else if earlier.any (·.wireKey = f.wireKey) then some .aliasDuplicate
  else f.type.flaw?

/-- An empty field name cannot name its field in the error. -/
def SchemaError.ofField (record : String) (f : Field) (flaw : Flaw) : SchemaError :=
  ⟨record, if flaw = .fieldEmpty then none else some f.name, flaw⟩

def Schema.fieldError? (record : String) (earlier : List Field) :
    List Field → Option SchemaError
  | [] => none
  | f :: rest =>
    match f.flaw? earlier with
    | some flaw => some (.ofField record f flaw)
    | none => Schema.fieldError? record (f :: earlier) rest

def Schema.error? (s : Schema) : Option SchemaError :=
  if s.name.isEmpty then some ⟨s.name, none, .nameEmpty⟩
  else Schema.fieldError? s.name [] s.fields

structure Registry where
  next : Nat

/-- Declares a schema under a fresh serial number, unless it has a flaw. Nested records were checked
when they were declared, and are not looked at again. -/
def Registry.declare (r : Registry) (name : String) (description : Option String)
    (fields : List Field) : Except SchemaError (Schema × Registry) :=
  let schema : Schema := ⟨r.next, name, description, fields⟩
  match schema.error? with
  | some e => .error e
  | none => .ok (schema, ⟨r.next + 1⟩)

end TypedRecord
