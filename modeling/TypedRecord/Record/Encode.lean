import TypedRecord.Error.Fault
import TypedRecord.Record.Access

namespace TypedRecord

def Value.shape : Value → Shape
  | .scalar json => .json json.kind
  | .record _ => .record
  | .list _ => .list
  | .map _ => .map

def Record.refuseUnknown (record : String) (fields : List Field) (r : Record) :
    Except WireError Unit :=
  match r.fields.find? fun (f, slot) ↦ slot.isExplicit && !fields.any (·.name = f.name) with
  | some (f, _) => .error ⟨Path.root.key f.name, .mismatch (.unknownField record f.name)⟩
  | none => .ok ()

/-- The entries of a field: none where it is absent, null only where the field takes it. -/
def Slot.encode (key : String) (nullable : Bool) (encode : Value → Except WireError Json) :
    Option Slot → Except WireError (List (String × Json))
  | none | some .absent => .ok []
  | some .null =>
    if nullable then .ok [(key, .null)]
    else .error ⟨Path.root.key key, .mismatch .unexpectedNull⟩
  | some (.set value) => do return [(key, ← Located.within (.key key) (encode value))]

def misfit {α : Type} (expected : Code) (value : Value) : Except WireError α :=
  Located.here (.mismatch (.wrongType expected value.shape))

def Value.encodeScalar (expected : Code) : Value → Except WireError Json
  | .scalar json => .ok json
  | value => misfit expected value

def Value.encodeRecord (encode : Record → Except WireError (List (String × Json))) :
    Value → Except WireError Json
  | .record r => (encode r).map .obj
  | value => misfit .object value

def Value.encodeList (encode : Value → Except WireError Json) : Value → Except WireError Json
  | .list items => (Located.traverse encode items).map .arr
  | value => misfit .array value

def Value.encodeMap (encode : Value → Except WireError Json) : Value → Except WireError Json
  | .map entries => (Located.traverseEntries encode entries).map .obj
  | value => misfit .map value

mutual

def FieldType.encode : FieldType → Value → Except WireError Json
  | .str _, value => value.encodeScalar .string
  | .int _, value => value.encodeScalar .integer
  | .num _, value => value.encodeScalar .number
  | .bool, value => value.encodeScalar .boolean
  | .any, value => value.encodeScalar .null
  | .enum _, value => value.encodeScalar .enumeration
  | .union _, value => value.encodeScalar .union
  | .record schema, value => value.encodeRecord schema.encodeEntries
  | .seq items _, value => value.encodeList items.encode
  | .map values, value => value.encodeMap values.encode

def Schema.encodeEntries : Schema → Record → Except WireError (List (String × Json))
  | ⟨_, name, _, fields⟩, r => do
    r.refuseUnknown name fields
    Field.encodeAll fields r

def Field.encodeAll : List Field → Record → Except WireError (List (String × Json))
  | [], _ => .ok []
  | f :: rest, r => do
    let entries ← f.encode r
    return entries ++ (← Field.encodeAll rest r)

def Field.encode : Field → Record → Except WireError (List (String × Json))
  | ⟨name, wireKey, type, _, nullable, _⟩, r =>
    Slot.encode wireKey nullable type.encode (r.slot? name)

end

/-- The JSON object of a record, be it under a schema other than its own. Fields are matched by
name. -/
def Schema.encode (s : Schema) (r : Record) : Except WireError Json :=
  (s.encodeEntries r).map .obj

def Record.toJson (r : Record) : Except WireError Json := r.schema.encode r

end TypedRecord
