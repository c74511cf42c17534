import TypedRecord.Record.Assembly

namespace TypedRecord

/-- An integer is compared as the float nearest to it. A violated bound is one that the comparison
shows to be violated, so a `nan` bound never is. -/
def Range.breach? (r : Range) (n : Json.Number) : Option Breach :=
  let x := n.toBinary64
  let broken (bound : Bound) (limit : Option Binary64) (violated : Binary64 → Bool) :=
    (limit.filter violated).map fun limit ↦ Breach.value bound limit n
  (broken .gt r.gt fun limit ↦ x.le limit).or <|
    (broken .gte r.gte fun limit ↦ x.lt limit).or <|
    (broken .lt r.lt fun limit ↦ limit.le x).or <|
    broken .lte r.lte fun limit ↦ limit.lt x

def Limits.breach? (l : Limits) (measured : Measured) (length : Nat) : Option Breach :=
  let short := (l.min.filter (length < ·)).map fun min ↦ Breach.tooShort measured length min
  let long := (l.max.filter (· < length)).map fun max ↦ Breach.tooLong measured length max
  short.or long

def guardBreach {α : Type} (breach : Option Breach) (next : Except ValidationError α) :
    Except ValidationError α :=
  match breach with
  | some breach => Located.here (.outOfBounds breach)
  | none => next

def FieldType.code : FieldType → Code
  | .str _ => .string
  | .int _ => .integer
  | .num _ => .number
  | .bool => .boolean
  | .any => .null
  | .enum _ => .enumeration
  | .union _ => .union
  | .record _ => .object
  | .seq _ _ => .array
  | .map _ => .map

def wrongType {α : Type} (expected : Code) (found : Shape) : Except ValidationError α :=
  Located.here (.wrongType expected found)

def refuseNull (accept : Json → Except ValidationError Value) : Json → Except ValidationError Value
  | .null => Located.here .notNullable
  | json => accept json

def slotOf (nullable : Bool) (accept : Json → Except ValidationError Value) :
    Json → Except ValidationError Slot
  | .null => if nullable then .ok .null else Located.here .notNullable
  | json => (accept json).map .set

def Limits.acceptString (limits : Limits) : Json → Except ValidationError Value
  | .str s => guardBreach (limits.breach? .string s.length) (.ok (.scalar (.str s)))
  | json => wrongType .string (.json json.kind)

def Range.acceptInt (range : Range) : Json → Except ValidationError Value
  | .num (.int n) => guardBreach (range.breach? (.int n)) (.ok (.scalar (.num (.int n))))
  | json => wrongType .integer (.json json.kind)

def Range.acceptNum (range : Range) : Json → Except ValidationError Value
  | .num n => guardBreach (range.breach? n) (.ok (.scalar (.num n)))
  | json => wrongType .number (.json json.kind)

def acceptBool : Json → Except ValidationError Value
  | .bool b => .ok (.scalar (.bool b))
  | json => wrongType .boolean (.json json.kind)

def Enumeration.accept (e : Enumeration) : Json → Except ValidationError Value
  | .str s =>
    if e.contains s then .ok (.scalar (.str s)) else wrongType .enumeration (.json .string)
  | json => wrongType .enumeration (.json json.kind)

/-- The outcome of trying one member of a union and then the rest. The first member that accepts
decides; if none does, the first violated bound is worth reporting, and wrong types are not. -/
def orElseMember (first : Except ValidationError Value)
    (rest : Except (Option ValidationError) Value) : Except (Option ValidationError) Value :=
  match first, rest with
  | .ok value, _ => .ok value
  | .error _, .ok value => .ok value
  | .error e, .error later => .error (if e.cause.isConstraint then some e else later)

def ofMembers (kind : Json.Kind) :
    Except (Option ValidationError) Value → Except ValidationError Value
  | .ok value => .ok value
  | .error (some e) => .error e
  | .error none => wrongType .union (.json kind)

def ofObject (refused : Json.Kind → Fault)
    (accept : List (String × Json) → Except ValidationError Value) :
    Json → Except ValidationError Value
  | .obj entries => accept entries
  | json => Located.here (refused json.kind)

def ofArray (limits : Limits) (accept : Json → Except ValidationError Value) :
    Json → Except ValidationError Value
  | .arr elements =>
    guardBreach (limits.breach? .array elements.length) <|
      (Located.traverse accept elements).map .list
  | json => wrongType .array (.json json.kind)

mutual

def FieldType.accept (rule : KeyRule) : FieldType → Json → Except ValidationError Value
  | .str limits, json => limits.acceptString json
  | .int range, json => range.acceptInt json
  | .num range, json => range.acceptNum json
  | .bool, json => acceptBool json
  | .any, json => .ok (.scalar json)
  | .enum e, json => e.accept json
  | .union members, json => ofMembers json.kind (FieldType.acceptAny rule members json)
  | .record schema, json =>
    ofObject (.notAnObject schema.name)
      (fun entries ↦ (schema.accept rule entries).map .record) json
  | .seq items limits, json => ofArray limits (refuseNull (items.accept rule)) json
  | .map values, json =>
    ofObject (fun kind ↦ .wrongType .map (.json kind))
      (fun entries ↦
        (Located.traverseEntries (refuseNull (values.accept rule)) entries).map .map) json

def FieldType.acceptAny (rule : KeyRule) :
    List FieldType → Json → Except (Option ValidationError) Value
  | [], _ => .error none
  | member :: rest, json =>
    orElseMember (member.accept rule json) (FieldType.acceptAny rule rest json)

def Field.intake (rule : KeyRule) : Field → Intake Json
  | ⟨name, wireKey, type, required, nullable, description⟩ =>
    ⟨⟨name, wireKey, type, required, nullable, description⟩, slotOf nullable (type.accept rule)⟩

def Field.intakes (rule : KeyRule) : List Field → List (Intake Json)
  | [] => []
  | f :: rest => f.intake rule :: Field.intakes rule rest

def Schema.accept (rule : KeyRule) : Schema → List (String × Json) → Except ValidationError Record
  | ⟨serial, name, description, fields⟩, entries =>
    (Intake.assemble rule name (Field.intakes rule fields) entries).map
      (Record.mk ⟨serial, name, description, fields⟩)

end

def FieldType.check (rule : KeyRule) (t : FieldType) : Json → Except ValidationError Value :=
  refuseNull (t.accept rule)

def Field.check (rule : KeyRule) (f : Field) : Json → Except ValidationError Slot :=
  slotOf f.nullable (f.type.accept rule)

theorem Field.intakes_eq_map (rule : KeyRule) (fields : List Field) :
    Field.intakes rule fields = fields.map fun f ↦ ⟨f, f.check rule⟩ := by
  induction fields with
  | nil => rw [Field.intakes, List.map_nil]
  | cons f rest ih => rw [Field.intakes, ih, List.map_cons]; cases f; rw [Field.intake]; rfl

theorem Schema.accept_eq (rule : KeyRule) (s : Schema) (entries : List (String × Json)) :
    s.accept rule entries =
      (Intake.assemble rule s.name (s.fields.map fun f ↦ ⟨f, f.check rule⟩) entries).map
        (Record.mk s) := by
  cases s
  rw [Schema.accept, Field.intakes_eq_map]

namespace Schema

/-- The record that a payload stands for. A fault in any part refuses the whole. -/
def decodeRecord (s : Schema) (unknown : UnknownKeys) : Json → Except WireError Record
  | .obj entries =>
    (s.accept (.aliases unknown) entries).mapError (Located.map WireFault.ofDecoding)
  | json => Located.here (.mismatch (.notAnObject s.name json.kind))

def decode (s : Schema) (unknown : UnknownKeys) : Json → Except WireError (Option Record)
  | .null => .ok none
  | json => (s.decodeRecord unknown json).map some

end Schema

end TypedRecord
