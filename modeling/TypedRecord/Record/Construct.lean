import TypedRecord.Record.Decode

namespace TypedRecord

inductive Input
  /-- An explicit null. -/
  | null
  /-- Any JSON value; records may be given as objects. -/
  | json (value : Json)
  /-- A record built before. -/
  | record (value : Record)
  /-- Elements of a sequence of records, built before. -/
  | records (values : List Record)

namespace Input

def ofJson : Json → Input
  | .null => .null
  | value => .json value

def ofBinary64 (x : Binary64) : Input := ofJson (.float x)

def ofOption : Option Input → Input
  | some input => input
  | none => .null

end Input

def Schema.adopt (expected : Schema) (r : Record) : Except ValidationError Value :=
  if expected.sameAs r.schema then .ok (.record r)
  else Located.here (.schemaConflict expected.name r.schema.name)

def Field.receive (f : Field) : Input → Except ValidationError Slot
  | .null => f.check .names .null
  | .json value => f.check .names value
  | .record r =>
    match f.type with
    | .record expected => (expected.adopt r).map .set
    | type => wrongType type.code .record
  | .records rs =>
    match f.type with
    | .seq (.record expected) limits =>
      guardBreach (limits.breach? .array rs.length) <|
        (Located.traverse expected.adopt rs).map fun items ↦ .set (.list items)
    | .seq items _ => Located.within (.index 0) (wrongType items.code .record)
    | type => wrongType type.code .list

namespace Schema

/-- The record of the given inputs, keyed by field name or else by alias. Every required field has
to be among them; fields left out stay absent. -/
def construct (s : Schema) (inputs : List (String × Input)) : Except ValidationError Record :=
  (Intake.assemble .names s.name (s.fields.map fun f ↦ ⟨f, f.receive⟩) inputs).map (Record.mk s)

end Schema

/-- A call that changes a record in place. One that fails keeps what it has written by then. -/
abbrev Change (α : Type) := ExceptT ValidationError (StateM Record) α

namespace Change

def locate (name : String) : Change (Field × Nat) := do
  let s := (← get).schema
  match s.locate? name with
  | some place => return place
  | none => throw ⟨Path.root.key name, .unknownField s.name name⟩

def write (i : Nat) (slot : Slot) : Change Unit :=
  modify fun r ↦ { r with slots := r.slots.set i slot }

def set (name : String) (input : Input) : Change Unit := do
  let (f, i) ← locate name
  let slot ← liftExcept (Located.within (.key name) (f.receive input))
  write i slot

def clear (name : String) : Change Unit := do
  let (f, i) ← locate name
  if f.required then throw ⟨Path.root.key name, .missingField (← get).schema.name name⟩
  write i .absent

end Change

namespace Record

/-- The record that a change leaves, if it succeeds. -/
def after (r : Record) (change : Change Unit) : Except ValidationError Record :=
  match change r with
  | (.ok _, r') => .ok r'
  | (.error e, _) => .error e

def set (r : Record) (name : String) (input : Input) : Except ValidationError Record :=
  r.after (Change.set name input)

def clear (r : Record) (name : String) : Except ValidationError Record :=
  r.after (Change.clear name)

end Record

end TypedRecord
