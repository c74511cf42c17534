import TypedRecord.Json.Basic
import TypedRecord.Schema.Basic

namespace TypedRecord

mutual

/-- Adds what a schema reaches to the declarations seen so far. A declaration that was seen before
is passed over together with all it reaches. -/
def Schema.visit : Schema → List Schema → List Schema
  | ⟨serial, name, description, fields⟩, seen =>
    if seen.any (·.serial = serial) then seen
    else Field.visitAll fields (seen ++ [⟨serial, name, description, fields⟩])

def Field.visitAll : List Field → List Schema → List Schema
  | [], seen => seen
  | f :: rest, seen => Field.visitAll rest (f.visit seen)

def Field.visit : Field → List Schema → List Schema
  | ⟨_, _, type, _, _, _⟩, seen => type.visit seen

def FieldType.visit : FieldType → List Schema → List Schema
  | .record schema, seen => schema.visit seen
  | .seq items _, seen => items.visit seen
  | .map values, seen => values.visit seen
  | .union members, seen => FieldType.visitAll members seen
  | .str _, seen | .int _, seen | .num _, seen | .bool, seen | .any, seen | .enum _, seen => seen

def FieldType.visitAll : List FieldType → List Schema → List Schema
  | [], seen => seen
  | t :: rest, seen => FieldType.visitAll rest (t.visit seen)

end

def Schema.reachable (s : Schema) : List Schema := s.visit []

def Json.optionalEntry (key : String) : Option Json → List (String × Json)
  | some value => [(key, value)]
  | none => []

def Json.texts (values : List String) : Json := .arr (values.map .str)

def Range.keywords (r : Range) : List (String × Json) :=
  Json.optionalEntry "exclusiveMinimum" (r.gt.map .float) ++
    Json.optionalEntry "minimum" (r.gte.map .float) ++
    Json.optionalEntry "exclusiveMaximum" (r.lt.map .float) ++
    Json.optionalEntry "maximum" (r.lte.map .float)

def Limits.keywords (minKey maxKey : String) (l : Limits) : List (String × Json) :=
  Json.optionalEntry minKey (l.min.map fun n ↦ .int n) ++
    Json.optionalEntry maxKey (l.max.map fun n ↦ .int n)

def Schema.reference (s : Schema) : String := "#/$defs/" ++ s.name

mutual

def FieldType.keywords : FieldType → List (String × Json)
  | .str limits => ("type", .str "string") :: limits.keywords "minLength" "maxLength"
  | .int range => ("type", .str "integer") :: range.keywords
  | .num range => ("type", .str "number") :: range.keywords
  | .bool => [("type", .str "boolean")]
  | .any => [("type", Json.texts ["string", "number", "boolean", "array", "object"])]
  | .enum e => [("title", .str e.name), ("type", .str "string"), ("enum", Json.texts e.values)]
  | .union members => [("anyOf", .arr (FieldType.documents members))]
  | .record schema => [("$ref", .str schema.reference)]
  | .seq items limits =>
    ("type", .str "array") :: ("items", .obj items.keywords) ::
      limits.keywords "minItems" "maxItems"
  | .map values => [("type", .str "object"), ("additionalProperties", .obj values.keywords)]

def FieldType.documents : List FieldType → List Json
  | [] => []
  | t :: rest => .obj t.keywords :: FieldType.documents rest

end

def FieldType.jsonSchema (t : FieldType) : Json := .obj t.keywords

def Field.jsonSchema (f : Field) : Json :=
  let keywords :=
    if f.nullable then [("anyOf", .arr [f.type.jsonSchema, .obj [("type", .str "null")]])]
    else f.type.keywords
  .obj (keywords ++ Json.optionalEntry "description" (f.description.map .str))

def Schema.keywords (s : Schema) : List (String × Json) :=
  let properties := s.fields.map fun f ↦ (f.wireKey, f.jsonSchema)
  let required := s.requiredFields.map (·.wireKey)
  ("title", .str s.name) :: Json.optionalEntry "description" (s.description.map .str) ++
    [("type", .str "object")] ++
    (if properties.isEmpty then [] else [("properties", .obj properties)]) ++
    (if required.isEmpty then [] else [("required", Json.texts required)])

/-- The definitions of all records reached but the root declaration; of records with one name the
last visited counts. -/
def Schema.definitions (s : Schema) : List (String × Json) :=
  Entries.ofList <| (s.reachable.filter (·.serial ≠ s.serial)).map fun t ↦
    (t.name, .obj t.keywords)

def Schema.jsonSchema (s : Schema) : Json :=
  .obj (s.keywords ++ if s.definitions.isEmpty then [] else [("$defs", .obj s.definitions)])

end TypedRecord
