import TypedRecord.Binary64
import TypedRecord.Error.Breach
import TypedRecord.Proofs.Pointer

namespace TypedRecord

def Bound.holds (limit x : Binary64) : Bound → Bool
  | .gt => limit.lt x
  | .gte => limit.le x
  | .lt => x.lt limit
  | .lte => x.le limit

namespace Json

def string? : Json → Option String
  | .str s => some s
  | _ => none

def length? : Measured → Json → Option Nat
  | .string, .str s => some s.length
  | .array, .arr items => some items.length
  | _, _ => none

/-- Every number has the type of numbers, and those held as integers have that of integers too. -/
def HasType (value : Json) (name : String) : Prop :=
  value.kind.name = name ∨ name = "integer" ∧ ∃ n, value = .num (.int n)

inductive Assertion
  /-- The value has one of the types. -/
  | type (names : List String)
  | enum (values : List Json)
  | required (keys : List String)
  | least (measured : Measured) (length : Int)
  | most (measured : Measured) (length : Int)
  | bound (side : Bound) (limit : Binary64)

/-- Assertions about another kind of value hold. Numbers are compared as floats. -/
def Assertion.Holds (value : Json) : Assertion → Prop
  | .type names => ∃ name ∈ names, value.HasType name
  | .enum values => ∃ other ∈ values, value.equal other = true
  | .required keys => ∀ entries, value = .obj entries → ∀ key ∈ keys, key ∈ entries.map Prod.fst
  | .least measured n => ∀ length, value.length? measured = some length → n ≤ length
  | .most measured n => ∀ length, value.length? measured = some length → length ≤ n
  | .bound side limit => ∀ n, value = .num n → side.holds limit n.toBinary64 = true

inductive Keyword
  | assertion (assertion : Assertion)
  | anyOf (schemas : List Json)
  | reference (text : String)
  | items (schema : Json)
  | properties (schemas : List (String × Json))
  | additionalProperties (schema : Json)
  | comment

def Keyword.ofEntry : String × Json → Keyword
  | ("type", .str name) => .assertion (.type [name])
  | ("type", .arr names) => .assertion (.type (names.filterMap string?))
  | ("enum", .arr values) => .assertion (.enum values)
  | ("required", .arr keys) => .assertion (.required (keys.filterMap string?))
  | ("minLength", .num (.int n)) => .assertion (.least .string n)
  | ("maxLength", .num (.int n)) => .assertion (.most .string n)
  | ("minItems", .num (.int n)) => .assertion (.least .array n)
  | ("maxItems", .num (.int n)) => .assertion (.most .array n)
  | ("exclusiveMinimum", .num n) => .assertion (.bound .gt n.toBinary64)
  | ("minimum", .num n) => .assertion (.bound .gte n.toBinary64)
  | ("exclusiveMaximum", .num n) => .assertion (.bound .lt n.toBinary64)
  | ("maximum", .num n) => .assertion (.bound .lte n.toBinary64)
  | ("anyOf", .arr schemas) => .anyOf schemas
  | ("$ref", .str text) => .reference text
  | ("items", schema) => .items schema
  | ("properties", .obj schemas) => .properties schemas
  | ("additionalProperties", schema) => .additionalProperties schema
  | _ => .comment

mutual

/-- The value meets every keyword of the schema. References are read within the document. -/
inductive Validates (document : Json) : Json → Json → Prop
  | obj {entries : List (String × Json)} {value : Json} :
      (∀ keyword ∈ entries.map Keyword.ofEntry,
        Meets document (entries.map Keyword.ofEntry) keyword value) →
      Validates document (.obj entries) value

inductive Meets (document : Json) : List Keyword → Keyword → Json → Prop
  | assertion {keywords : List Keyword} {assertion : Assertion} {value : Json} :
      assertion.Holds value → Meets document keywords (.assertion assertion) value
  | anyOf {keywords : List Keyword} {schemas : List Json} {schema value : Json} :
      schema ∈ schemas → Validates document schema value →
      Meets document keywords (.anyOf schemas) value
  | reference {keywords : List Keyword} {text : String} {schema value : Json} :
      document.reference? text = some schema → Validates document schema value →
      Meets document keywords (.reference text) value
  | items {keywords : List Keyword} {schema value : Json} :
      (∀ elements, value = .arr elements → ∀ element ∈ elements,
        Validates document schema element) →
      Meets document keywords (.items schema) value
  | properties {keywords : List Keyword} {schemas : List (String × Json)} {value : Json} :
      (∀ entries, value = .obj entries → ∀ property ∈ schemas, ∀ inner,
        Entries.get? property.1 entries = some inner → Validates document property.2 inner) →
      Meets document keywords (.properties schemas) value
  | additionalProperties {keywords : List Keyword} {schema value : Json} :
      (∀ entries, value = .obj entries → ∀ entry ∈ entries,
        (∀ schemas, .properties schemas ∈ keywords → entry.1 ∉ schemas.map Prod.fst) →
        Validates document schema entry.2) →
      Meets document keywords (.additionalProperties schema) value
  | comment {keywords : List Keyword} {value : Json} :
      Meets document keywords .comment value

end

section

variable {document value schema : Json} {keywords : List Keyword}

theorem validates_obj_iff {entries : List (String × Json)} :
    Validates document (.obj entries) value ↔ ∀ keyword ∈ entries.map Keyword.ofEntry,
      Meets document (entries.map Keyword.ofEntry) keyword value := by
  constructor
  · intro h
    cases h with
    | obj h => exact h
  · exact .obj

theorem meets_assertion_iff {assertion : Assertion} :
    Meets document keywords (.assertion assertion) value ↔ assertion.Holds value := by
  constructor
  · intro h
    cases h with
    | assertion h => exact h
  · exact .assertion

theorem meets_anyOf_iff {schemas : List Json} : Meets document keywords (.anyOf schemas) value ↔
    ∃ schema ∈ schemas, Validates document schema value := by
  constructor
  · intro h
    cases h with
    | anyOf hm h => exact ⟨_, hm, h⟩
  · intro h
    obtain ⟨schema, hm, h⟩ := h
    exact .anyOf hm h

theorem meets_reference_iff {text : String} :
    Meets document keywords (.reference text) value ↔
      ∃ schema, document.reference? text = some schema ∧ Validates document schema value := by
  constructor
  · intro h
    cases h with
    | reference hr h => exact ⟨_, hr, h⟩
  · intro h
    obtain ⟨schema, hr, h⟩ := h
    exact .reference hr h

theorem meets_items_iff : Meets document keywords (.items schema) value ↔
    ∀ elements, value = .arr elements → ∀ element ∈ elements,
      Validates document schema element := by
  constructor
  · intro h
    cases h with
    | items h => exact h
  · exact .items

theorem meets_properties_iff {schemas : List (String × Json)} :
    Meets document keywords (.properties schemas) value ↔
      ∀ entries, value = .obj entries → ∀ property ∈ schemas, ∀ inner,
        Entries.get? property.1 entries = some inner → Validates document property.2 inner := by
  constructor
  · intro h
    cases h with
    | properties h => exact h
  · exact .properties

theorem meets_additionalProperties_iff :
    Meets document keywords (.additionalProperties schema) value ↔
      ∀ entries, value = .obj entries → ∀ entry ∈ entries,
        (∀ schemas, .properties schemas ∈ keywords → entry.1 ∉ schemas.map Prod.fst) →
        Validates document schema entry.2 := by
  constructor
  · intro h
    cases h with
    | additionalProperties h => exact h
  · exact .additionalProperties

end

end Json

end TypedRecord
