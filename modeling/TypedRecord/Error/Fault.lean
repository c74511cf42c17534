import TypedRecord.Error.Breach
import TypedRecord.Path

namespace TypedRecord

/-- A cause of failure, and the path from the value at hand to where it arose. Every enclosing level
puts its own step in front. -/
structure Located (ε : Type) where
  path : Path
  cause : ε

namespace Located

variable {α β ε ε' : Type}

def here (cause : ε) : Except (Located ε) α := .error ⟨.root, cause⟩

def message (describe : ε → String) (e : Located ε) : String :=
  e.path.display ++ ": " ++ describe e.cause

def map (f : ε → ε') (e : Located ε) : Located ε' := ⟨e.path, f e.cause⟩

def within (step : Path.Step) : Except (Located ε) α → Except (Located ε) α
  | .ok a => .ok a
  | .error e => .error ⟨e.path.under step, e.cause⟩

def traverseFrom (f : α → Except (Located ε) β) : Nat → List α → Except (Located ε) (List β)
  | _, [] => .ok []
  | i, a :: rest => do
    let b ← within (.index i) (f a)
    return b :: (← traverseFrom f (i + 1) rest)

def traverse (f : α → Except (Located ε) β) (items : List α) : Except (Located ε) (List β) :=
  traverseFrom f 0 items

def traverseEntries (f : α → Except (Located ε) β) :
    List (String × α) → Except (Located ε) (List (String × β))
  | [] => .ok []
  | (key, a) :: rest => do
    let b ← within (.key key) (f a)
    return (key, b) :: (← traverseEntries f rest)

theorem within_eq_ok {step : Path.Step} {r : Except (Located ε) α} {a : α} :
    within step r = .ok a ↔ r = .ok a := by
  cases r <;> simp [within]

theorem bind_eq_ok {r : Except (Located ε) α} {f : α → Except (Located ε) β} {b : β} :
    (r >>= f) = .ok b ↔ ∃ a, r = .ok a ∧ f a = .ok b := by
  cases r <;> simp [bind, Except.bind]

theorem map_eq_ok {r : Except (Located ε) α} {f : α → β} {b : β} :
    r.map f = .ok b ↔ ∃ a, r = .ok a ∧ f a = b := by
  cases r <;> simp [Except.map]

end Located

inductive Shape
  | json (kind : Json.Kind)
  | record
  | list
  | map
deriving DecidableEq

def Shape.name : Shape → String
  | .json kind => kind.name
  | .record => "record"
  | .list => "array"
  | .map => "map"

inductive Fault
  | missingField (record field : String)
  | unknownField (record field : String)
  | duplicateField (field : String)
  | notNullable
  | wrongType (expected : Code) (found : Shape)
  | notAnObject (record : String) (found : Json.Kind)
  | schemaConflict (expected found : String)
  | outOfBounds (breach : Breach)
deriving DecidableEq

abbrev ValidationError := Located Fault

namespace Fault

def isConstraint : Fault → Bool
  | .outOfBounds _ => true
  | _ => false

def code? : Fault → Option Code
  | .wrongType expected _ => some expected
  | .outOfBounds breach => some breach.code
  | _ => none

def text : Fault → String
  | .missingField record field => "missing required field `" ++ field ++ "` of " ++ record
  | .unknownField record field => record ++ " has no field `" ++ field ++ "`"
  | .duplicateField field => "field `" ++ field ++ "` supplied more than once"
  | .notNullable => "field is not nullable"
  | .wrongType expected found => expected.message ++ " (found " ++ found.name ++ ")"
  | .notAnObject record found => "expected " ++ record ++ " object, found " ++ found.name
  | .schemaConflict expected found => "expected a " ++ expected ++ " instance, found " ++ found
  | .outOfBounds breach => breach.code.name ++ ": " ++ breach.detail

end Fault

inductive Mismatch
  | notAnObject (record : String) (found : Json.Kind)
  | unexpectedNull
  | wrongType (expected : Code) (found : Shape)
  | unknownKey (record : String)
  | unknownField (record field : String)
deriving DecidableEq

namespace Mismatch

def code? : Mismatch → Option Code
  | .wrongType expected _ => some expected
  | _ => none

def text : Mismatch → String
  | .notAnObject record found => "expected " ++ record ++ " object, found " ++ found.name
  | .unexpectedNull => "null is not allowed here"
  | .wrongType expected found => expected.message ++ " (found " ++ found.name ++ ")"
  | .unknownKey record => "unknown key for " ++ record
  | .unknownField record field => "instance holds field `" ++ field ++ "` unknown to " ++ record

end Mismatch

inductive WireFault
  | validation (fault : Fault)
  | mismatch (departure : Mismatch)
deriving DecidableEq

abbrev WireError := Located WireFault

namespace WireFault

def isConstraint : WireFault → Bool
  | .validation fault => fault.isConstraint
  | .mismatch _ => false

def isMismatch : WireFault → Bool
  | .validation _ => false
  | .mismatch _ => true

def code? : WireFault → Option Code
  | .validation fault => fault.code?
  | .mismatch departure => departure.code?

def text : WireFault → String
  | .validation fault => fault.text
  | .mismatch departure => departure.text

/-- In a payload a wrong type, a misplaced null, a record that is no object and a refused key are
departures from the schema; all else is a fault of the data. -/
def ofDecoding : Fault → WireFault
  | .wrongType expected found => .mismatch (.wrongType expected found)
  | .notNullable => .mismatch .unexpectedNull
  | .notAnObject record found => .mismatch (.notAnObject record found)
  | .unknownField record _ => .mismatch (.unknownKey record)
  | fault => .validation fault

end WireFault

end TypedRecord
