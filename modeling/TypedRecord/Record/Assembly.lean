import TypedRecord.Error.Fault
import TypedRecord.Record.Basic

namespace TypedRecord

inductive UnknownKeys
  | ignore
  | reject
deriving DecidableEq

/-- How the keys of an object are matched to fields. -/
inductive KeyRule
  /-- By name, or else by alias; every key has to belong to a field. -/
  | names
  /-- By alias. -/
  | aliases (unknown : UnknownKeys)
deriving DecidableEq

structure Intake (α : Type) where
  field : Field
  convert : α → Except ValidationError Slot

variable {α : Type}

namespace Intake

def resolve? (intakes : List (Intake α)) (key : String) : Option (Intake α × Nat) :=
  (intakes.zipIdx.find? (·.1.field.name = key)).or
    (intakes.zipIdx.find? (·.1.field.wireKey = key))

/-- Fills the slot of one input. A slot is explicit as soon as its field was supplied. -/
def place (record : String) (intakes : List (Intake α)) (slots : List Slot) (entry : String × α) :
    Except ValidationError (List Slot) :=
  match resolve? intakes entry.1 with
  | none => .error ⟨Path.root.key entry.1, .unknownField record entry.1⟩
  | some (intake, i) =>
    if slots[i]?.any Slot.isExplicit then
      .error ⟨Path.root.key intake.field.name, .duplicateField intake.field.name⟩
    else
      (Located.within (.key intake.field.name) (intake.convert entry.2)).map (slots.set i)

def placeAll (record : String) (intakes : List (Intake α)) (entries : List (String × α)) :
    Except ValidationError (List Slot) :=
  entries.foldlM (place record intakes) (intakes.map fun _ ↦ .absent)

def readAliases (entries : List (String × α)) :
    List (Intake α) → Except ValidationError (List Slot)
  | [] => .ok []
  | intake :: rest => do
    let slot ← match Entries.get? intake.field.wireKey entries with
      | none => .ok .absent
      | some input => Located.within (.key intake.field.wireKey) (intake.convert input)
    return slot :: (← readAliases entries rest)

def refuseUnknown (record : String) (intakes : List (Intake α)) (entries : List (String × α)) :
    Except ValidationError Unit :=
  match entries.find? fun entry ↦ !intakes.any (·.field.wireKey = entry.1) with
  | some (key, _) => .error ⟨Path.root.key key, .unknownField record key⟩
  | none => .ok ()

/-- Fails at the first required field that was not supplied. The path of the failure ends in the
name of the field, under either key rule. -/
def requireAll (record : String) : List (Intake α) → List Slot → Except ValidationError Unit
  | intake :: intakes, slot :: slots =>
    if intake.field.required && !slot.isExplicit then
      .error ⟨Path.root.key intake.field.name, .missingField record intake.field.name⟩
    else requireAll record intakes slots
  | _, _ => .ok ()

def fill (rule : KeyRule) (record : String) (intakes : List (Intake α))
    (entries : List (String × α)) : Except ValidationError (List Slot) :=
  match rule with
  | .names => placeAll record intakes entries
  | .aliases .ignore => readAliases entries intakes
  | .aliases .reject => do
    let slots ← readAliases entries intakes
    refuseUnknown record intakes entries
    return slots

def assemble (rule : KeyRule) (record : String) (intakes : List (Intake α))
    (entries : List (String × α)) : Except ValidationError (List Slot) := do
  let slots ← fill rule record intakes entries
  requireAll record intakes slots
  return slots

end Intake

end TypedRecord
