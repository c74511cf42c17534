import TypedRecord.Proofs.Outcome
import TypedRecord.Record.Construct

namespace TypedRecord

namespace Change

theorem bind_eq {α β : Type} (c : Change α) (f : α → Change β) (r : Record) :
    (c >>= f) r = match c r with
      | (.ok a, r') => f a r'
      | (.error e, r') => (.error e, r') := by
  simp only [bind, ExceptT.bind, ExceptT.mk, StateT.bind, ExceptT.bindCont]
  cases c r with
  | mk outcome r' => cases outcome <;> rfl

theorem locate_eq (name : String) (r : Record) : locate name r =
    (match r.schema.locate? name with
      | some place => .ok place
      | none => .error ⟨Path.root.key name, .unknownField r.schema.name name⟩, r) := by
  have hget : (get : Change Record) r = (.ok r, r) := rfl
  rw [locate, bind_eq, hget]
  simp only
  cases r.schema.locate? name <;> rfl

end Change

/-- The slot is what the standing input of the field gives; without one the field is optional, and
absent. -/
def Field.Stands (f : Field) (slot : Slot) : Option Input → Prop
  | none => f.required = false ∧ slot = .absent
  | some input => f.receive input = .ok slot

inductive Edit
  | set (name : String) (input : Input)
  | clear (name : String)

namespace Edit

def name : Edit → String
  | .set name _ => name
  | .clear name => name

def input? : Edit → Option Input
  | .set _ input => some input
  | .clear _ => none

def perform : Edit → Change Unit
  | .set name input => Change.set name input
  | .clear name => Change.clear name

/-- What a call makes of the slot of its field. -/
def outcome (record : String) (f : Field) : Edit → Except ValidationError Slot
  | .set name input => Located.within (.key name) (f.receive input)
  | .clear name =>
    if f.required then .error ⟨Path.root.key name, .missingField record name⟩ else .ok .absent

theorem outcome_eq_ok {e : Edit} {record : String} {f : Field} {slot : Slot} :
    e.outcome record f = .ok slot ↔ f.Stands slot e.input? := by
  cases e with
  | set name input => exact Located.within_eq_ok
  | clear name =>
    simp only [outcome, input?, Field.Stands]
    cases f.required <;> simp [eq_comm]

/-- Nothing is written before the slot is known. -/
theorem perform_eq (e : Edit) (r : Record) : e.perform r = match r.schema.locate? e.name with
    | none => (.error ⟨Path.root.key e.name, .unknownField r.schema.name e.name⟩, r)
    | some (f, i) =>
      match e.outcome r.schema.name f with
      | .ok slot => (.ok (), { r with slots := r.slots.set i slot })
      | .error reason => (.error reason, r) := by
  cases e with
  | set name input =>
    rw [perform, Change.set, Change.bind_eq, Change.locate_eq, Edit.name]
    cases r.schema.locate? name with
    | none => rfl
    | some p =>
      simp only [Change.bind_eq, outcome]
      cases Located.within (.key name) (p.1.receive input) <;> rfl
  | clear name =>
    rw [perform, Change.clear, Change.bind_eq, Change.locate_eq, Edit.name]
    cases r.schema.locate? name with
    | none => rfl
    | some p =>
      simp only [outcome]
      cases p.1.required <;> rfl

theorem perform_of_error {e : Edit} {r : Record} {reason : ValidationError}
    (h : (e.perform r).1 = .error reason) : (e.perform r).2 = r := by
  rw [perform_eq] at h ⊢
  cases hl : r.schema.locate? e.name with
  | none => rfl
  | some p =>
    simp only [hl] at h ⊢
    cases ho : e.outcome r.schema.name p.1 with
    | error => rfl
    | ok slot =>
      rw [ho] at h
      cases h

/-- Which call fails, and how, depends on the schema alone. -/
theorem perform_congr (e : Edit) {r r' : Record} (h : r.schema = r'.schema) :
    (e.perform r).1 = (e.perform r').1 := by
  rw [perform_eq, perform_eq, h]
  cases r'.schema.locate? e.name with
  | none => rfl
  | some p =>
    simp only
    cases e.outcome r'.schema.name p.1 <;> rfl

theorem after_perform (e : Edit) (r : Record) :
    r.after e.perform = match r.schema.locate? e.name with
      | none => .error ⟨Path.root.key e.name, .unknownField r.schema.name e.name⟩
      | some (f, i) => (e.outcome r.schema.name f).map fun slot ↦
        { r with slots := r.slots.set i slot } := by
  rw [Record.after, perform_eq]
  cases r.schema.locate? e.name with
  | none => rfl
  | some p =>
    simp only
    cases e.outcome r.schema.name p.1 <;> rfl

end Edit

theorem Record.set_eq (r : Record) (name : String) (input : Input) :
    r.set name input = match r.schema.locate? name with
      | none => .error ⟨Path.root.key name, .unknownField r.schema.name name⟩
      | some (f, i) => (Located.within (.key name) (f.receive input)).map fun slot ↦
        { r with slots := r.slots.set i slot } :=
  (Edit.set name input).after_perform r

end TypedRecord
