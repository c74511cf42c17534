import TypedRecord.Proofs.Outcome
import TypedRecord.Proofs.Schema.Induction
import TypedRecord.Record.Decode

namespace TypedRecord

def Path.append (p q : Path) : Path := ⟨p.steps ++ q.steps⟩

theorem Path.append_root (p : Path) : p.append .root = p :=
  congrArg Path.mk (List.append_nil p.steps)

theorem Path.push_append (p q : Path) (step : Step) :
    (p.push step).append q = p.append (q.under step) :=
  congrArg Path.mk (List.append_assoc p.steps [step] q.steps)

section

variable {α β γ ε : Type}

namespace Located

def there (p : Path) (cause : ε) : Except (Located ε) α := .error ⟨p, cause⟩

def placedAt (p : Path) (e : Located ε) : Located ε := ⟨p.append e.path, e.cause⟩

/-- The outcome of a check of a value that lies at `p`, seen from the root. -/
def beneath (p : Path) (r : Except (Located ε) α) : Except (Located ε) α := r.mapError (placedAt p)

variable {p : Path} {step : Path.Step} {r : Except (Located ε) α}

theorem placedAt_root (cause : ε) : placedAt p ⟨.root, cause⟩ = ⟨p, cause⟩ := by
  rw [placedAt, Path.append_root]

theorem beneath_eq_ok {a : α} : beneath p r = .ok a ↔ r = .ok a := mapError_eq_ok

theorem beneath_eq_error {e : Located ε} :
    beneath p r = .error e ↔ ∃ e', r = .error e' ∧ placedAt p e' = e :=
  mapError_eq_error

theorem beneath_here (cause : ε) :
    beneath p (here cause : Except (Located ε) α) = there p cause := by
  rw [beneath, here, Except.mapError, placedAt_root, there]

theorem beneath_key (key : String) (cause : ε) :
    (beneath p (.error ⟨Path.root.key key, cause⟩) : Except (Located ε) α) =
      there (p.key key) cause :=
  rfl

theorem beneath_within : beneath p (within step r) = beneath (p.push step) r := by
  cases r with
  | ok a => rfl
  | error e =>
    rw [within, beneath, beneath, Except.mapError, Except.mapError, placedAt, placedAt,
      Path.push_append]

theorem beneath_bind {f : α → Except (Located ε) β} :
    beneath p (r >>= f) = beneath p r >>= fun a ↦ beneath p (f a) := by
  cases r <;> rfl

theorem beneath_map {f : α → β} : beneath p (r.map f) = (beneath p r).map f := by
  cases r <;> rfl

theorem beneath_root : beneath .root r = r := by
  cases r <;> rfl

def traverseFromAt (f : Path → α → Except (Located ε) β) (p : Path) :
    Nat → List α → Except (Located ε) (List β)
  | _, [] => .ok []
  | i, a :: rest => do
    let b ← f (p.index i) a
    return b :: (← traverseFromAt f p (i + 1) rest)

def traverseAt (f : Path → α → Except (Located ε) β) (p : Path) (items : List α) :
    Except (Located ε) (List β) :=
  traverseFromAt f p 0 items

def traverseEntriesAt (f : Path → α → Except (Located ε) β) (p : Path) :
    List (String × α) → Except (Located ε) (List (String × β))
  | [] => .ok []
  | (key, a) :: rest => do
    let b ← f (p.key key) a
    return (key, b) :: (← traverseEntriesAt f p rest)

variable {f : Path → α → Except (Located ε) β} {g : α → Except (Located ε) β}

theorem traverseFromAt_eq (h : ∀ p a, f p a = beneath p (g a)) (p : Path) (i : Nat)
    (items : List α) : traverseFromAt f p i items = beneath p (traverseFrom g i items) := by
  induction items generalizing i with
  | nil => rfl
  | cons a rest ih =>
    rw [traverseFromAt, traverseFrom, beneath_bind, beneath_within, h, ih]
    simp only [beneath_bind]
    rfl

theorem traverseAt_eq (h : ∀ p a, f p a = beneath p (g a)) (p : Path) (items : List α) :
    traverseAt f p items = beneath p (traverse g items) :=
  traverseFromAt_eq h p 0 items

theorem traverseEntriesAt_eq (h : ∀ p a, f p a = beneath p (g a)) (p : Path)
    (entries : List (String × α)) :
    traverseEntriesAt f p entries = beneath p (traverseEntries g entries) := by
  induction entries with
  | nil => rfl
  | cons entry rest ih =>
    rw [traverseEntriesAt, traverseEntries, beneath_bind, beneath_within, h, ih]
    simp only [beneath_bind]
    rfl

end Located

def KeyRule.label : KeyRule → Field → String
  | .names, f => f.name
  | .aliases _, f => f.wireKey

open Located

namespace Intake

variable {rule : KeyRule} {record : String} {p : Path} {intakes : List (Intake α)}

def placedAt (rule : KeyRule) (p : Path) (intake : Intake α) : Intake α :=
  ⟨intake.field, fun a ↦ beneath (p.key (rule.label intake.field)) (intake.convert a)⟩

def placeAt (record : String) (p : Path) (intakes : List (Intake α)) (slots : List Slot)
    (entry : String × α) : Except ValidationError (List Slot) :=
  match resolve? intakes entry.1 with
  | none => there (p.key entry.1) (.unknownField record entry.1)
  | some (intake, i) =>
    if slots[i]?.any Slot.isExplicit then
      there (p.key intake.field.name) (.duplicateField intake.field.name)
    else (intake.convert entry.2).map (slots.set i)

def readAliasesAt (entries : List (String × α)) :
    List (Intake α) → Except ValidationError (List Slot)
  | [] => .ok []
  | intake :: rest => do
    let slot ← match Entries.get? intake.field.wireKey entries with
      | none => .ok .absent
      | some input => intake.convert input
    return slot :: (← readAliasesAt entries rest)

def refuseUnknownAt (record : String) (p : Path) (intakes : List (Intake α))
    (entries : List (String × α)) : Except ValidationError Unit :=
  match entries.find? fun entry ↦ !intakes.any (·.field.wireKey = entry.1) with
  | some (key, _) => there (p.key key) (.unknownField record key)
  | none => .ok ()

def requireAllAt (record : String) (p : Path) :
    List (Intake α) → List Slot → Except ValidationError Unit
  | intake :: intakes, slot :: slots =>
    if intake.field.required && !slot.isExplicit then
      there (p.key intake.field.name) (.missingField record intake.field.name)
    else requireAllAt record p intakes slots
  | _, _ => .ok ()

def fillAt (rule : KeyRule) (record : String) (p : Path) (intakes : List (Intake α))
    (entries : List (String × α)) : Except ValidationError (List Slot) :=
  match rule with
  | .names => entries.foldlM (placeAt record p intakes) (intakes.map fun _ ↦ .absent)
  | .aliases .ignore => readAliasesAt entries intakes
  | .aliases .reject => do
    let slots ← readAliasesAt entries intakes
    refuseUnknownAt record p intakes entries
    return slots

def assembleAt (rule : KeyRule) (record : String) (p : Path) (intakes : List (Intake α))
    (entries : List (String × α)) : Except ValidationError (List Slot) := do
  let slots ← fillAt rule record p intakes entries
  requireAllAt record p intakes slots
  return slots

theorem field_placedAt (intake : Intake α) : (intake.placedAt rule p).field = intake.field := rfl

theorem resolve?_placedAt (key : String) : resolve? (intakes.map (placedAt rule p)) key =
    (resolve? intakes key).map fun found ↦ (found.1.placedAt rule p, found.2) := by
  have hfind : ∀ (label : Field → String) (n : Nat),
      ((intakes.map (placedAt rule p)).zipIdx n).find? (fun x ↦ label x.1.field = key) =
        ((intakes.zipIdx n).find? fun x ↦ label x.1.field = key).map fun found ↦
          (found.1.placedAt rule p, found.2) := by
    intro label n
    rw [List.zipIdx_map, List.find?_map]
    rfl
  rw [resolve?, resolve?, hfind, hfind, Option.map_or]

theorem placeAt_eq (slots : List Slot) (entry : String × α) :
    placeAt record p (intakes.map (placedAt .names p)) slots entry =
      beneath p (place record intakes slots entry) := by
  rw [placeAt, place, resolve?_placedAt]
  cases resolve? intakes entry.1 with
  | none => rfl
  | some found =>
    obtain ⟨intake, i⟩ := found
    simp only [Option.map_some]
    split
    · rfl
    · rw [beneath_map, beneath_within]
      rfl

theorem foldlM_placeAt_eq (entries : List (String × α)) (slots : List Slot) :
    entries.foldlM (placeAt record p (intakes.map (placedAt .names p))) slots =
      beneath p (entries.foldlM (place record intakes) slots) := by
  induction entries generalizing slots with
  | nil => rfl
  | cons entry rest ih =>
    rw [List.foldlM_cons, List.foldlM_cons, beneath_bind, placeAt_eq]
    simp only [ih]

theorem readAliasesAt_eq {unknown : UnknownKeys} (entries : List (String × α)) :
    readAliasesAt entries (intakes.map (placedAt (.aliases unknown) p)) =
      beneath p (readAliases entries intakes) := by
  induction intakes with
  | nil => rfl
  | cons intake rest ih =>
    rw [List.map_cons, readAliasesAt, readAliases, ih, field_placedAt]
    cases Entries.get? intake.field.wireKey entries with
    | none =>
      simp only [beneath_bind]
      rfl
    | some input =>
      simp only [beneath_bind, beneath_within]
      rfl

theorem refuseUnknownAt_eq (entries : List (String × α)) :
    refuseUnknownAt record p (intakes.map (placedAt rule p)) entries =
      beneath p (refuseUnknown record intakes entries) := by
  have hany : ∀ key, (intakes.map (placedAt rule p)).any (·.field.wireKey = key) =
      intakes.any (·.field.wireKey = key) := by
    intro key
    rw [List.any_map]
    rfl
  simp only [refuseUnknownAt, refuseUnknown, hany]
  cases entries.find? fun entry ↦ !intakes.any (·.field.wireKey = entry.1) <;> rfl

theorem requireAllAt_eq (slots : List Slot) :
    requireAllAt record p (intakes.map (placedAt rule p)) slots =
      beneath p (requireAll record intakes slots) := by
  induction intakes generalizing slots with
  | nil => rfl
  | cons intake rest ih =>
    cases slots with
    | nil => rfl
    | cons slot slots =>
      rw [List.map_cons, requireAllAt, requireAll, ih, field_placedAt, apply_ite (beneath p),
        beneath_key]

theorem assembleAt_eq (entries : List (String × α)) :
    assembleAt rule record p (intakes.map (placedAt rule p)) entries =
      beneath p (assemble rule record intakes entries) := by
  have hfill : fillAt rule record p (intakes.map (placedAt rule p)) entries =
      beneath p (fill rule record intakes entries) := by
    cases rule with
    | names =>
      rw [fillAt, fill, placeAll, ← foldlM_placeAt_eq, List.map_map]
      rfl
    | aliases unknown =>
      cases unknown with
      | ignore => exact readAliasesAt_eq entries
      | reject =>
        rw [fillAt, fill, readAliasesAt_eq, refuseUnknownAt_eq]
        simp only [beneath_bind]
        rfl
  rw [assembleAt, assemble, hfill, beneath_bind]
  simp only [requireAllAt_eq, beneath_bind]
  rfl

end Intake

end

open Located

def guardBreachAt {α : Type} (p : Path) (breach : Option Breach)
    (next : Except ValidationError α) : Except ValidationError α :=
  match breach with
  | some breach => there p (.outOfBounds breach)
  | none => next

def wrongTypeAt {α : Type} (p : Path) (expected : Code) (found : Shape) :
    Except ValidationError α :=
  there p (.wrongType expected found)

def refuseNullAt (p : Path) (accept : Json → Except ValidationError Value) :
    Json → Except ValidationError Value
  | .null => there p .notNullable
  | json => accept json

def slotOfAt (nullable : Bool) (p : Path) (accept : Json → Except ValidationError Value) :
    Json → Except ValidationError Slot
  | .null => if nullable then .ok .null else there p .notNullable
  | json => (accept json).map .set

def Limits.acceptStringAt (limits : Limits) (p : Path) : Json → Except ValidationError Value
  | .str s => guardBreachAt p (limits.breach? .string s.length) (.ok (.scalar (.str s)))
  | json => wrongTypeAt p .string (.json json.kind)

def Range.acceptIntAt (range : Range) (p : Path) : Json → Except ValidationError Value
  | .num (.int n) => guardBreachAt p (range.breach? (.int n)) (.ok (.scalar (.num (.int n))))
  | json => wrongTypeAt p .integer (.json json.kind)

def Range.acceptNumAt (range : Range) (p : Path) : Json → Except ValidationError Value
  | .num n => guardBreachAt p (range.breach? n) (.ok (.scalar (.num n)))
  | json => wrongTypeAt p .number (.json json.kind)

def acceptBoolAt (p : Path) : Json → Except ValidationError Value
  | .bool b => .ok (.scalar (.bool b))
  | json => wrongTypeAt p .boolean (.json json.kind)

def Enumeration.acceptAt (e : Enumeration) (p : Path) : Json → Except ValidationError Value
  | .str s =>
    if e.contains s then .ok (.scalar (.str s)) else wrongTypeAt p .enumeration (.json .string)
  | json => wrongTypeAt p .enumeration (.json json.kind)

def ofMembersAt (p : Path) (kind : Json.Kind) :
    Except (Option ValidationError) Value → Except ValidationError Value
  | .ok value => .ok value
  | .error (some e) => .error e
  | .error none => wrongTypeAt p .union (.json kind)

def ofObjectAt (p : Path) (refused : Json.Kind → Fault)
    (accept : List (String × Json) → Except ValidationError Value) :
    Json → Except ValidationError Value
  | .obj entries => accept entries
  | json => there p (refused json.kind)

def ofArrayAt (limits : Limits) (p : Path) (accept : Path → Json → Except ValidationError Value) :
    Json → Except ValidationError Value
  | .arr elements =>
    guardBreachAt p (limits.breach? .array elements.length) <|
      (traverseAt accept p elements).map .list
  | json => wrongTypeAt p .array (.json json.kind)

mutual

def FieldType.acceptAt (rule : KeyRule) : FieldType → Path → Json → Except ValidationError Value
  | .str limits, p, json => limits.acceptStringAt p json
  | .int range, p, json => range.acceptIntAt p json
  | .num range, p, json => range.acceptNumAt p json
  | .bool, p, json => acceptBoolAt p json
  | .any, _, json => .ok (.scalar json)
  | .enum e, p, json => e.acceptAt p json
  | .union members, p, json =>
    ofMembersAt p json.kind (FieldType.acceptAnyAt rule members p json)
  | .record schema, p, json =>
    ofObjectAt p (.notAnObject schema.name)
      (fun entries ↦ (schema.acceptAt rule p entries).map .record) json
  | .seq items limits, p, json =>
    ofArrayAt limits p (fun q ↦ refuseNullAt q (items.acceptAt rule q)) json
  | .map values, p, json =>
    ofObjectAt p (fun kind ↦ .wrongType .map (.json kind))
      (fun entries ↦ (traverseEntriesAt (fun q ↦ refuseNullAt q (values.acceptAt rule q))
        p entries).map .map) json

def FieldType.acceptAnyAt (rule : KeyRule) :
    List FieldType → Path → Json → Except (Option ValidationError) Value
  | [], _, _ => .error none
  | member :: rest, p, json =>
    orElseMember (member.acceptAt rule p json) (FieldType.acceptAnyAt rule rest p json)

def Field.intakeAt (rule : KeyRule) : Field → Path → Intake Json
  | ⟨name, wireKey, type, required, nullable, description⟩, p =>
    let f : Field := ⟨name, wireKey, type, required, nullable, description⟩
    let q := p.key (rule.label f)
    ⟨f, slotOfAt nullable q (type.acceptAt rule q)⟩

def Field.intakesAt (rule : KeyRule) : List Field → Path → List (Intake Json)
  | [], _ => []
  | f :: rest, p => f.intakeAt rule p :: Field.intakesAt rule rest p

def Schema.acceptAt (rule : KeyRule) :
    Schema → Path → List (String × Json) → Except ValidationError Record
  | ⟨serial, name, description, fields⟩, p, entries =>
    (Intake.assembleAt rule name p (Field.intakesAt rule fields p) entries).map
      (Record.mk ⟨serial, name, description, fields⟩)

end

def FieldType.checkAt (rule : KeyRule) (t : FieldType) (p : Path) :
    Json → Except ValidationError Value :=
  refuseNullAt p (t.acceptAt rule p)

section

variable {rule : KeyRule} {p : Path} {json : Json}

theorem guardBreachAt_eq {α : Type} {breach : Option Breach} {next next' : Except ValidationError α}
    (h : next' = beneath p next) :
    guardBreachAt p breach next' = beneath p (guardBreach breach next) := by
  cases breach with
  | none => exact h
  | some b => exact (beneath_here _).symm

theorem wrongTypeAt_eq {α : Type} (expected : Code) (found : Shape) :
    (wrongTypeAt p expected found : Except ValidationError α) =
      beneath p (wrongType expected found) :=
  (beneath_here _).symm

theorem refuseNullAt_eq {accept accept' : Json → Except ValidationError Value}
    (h : accept' json = beneath p (accept json)) :
    refuseNullAt p accept' json = beneath p (refuseNull accept json) := by
  cases json with
  | null => exact (beneath_here _).symm
  | _ => exact h

theorem slotOfAt_eq {nullable : Bool} {accept accept' : Json → Except ValidationError Value}
    (h : accept' json = beneath p (accept json)) :
    slotOfAt nullable p accept' json = beneath p (slotOf nullable accept json) := by
  cases json with
  | null =>
    rw [slotOfAt, slotOf, apply_ite (beneath p), beneath_here]
    rfl
  | _ => simp only [slotOfAt, slotOf, h, beneath_map]

theorem Limits.acceptStringAt_eq (limits : Limits) :
    limits.acceptStringAt p json = beneath p (limits.acceptString json) := by
  cases json with
  | str s => exact guardBreachAt_eq rfl
  | _ => exact wrongTypeAt_eq _ _

theorem Range.acceptIntAt_eq (range : Range) :
    range.acceptIntAt p json = beneath p (range.acceptInt json) := by
  cases json with
  | num n =>
    cases n with
    | int n => exact guardBreachAt_eq rfl
    | float x => exact wrongTypeAt_eq _ _
  | _ => exact wrongTypeAt_eq _ _

theorem Range.acceptNumAt_eq (range : Range) :
    range.acceptNumAt p json = beneath p (range.acceptNum json) := by
  cases json with
  | num n => exact guardBreachAt_eq rfl
  | _ => exact wrongTypeAt_eq _ _

theorem acceptBoolAt_eq : acceptBoolAt p json = beneath p (acceptBool json) := by
  cases json with
  | bool b => rfl
  | _ => exact wrongTypeAt_eq _ _

theorem Enumeration.acceptAt_eq (e : Enumeration) :
    e.acceptAt p json = beneath p (e.accept json) := by
  cases json with
  | str s =>
    rw [acceptAt, accept, apply_ite (beneath p), wrongTypeAt_eq]
    rfl
  | _ => exact wrongTypeAt_eq _ _

/-- A union tries its members at its own place. -/
theorem orElseMember_placedAt (first : Except ValidationError Value)
    (rest : Except (Option ValidationError) Value) :
    orElseMember (beneath p first) (rest.mapError (Option.map (Located.placedAt p))) =
      (orElseMember first rest).mapError (Option.map (Located.placedAt p)) := by
  cases first with
  | ok v => rfl
  | error e =>
    cases rest with
    | ok v => rfl
    | error later =>
      simp only [orElseMember, beneath, Except.mapError, Located.placedAt]
      split <;> rfl

theorem ofMembersAt_eq (kind : Json.Kind) (r : Except (Option ValidationError) Value) :
    ofMembersAt p kind (r.mapError (Option.map (Located.placedAt p))) =
      beneath p (ofMembers kind r) := by
  cases r with
  | ok v => rfl
  | error e =>
    cases e with
    | none => exact wrongTypeAt_eq _ _
    | some e => rfl

theorem ofObjectAt_eq {refused : Json.Kind → Fault}
    {accept accept' : List (String × Json) → Except ValidationError Value}
    (h : ∀ entries, accept' entries = beneath p (accept entries)) :
    ofObjectAt p refused accept' json = beneath p (ofObject refused accept json) := by
  cases json with
  | obj entries => exact h entries
  | _ => exact (beneath_here _).symm

theorem ofArrayAt_eq {limits : Limits} {accept : Json → Except ValidationError Value}
    {accept' : Path → Json → Except ValidationError Value}
    (h : ∀ p json, accept' p json = beneath p (accept json)) :
    ofArrayAt limits p accept' json = beneath p (ofArray limits accept json) := by
  cases json with
  | arr elements =>
    refine guardBreachAt_eq ?_
    rw [traverseAt_eq h, beneath_map]
  | _ => exact wrongTypeAt_eq _ _

theorem Field.intakesAt_eq_map (fields : List Field) : Field.intakesAt rule fields p =
    fields.map fun f ↦ ⟨f, slotOfAt f.nullable (p.key (rule.label f))
      (f.type.acceptAt rule (p.key (rule.label f)))⟩ := by
  induction fields with
  | nil => rfl
  | cons f rest ih =>
    rw [Field.intakesAt, ih, List.map_cons]
    cases f
    rfl

theorem Schema.acceptAt_eq {s : Schema}
    (h : ∀ f ∈ s.fields, ∀ p json, f.type.acceptAt rule p json =
      beneath p (f.type.accept rule json)) (p : Path) (entries : List (String × Json)) :
    s.acceptAt rule p entries = beneath p (s.accept rule entries) := by
  have hintakes : Field.intakesAt rule s.fields p =
      (s.fields.map fun f ↦ ⟨f, f.check rule⟩).map (Intake.placedAt rule p) := by
    rw [Field.intakesAt_eq_map, List.map_map]
    refine List.map_congr_left fun f hf ↦ congrArg (Intake.mk f) (funext fun json ↦ ?_)
    exact slotOfAt_eq (h f hf _ json)
  rw [Schema.accept_eq, beneath_map, ← Intake.assembleAt_eq, ← hintakes]
  cases s
  rfl

theorem FieldType.acceptAt_eq (t : FieldType) : ∀ p json,
    t.acceptAt rule p json = beneath p (t.accept rule json) := by
  induction t using FieldType.induction with
  | scalar t hs ih =>
    intro p json
    cases t with
    | str limits => exact limits.acceptStringAt_eq
    | int range => exact range.acceptIntAt_eq
    | num range => exact range.acceptNumAt_eq
    | bool => exact acceptBoolAt_eq
    | any => rfl
    | enum e => exact e.acceptAt_eq
    | union members =>
      have hany : ∀ rest, (∀ u ∈ rest, u ∈ members) → FieldType.acceptAnyAt rule rest p json =
          (FieldType.acceptAny rule rest json).mapError (Option.map (Located.placedAt p)) := by
        intro rest hm
        induction rest with
        | nil => rfl
        | cons u rest ihrest =>
          rw [FieldType.acceptAnyAt, FieldType.acceptAny, ih u (hm u List.mem_cons_self) p json,
            ihrest fun v hv ↦ hm v (List.mem_cons_of_mem _ hv), orElseMember_placedAt]
      rw [acceptAt, accept, hany members fun _ h ↦ h, ofMembersAt_eq]
    | record | seq | map => simp [isScalar] at hs
  | record s ih =>
    intro p json
    refine ofObjectAt_eq fun entries ↦ ?_
    rw [Schema.acceptAt_eq ih, beneath_map]
  | seq items limits ih =>
    intro p json
    exact ofArrayAt_eq fun p json ↦ refuseNullAt_eq (ih p json)
  | map values ih =>
    intro p json
    have hvalue : ∀ p json, refuseNullAt p (values.acceptAt rule p) json =
        beneath p (refuseNull (values.accept rule) json) :=
      fun p json ↦ refuseNullAt_eq (ih p json)
    refine ofObjectAt_eq fun entries ↦ ?_
    rw [traverseEntriesAt_eq hvalue, beneath_map]

/-- Where a value lies shows in the paths of its errors and nowhere else. -/
theorem FieldType.checkAt_eq (t : FieldType) (p : Path) (json : Json) :
    t.checkAt rule p json = beneath p (t.check rule json) :=
  refuseNullAt_eq (t.acceptAt_eq p json)

end

end TypedRecord
