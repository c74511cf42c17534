import TypedRecord.Proofs.Record.Attribution
import TypedRecord.Proofs.Record.Encoding

namespace TypedRecord

namespace Located

variable {α β ε ε' : Type} {P : ε → Prop} {r : Except (Located ε) α}

def FailsBy (P : ε → Prop) (r : Except (Located ε) α) : Prop := ∀ e, r = .error e → P e.cause

theorem failsBy_ok (a : α) : FailsBy P (.ok a) := nofun

theorem failsBy_error {e : Located ε} (h : P e.cause) :
    FailsBy P (.error e : Except (Located ε) α) := by
  intro _ he
  cases he
  exact h

theorem FailsBy.mono {Q : ε → Prop} (h : FailsBy P r) (hq : ∀ cause, P cause → Q cause) :
    FailsBy Q r :=
  fun e he ↦ hq _ (h e he)

theorem FailsBy.bind {f : α → Except (Located ε) β} (h : FailsBy P r)
    (hf : ∀ a, FailsBy P (f a)) : FailsBy P (r >>= f) := by
  intro e he
  obtain he | ⟨a, -, he⟩ := bind_eq_error.mp he
  · exact h e he
  · exact hf a e he

theorem FailsBy.map {f : α → β} (h : FailsBy P r) : FailsBy P (r.map f) :=
  fun e he ↦ h e (map_eq_error.mp he)

theorem FailsBy.within {step : Path.Step} (h : FailsBy P r) : FailsBy P (within step r) := by
  intro e he
  obtain ⟨e', he', rfl⟩ := within_eq_error.mp he
  exact h e' he'

theorem FailsBy.mapError {Q : ε' → Prop} {f : ε → ε'} (h : FailsBy P r)
    (hf : ∀ cause, P cause → Q (f cause)) : FailsBy Q (r.mapError (Located.map f)) := by
  intro e he
  obtain ⟨e', he', rfl⟩ := mapError_eq_error.mp he
  exact hf _ (h e' he')

theorem failsBy_traverse {f : α → Except (Located ε) β} (hf : ∀ a, FailsBy P (f a))
    (items : List α) : FailsBy P (traverse f items) := by
  intro e he
  obtain ⟨i, a, e', -, he', rfl⟩ := exists_of_traverse_eq_error he
  exact hf a e' he'

theorem failsBy_traverseEntries {f : α → Except (Located ε) β} (hf : ∀ a, FailsBy P (f a))
    (entries : List (String × α)) : FailsBy P (traverseEntries f entries) := by
  intro e he
  obtain ⟨entry, -, e', he', rfl⟩ := exists_of_traverseEntries_eq_error he
  exact hf entry.2 e' he'

end Located

open Located

theorem FieldType.isConstraint_code (t : FieldType) : t.code.isConstraint = false := by
  cases t <;> rfl

theorem Breach.isConstraint_code (breach : Breach) : breach.code.isConstraint = true := by
  cases breach with
  | value bound => cases bound <;> rfl
  | tooShort measured | tooLong measured => cases measured <;> rfl

/-- The code that the cause carries, if any, reports a constraint just where the cause does. -/
def Fault.Coded (fault : Fault) : Prop :=
  ∀ code, fault.code? = some code → (fault.isConstraint = true ↔ code.isConstraint = true)

def WireFault.Coded (fault : WireFault) : Prop :=
  ∀ code, fault.code? = some code → (fault.isConstraint = true ↔ code.isConstraint = true)

theorem Fault.coded_wrongType (t : FieldType) (found : Shape) :
    (Fault.wrongType t.code found).Coded := by
  intro code hc
  cases hc
  simp [isConstraint, t.isConstraint_code]

theorem Fault.coded_outOfBounds (breach : Breach) : (Fault.outOfBounds breach).Coded := by
  intro code hc
  cases hc
  simp [isConstraint, breach.isConstraint_code]

/-- The causes for which a value is refused. A key is given twice only where keys are names. -/
inductive Fault.Arises : KeyRule → Fault → Prop
  | wrongType {rule : KeyRule} (t : FieldType) (found : Shape) :
      Fault.Arises rule (.wrongType t.code found)
  | notNullable {rule : KeyRule} : Fault.Arises rule .notNullable
  | notAnObject {rule : KeyRule} (record : String) (found : Json.Kind) :
      Fault.Arises rule (.notAnObject record found)
  | missingField {rule : KeyRule} (record field : String) :
      Fault.Arises rule (.missingField record field)
  | outOfBounds {rule : KeyRule} (breach : Breach) : Fault.Arises rule (.outOfBounds breach)
  | unknownField {rule : KeyRule} (record key : String) : rule ≠ .aliases .ignore →
      Fault.Arises rule (.unknownField record key)
  | duplicateField (field : String) : Fault.Arises .names (.duplicateField field)

theorem Fault.Arises.coded {rule : KeyRule} {fault : Fault} (h : fault.Arises rule) :
    fault.Coded := by
  cases h with
  | wrongType t found => exact coded_wrongType t found
  | outOfBounds breach => exact coded_outOfBounds breach
  | notNullable | notAnObject | missingField | unknownField | duplicateField => exact nofun

section

variable {α : Type} {rule : KeyRule}

theorem failsBy_guardBreach {P : Fault → Prop} {breach : Option Breach}
    {next : Except ValidationError α} (hb : ∀ b, P (.outOfBounds b)) (hn : FailsBy P next) :
    FailsBy P (guardBreach breach next) := by
  intro e he
  obtain ⟨b, -, rfl⟩ | ⟨-, he⟩ := guardBreach_eq_error.mp he
  · exact hb b
  · exact hn e he

theorem failsBy_refuseNull {accept : Json → Except ValidationError Value}
    (h : ∀ json, FailsBy (Fault.Arises rule) (accept json)) (json : Json) :
    FailsBy (Fault.Arises rule) (refuseNull accept json) := by
  intro e he
  obtain ⟨-, rfl⟩ | ⟨-, he⟩ := refuseNull_eq_error.mp he
  · exact .notNullable
  · exact h json e he

theorem failsBy_slotOf {nullable : Bool} {accept : Json → Except ValidationError Value}
    (h : ∀ json, FailsBy (Fault.Arises rule) (accept json)) (json : Json) :
    FailsBy (Fault.Arises rule) (slotOf nullable accept json) := by
  intro e he
  obtain ⟨-, -, rfl⟩ | ⟨-, he⟩ := slotOf_eq_error.mp he
  · exact .notNullable
  · exact h json e he

end

namespace Schema

variable {s : Schema} {rule : KeyRule}

/-- Inputs fail as a check of them does, or as their fields do. -/
theorem failsBy_assemble_names {α : Type} {P : Fault → Prop}
    {convert : Field → α → Except ValidationError Slot}
    (hp : ∀ fault, fault.Arises .names → P fault)
    (hc : ∀ f ∈ s.fields, ∀ a, FailsBy P (convert f a)) (entries : List (String × α)) :
    FailsBy P (Intake.assemble .names s.name (s.fields.map fun f ↦ ⟨f, convert f⟩) entries) := by
  intro e he
  obtain ⟨entry, -, h⟩ | ⟨f, -, -, rfl⟩ := exists_of_assemble_names_eq_error he
  · cases h with
    | unknown => exact hp _ (.unknownField _ _ nofun)
    | duplicate => exact hp _ (.duplicateField _)
    | refused hf hr =>
      have hcause := hc _ (mem_of_meant? hf) entry.2 _ hr
      exact hcause
  · exact hp _ (.missingField _ _)

theorem failsBy_accept
    (hf : ∀ f ∈ s.fields, ∀ json, FailsBy (Fault.Arises rule) (f.type.accept rule json))
    (entries : List (String × Json)) : FailsBy (Fault.Arises rule) (s.accept rule entries) := by
  cases rule with
  | names =>
    rw [accept_eq]
    exact (failsBy_assemble_names (fun _ h ↦ h)
      (fun f hm ↦ failsBy_slotOf (hf f hm)) entries).map
  | aliases unknown =>
    intro e he
    obtain ⟨f, hm, json, e', -, hr, rfl⟩ | ⟨rfl, key, -, -, rfl⟩ | ⟨f, -, -, -, rfl⟩ :=
      exists_of_accept_aliases_eq_error he
    · exact failsBy_slotOf (hf f hm) json e' hr
    · exact .unknownField _ _ nofun
    · exact .missingField _ _

end Schema

theorem FieldType.failsBy_accept {rule : KeyRule} (t : FieldType) :
    ∀ json, FailsBy (Fault.Arises rule) (t.accept rule json) := by
  induction t using FieldType.induction with
  | scalar t hs ih =>
    intro json
    cases t with
    | str | int | num | bool | enum =>
      intro e he
      obtain rfl | ⟨b, -, rfl⟩ := accept_primitive_eq_error rfl he
      · exact .wrongType _ _
      · exact .outOfBounds b
    | any => exact failsBy_ok _
    | union members =>
      intro e he
      obtain hfirst | ⟨-, rfl⟩ := accept_union_eq_error he
      · obtain ⟨t, ht, hf⟩ := List.exists_of_findSome?_eq_some hfirst
        exact ih t ht json e (boundError?_eq_some_iff.mp hf).1
      · exact .wrongType _ _
    | record | seq | map => simp [isScalar] at hs
  | record s ih =>
    intro json e he
    obtain rfl | ⟨entries, rfl, ha⟩ := accept_record_eq_error he
    · exact .notAnObject _ _
    · exact Schema.failsBy_accept ih entries e ha
  | seq items limits ih =>
    intro json e he
    obtain rfl | ⟨elements, rfl, ⟨b, -, rfl⟩ | ⟨i, a, e', -, ha, rfl⟩⟩ := accept_seq_eq_error he
    · exact .wrongType _ _
    · exact .outOfBounds b
    · exact failsBy_refuseNull ih a e' ha
  | map values ih =>
    intro json e he
    obtain rfl | ⟨entries, rfl, entry, -, e', ha, rfl⟩ := accept_map_eq_error he
    · exact .wrongType _ _
    · exact failsBy_refuseNull ih entry.2 e' ha

theorem FieldType.failsBy_check {rule : KeyRule} (t : FieldType) (json : Json) :
    FailsBy (Fault.Arises rule) (t.check rule json) :=
  failsBy_refuseNull t.failsBy_accept json

theorem Schema.failsBy_adopt (s : Schema) (r : Record) : FailsBy Fault.Coded (s.adopt r) := by
  unfold adopt
  split
  next => exact failsBy_ok _
  next => exact failsBy_error nofun

theorem Field.failsBy_receive (f : Field) (input : Input) :
    FailsBy Fault.Coded (f.receive input) := by
  have hcheck : ∀ json, FailsBy Fault.Coded (f.check .names json) := fun json ↦
    (failsBy_slotOf f.type.failsBy_accept json).mono fun _ h ↦ h.coded
  have hwrong : ∀ {α : Type} (t : FieldType) (found : Shape),
      FailsBy Fault.Coded (wrongType t.code found : Except ValidationError α) :=
    fun t found ↦ failsBy_error (Fault.coded_wrongType t found)
  cases input with
  | null => exact hcheck .null
  | json value => exact hcheck value
  | record r =>
    simp only [receive]
    split
    next expected _ => exact (expected.failsBy_adopt r).map
    next => exact hwrong f.type _
  | records rs =>
    simp only [receive]
    split
    next expected limits _ =>
      exact failsBy_guardBreach Fault.coded_outOfBounds
        (failsBy_traverse expected.failsBy_adopt rs).map
    next items _ _ _ => exact (hwrong items _).within
    next => exact hwrong f.type _

theorem Schema.failsBy_construct (s : Schema) (inputs : List (String × Input)) :
    FailsBy Fault.Coded (s.construct inputs) :=
  (failsBy_assemble_names (fun _ h ↦ h.coded) (fun f _ ↦ f.failsBy_receive) inputs).map

theorem Record.failsBy_set (r : Record) (name : String) (input : Input) :
    FailsBy Fault.Coded (r.set name input) := by
  rw [set_eq]
  split
  next => exact failsBy_error nofun
  next f i _ => exact (f.failsBy_receive input).within.map

inductive WireFault.OfDecoding (unknown : UnknownKeys) : WireFault → Prop
  | notAnObject (record : String) (found : Json.Kind) :
      WireFault.OfDecoding unknown (.mismatch (.notAnObject record found))
  | unexpectedNull : WireFault.OfDecoding unknown (.mismatch .unexpectedNull)
  | wrongType (t : FieldType) (found : Shape) :
      WireFault.OfDecoding unknown (.mismatch (.wrongType t.code found))
  | unknownKey (record : String) : unknown = .reject →
      WireFault.OfDecoding unknown (.mismatch (.unknownKey record))
  | missingField (record field : String) :
      WireFault.OfDecoding unknown (.validation (.missingField record field))
  | outOfBounds (breach : Breach) :
      WireFault.OfDecoding unknown (.validation (.outOfBounds breach))

theorem WireFault.OfDecoding.coded {unknown : UnknownKeys} {fault : WireFault}
    (h : fault.OfDecoding unknown) : fault.Coded := by
  cases h with
  | wrongType t found => exact Fault.coded_wrongType t found
  | outOfBounds breach => exact Fault.coded_outOfBounds breach
  | notAnObject | unexpectedNull | unknownKey | missingField => exact nofun

theorem Fault.Arises.ofDecoding {unknown : UnknownKeys} {fault : Fault}
    (h : fault.Arises (.aliases unknown)) : (WireFault.ofDecoding fault).OfDecoding unknown := by
  cases h with
  | wrongType t found => exact .wrongType t found
  | notNullable => exact .unexpectedNull
  | notAnObject record found => exact .notAnObject record found
  | missingField record field => exact .missingField record field
  | outOfBounds breach => exact .outOfBounds breach
  | unknownField record key hr =>
    refine .unknownKey record ?_
    cases unknown with
    | ignore => exact absurd rfl hr
    | reject => rfl

namespace Schema

theorem failsBy_decodeRecord (s : Schema) (unknown : UnknownKeys) (payload : Json) :
    FailsBy (WireFault.OfDecoding unknown) (s.decodeRecord unknown payload) := by
  cases payload with
  | obj entries =>
    exact (failsBy_accept (fun f _ ↦ f.type.failsBy_accept) entries).mapError
      fun _ h ↦ h.ofDecoding
  | _ => exact failsBy_error (.notAnObject _ _)

theorem failsBy_decode (s : Schema) (unknown : UnknownKeys) (payload : Json) :
    FailsBy (WireFault.OfDecoding unknown) (s.decode unknown payload) := by
  intro e he
  obtain ⟨-, he⟩ := decode_eq_error.mp he
  exact s.failsBy_decodeRecord unknown payload e he

end Schema

inductive WireFault.OfEncoding : WireFault → Prop
  | unknownField (record field : String) :
      WireFault.OfEncoding (.mismatch (.unknownField record field))
  | unexpectedNull : WireFault.OfEncoding (.mismatch .unexpectedNull)
  | wrongType (t : FieldType) (found : Shape) :
      WireFault.OfEncoding (.mismatch (.wrongType t.code found))

theorem WireFault.OfEncoding.coded {fault : WireFault} (h : fault.OfEncoding) : fault.Coded := by
  cases h with
  | wrongType t found => exact Fault.coded_wrongType t found
  | unknownField | unexpectedNull => exact nofun

theorem Record.failsBy_refuseUnknown (r : Record) (record : String) (fields : List Field) :
    FailsBy WireFault.OfEncoding (r.refuseUnknown record fields) := by
  unfold refuseUnknown
  split
  next f slot _ => exact failsBy_error (.unknownField record f.name)
  next => exact failsBy_ok _

theorem failsBy_misfit {α : Type} (t : FieldType) (v : Value) :
    FailsBy WireFault.OfEncoding (misfit t.code v : Except WireError α) :=
  failsBy_error (.wrongType t v.shape)

theorem Slot.failsBy_encode {encode : Value → Except WireError Json}
    (h : ∀ v, FailsBy WireFault.OfEncoding (encode v)) (key : String) (nullable : Bool)
    (slot : Option Slot) : FailsBy WireFault.OfEncoding (Slot.encode key nullable encode slot) := by
  cases slot with
  | none => exact failsBy_ok _
  | some slot =>
    cases slot with
    | absent => exact failsBy_ok _
    | null =>
      rw [Slot.encode]
      split
      next => exact failsBy_ok _
      next => exact failsBy_error .unexpectedNull
    | set v => exact (h v).within.bind fun _ ↦ failsBy_ok _

theorem Field.failsBy_encodeAll {r : Record} {fields : List Field}
    (h : ∀ f ∈ fields, ∀ v, FailsBy WireFault.OfEncoding (f.type.encode v)) :
    FailsBy WireFault.OfEncoding (Field.encodeAll fields r) := by
  induction fields with
  | nil => exact failsBy_ok _
  | cons f rest ih =>
    obtain ⟨hf, hrest⟩ := List.forall_mem_cons.mp h
    rw [Field.encodeAll, Field.encode_eq]
    exact (Slot.failsBy_encode hf _ _ _).bind fun _ ↦ (ih hrest).bind fun _ ↦ failsBy_ok _

theorem Schema.failsBy_encodeEntries {s : Schema}
    (h : ∀ f ∈ s.fields, ∀ v, FailsBy WireFault.OfEncoding (f.type.encode v)) (r : Record) :
    FailsBy WireFault.OfEncoding (s.encodeEntries r) := by
  rw [encodeEntries_eq]
  exact (r.failsBy_refuseUnknown s.name s.fields).bind fun _ ↦ Field.failsBy_encodeAll h

theorem FieldType.failsBy_encode (t : FieldType) :
    ∀ v, FailsBy WireFault.OfEncoding (t.encode v) := by
  induction t using FieldType.induction with
  | scalar t hs =>
    intro v
    have hscalar : t.encode v = v.encodeScalar t.code := by
      cases t with
      | str | int | num | bool | any | enum | union => rfl
      | record | seq | map => simp [isScalar] at hs
    rw [hscalar]
    cases v with
    | scalar json => exact failsBy_ok _
    | record | list | map => exact failsBy_misfit t _
  | record s ih =>
    intro v
    cases v with
    | record r => exact (Schema.failsBy_encodeEntries ih r).map
    | scalar | list | map => exact failsBy_misfit (record s) _
  | seq items limits ih =>
    intro v
    cases v with
    | list values => exact (failsBy_traverse ih values).map
    | scalar | record | map => exact failsBy_misfit (seq items limits) _
  | map values ih =>
    intro v
    cases v with
    | map entries => exact (failsBy_traverseEntries ih entries).map
    | scalar | record | list => exact failsBy_misfit (map values) _

theorem Schema.failsBy_encode (s : Schema) (r : Record) :
    FailsBy WireFault.OfEncoding (s.encode r) :=
  (failsBy_encodeEntries (fun f _ ↦ f.type.failsBy_encode) r).map

/-- Each call fails for causes of its own kinds only, and what counts as a constraint is told by the
cause as by the code that it carries. A check within a payload never finds a field supplied twice or
a record of another schema. -/
theorem Schema.failures_classified (s : Schema) :
    (∀ unknown payload e,
      s.decode unknown payload = .error e ∨ s.decodeRecord unknown payload = .error e →
      e.cause.OfDecoding unknown ∧ e.cause.Coded) ∧
    (∀ r e, s.encode r = .error e → e.cause.OfEncoding ∧ e.cause.Coded) ∧
    (∀ inputs e, s.construct inputs = .error e → e.cause.Coded) ∧
    (∀ (r : Record) name input e, r.set name input = .error e → e.cause.Coded) ∧
    ∀ (t : FieldType) unknown json e, t.check (.aliases unknown) json = .error e →
      (∀ field, e.cause ≠ .duplicateField field) ∧
        ∀ expected found, e.cause ≠ .schemaConflict expected found := by
  refine ⟨?_, ?_, s.failsBy_construct, fun r name input ↦ r.failsBy_set name input, ?_⟩
  · intro unknown payload e h
    have hcause : e.cause.OfDecoding unknown :=
      h.elim (s.failsBy_decode unknown payload e) (s.failsBy_decodeRecord unknown payload e)
    exact ⟨hcause, hcause.coded⟩
  · intro r e h
    have hcause := s.failsBy_encode r e h
    exact ⟨hcause, hcause.coded⟩
  · intro t unknown json e h
    have hcause := t.failsBy_check json e h
    constructor
    · intro field hf
      rw [hf] at hcause
      cases hcause
    · intro expected found hf
      rw [hf] at hcause
      cases hcause

namespace Schema

def nickname : Schema :=
  ⟨0, "Nickname", none, [.plain "text" (.union [.str { min := some 2 }, .bool]) true]⟩

def verses : Schema := ⟨1, "Verses", none, [.plain "text" (.seq .bool {}) true]⟩

theorem nickname_failures_classified :
    let short : Json := .obj [("text", .str "a"), ("size", .int 1)]
    let sized : Json := .obj [("text", .bool true), ("size", .int 1)]
    let r : Record := ⟨verses, [.set (.list [])]⟩
    let breach : Breach := .tooShort .string 1 2
    let misfit : WireFault := .mismatch (.wrongType .union .list)
    nickname.decode .reject short =
        .error ⟨Path.root.key "text", .validation (.outOfBounds breach)⟩ ∧
      (WireFault.validation (.outOfBounds breach)).OfDecoding .reject ∧
      nickname.decode .reject sized =
        .error ⟨Path.root.key "size", .mismatch (.unknownKey "Nickname")⟩ ∧
      (WireFault.mismatch (.unknownKey "Nickname")).OfDecoding .reject ∧
      nickname.encode r = .error ⟨Path.root.key "text", misfit⟩ ∧ misfit.OfEncoding ∧ misfit.Coded ∧
      nickname.construct [("text", .json (.str "a"))] =
        .error ⟨Path.root.key "text", .outOfBounds breach⟩ ∧ (Fault.outOfBounds breach).Coded := by
  intro short sized r breach misfit
  have hshort : nickname.decode .reject short =
      .error ⟨Path.root.key "text", .validation (.outOfBounds breach)⟩ := rfl
  have hsized : nickname.decode .reject sized =
      .error ⟨Path.root.key "size", .mismatch (.unknownKey "Nickname")⟩ := rfl
  have hmisfit : nickname.encode r = .error ⟨Path.root.key "text", misfit⟩ := rfl
  have hconstruct : nickname.construct [("text", .json (.str "a"))] =
      .error ⟨Path.root.key "text", .outOfBounds breach⟩ := rfl
  obtain ⟨hdecode, hencode, hbuild, -⟩ := failures_classified nickname
  obtain ⟨hkind, hcoded⟩ := hencode r _ hmisfit
  exact ⟨hshort, (hdecode _ _ _ (.inl hshort)).1, hsized, (hdecode _ _ _ (.inl hsized)).1, hmisfit,
    hkind, hcoded, hconstruct, hbuild _ _ hconstruct⟩

end Schema

end TypedRecord
