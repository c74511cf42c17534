import TypedRecord.Proofs.Catalog
import TypedRecord.Proofs.Json.Proper
import TypedRecord.Proofs.Record.Position

namespace TypedRecord

def Range.limit? (r : Range) : Bound → Option Binary64
  | .gt => r.gt
  | .gte => r.gte
  | .lt => r.lt
  | .lte => r.lte

def Bound.violated (limit x : Binary64) : Bound → Bool
  | .gt => x.le limit
  | .gte => x.lt limit
  | .lt => limit.le x
  | .lte => limit.lt x

inductive Range.Broken (r : Range) (n : Json.Number) : Breach → Prop
  | value {bound : Bound} {limit : Binary64} : r.limit? bound = some limit →
      bound.violated limit n.toBinary64 = true → Range.Broken r n (.value bound limit n)

inductive Limits.Broken (l : Limits) (measured : Measured) (length : Nat) : Breach → Prop
  | short {min : Nat} : l.min = some min → length < min →
      Limits.Broken l measured length (.tooShort measured length min)
  | long {max : Nat} : l.max = some max → max < length →
      Limits.Broken l measured length (.tooLong measured length max)

/-- The JSON value is of the kind that the type bounds, or that a member of the union bounds, and
breaks the bound. -/
inductive FieldType.Broken : FieldType → Json → Breach → Prop
  | str {limits : Limits} {s : String} {b : Breach} :
      limits.Broken .string s.length b → FieldType.Broken (.str limits) (.str s) b
  | int {range : Range} {n : Int} {b : Breach} :
      range.Broken (.int n) b → FieldType.Broken (.int range) (.num (.int n)) b
  | num {range : Range} {n : Json.Number} {b : Breach} :
      range.Broken n b → FieldType.Broken (.num range) (.num n) b
  | seq {items : FieldType} {limits : Limits} {elements : List Json} {b : Breach} :
      limits.Broken .array elements.length b → FieldType.Broken (.seq items limits) (.arr elements) b
  | union {members : List FieldType} {t : FieldType} {json : Json} {b : Breach} :
      t ∈ members → FieldType.Broken t json b → FieldType.Broken (.union members) json b

theorem Range.broken_of_breach? {r : Range} {n : Json.Number} {b : Breach}
    (h : r.breach? n = some b) : r.Broken n b := by
  have hbound : ∀ {bound : Bound} {limit : Option Binary64} {violated : Binary64 → Bool},
      r.limit? bound = limit → (∀ x, violated x = bound.violated x n.toBinary64) →
      (limit.filter violated).map (fun limit ↦ Breach.value bound limit n) = some b →
      r.Broken n b := by
    intro bound limit violated hl hv h
    obtain ⟨x, hx, rfl⟩ := Option.map_eq_some_iff.mp h
    obtain ⟨hx, hviolated⟩ := Option.filter_eq_some_iff.mp hx
    exact .value (hl.trans hx) ((hv x).symm.trans hviolated)
  obtain h | ⟨-, h⟩ := Option.or_eq_some_iff.mp h
  · exact hbound rfl (fun _ ↦ rfl) h
  obtain h | ⟨-, h⟩ := Option.or_eq_some_iff.mp h
  · exact hbound rfl (fun _ ↦ rfl) h
  obtain h | ⟨-, h⟩ := Option.or_eq_some_iff.mp h
  · exact hbound rfl (fun _ ↦ rfl) h
  · exact hbound rfl (fun _ ↦ rfl) h

theorem Limits.broken_of_breach? {l : Limits} {measured : Measured} {length : Nat} {b : Breach}
    (h : l.breach? measured length = some b) : l.Broken measured length b := by
  obtain h | ⟨-, h⟩ := Option.or_eq_some_iff.mp h
  · obtain ⟨min, hm, rfl⟩ := Option.map_eq_some_iff.mp h
    obtain ⟨hm, hl⟩ := Option.filter_eq_some_iff.mp hm
    exact .short hm (of_decide_eq_true hl)
  · obtain ⟨max, hm, rfl⟩ := Option.map_eq_some_iff.mp h
    obtain ⟨hm, hl⟩ := Option.filter_eq_some_iff.mp hm
    exact .long hm (of_decide_eq_true hl)

theorem Limits.Broken.code {l : Limits} {measured : Measured} {length : Nat} {b : Breach}
    (h : l.Broken measured length b) : b.code = measured.code := by
  cases h with
  | short | long => rfl

namespace FieldType

variable {t : FieldType} {json : Json} {e : ValidationError}

def RefusesScalar (t : FieldType) (json : Json) (e : ValidationError) : Prop :=
  e = ⟨.root, .wrongType t.code (.json json.kind)⟩ ∨
    ∃ b, t.Broken json b ∧ e = ⟨.root, .outOfBounds b⟩

theorem accept_primitive_eq_error {rule : KeyRule} (ht : t.isPrimitive)
    (h : t.accept rule json = .error e) : t.RefusesScalar json e := by
  have hwrong : wrongType (α := Value) t.code (.json json.kind) = .error e →
      t.RefusesScalar json e := by
    intro h
    cases h
    exact .inl rfl
  have hguard : ∀ {breach : Option Breach} {v : Value},
      (∀ b, breach = some b → t.Broken json b) → guardBreach breach (.ok v) = .error e →
      t.RefusesScalar json e := by
    intro breach v hb h
    obtain ⟨b, hs, he⟩ | ⟨-, h⟩ := guardBreach_eq_error.mp h
    · exact .inr ⟨b, hb b hs, he⟩
    · cases h
  cases t with
  | str limits =>
    cases json with
    | str s => exact hguard (fun b hb ↦ .str (Limits.broken_of_breach? hb)) h
    | _ => exact hwrong h
  | int range =>
    cases json with
    | num n =>
      cases n with
      | int n => exact hguard (fun b hb ↦ .int (Range.broken_of_breach? hb)) h
      | float x => exact hwrong h
    | _ => exact hwrong h
  | num range =>
    cases json with
    | num n => exact hguard (fun b hb ↦ .num (Range.broken_of_breach? hb)) h
    | _ => exact hwrong h
  | bool =>
    cases json with
    | bool b => cases h
    | _ => exact hwrong h
  | enum values =>
    cases json with
    | str s =>
      rw [accept, Enumeration.accept] at h
      split at h
      · cases h
      · exact hwrong h
    | _ => exact hwrong h
  | any | union | record | seq | map => simp [isPrimitive] at ht

def boundError? : Except ValidationError Value → Option ValidationError
  | .error e => if e.cause.isConstraint then some e else none
  | .ok _ => none

theorem boundError?_eq_some_iff {r : Except ValidationError Value} :
    boundError? r = some e ↔ r = .error e ∧ e.cause.isConstraint = true := by
  cases r with
  | ok v => simp [boundError?]
  | error e' =>
    rw [boundError?, Option.ite_none_right_eq_some, Option.some.injEq, Except.error.injEq]
    constructor
    · rintro ⟨hc, rfl⟩
      exact ⟨rfl, hc⟩
    · rintro ⟨rfl, hc⟩
      exact ⟨hc, rfl⟩

/-- Of the members of a union that all refuse a value, the first that found a violated bound is
heard. -/
theorem acceptAny_eq_error {rule : KeyRule} {members : List FieldType}
    {found : Option ValidationError} (h : FieldType.acceptAny rule members json = .error found) :
    members.findSome? (fun t ↦ boundError? (t.accept rule json)) = found := by
  induction members generalizing found with
  | nil => cases h; rfl
  | cons t rest ih =>
    rw [FieldType.acceptAny] at h
    cases hf : t.accept rule json with
    | ok v =>
      rw [hf] at h
      cases h
    | error first =>
      cases hr : FieldType.acceptAny rule rest json with
      | ok v =>
        rw [hf, hr] at h
        cases h
      | error later =>
        rw [hf, hr, orElseMember, Except.error.injEq] at h
        rw [List.findSome?_cons, hf, boundError?, ← h, ih hr]
        split_ifs
        · rfl
        · rfl

theorem accept_union_eq_error {rule : KeyRule} {members : List FieldType}
    (h : (union members).accept rule json = .error e) :
    (members.findSome? fun t ↦ boundError? (t.accept rule json)) = some e ∨
      (members.findSome? fun t ↦ boundError? (t.accept rule json)) = none ∧
        e = ⟨.root, .wrongType (union members).code (.json json.kind)⟩ := by
  rw [accept] at h
  cases hm : FieldType.acceptAny rule members json with
  | ok v =>
    rw [hm] at h
    cases h
  | error found =>
    rw [acceptAny_eq_error hm]
    rw [hm] at h
    cases found with
    | none =>
      cases h
      exact .inr ⟨rfl, rfl⟩
    | some first =>
      cases h
      exact .inl rfl

theorem accept_scalar_eq_error {rule : KeyRule} (hs : t.isScalar) (ht : t.Built)
    (h : t.accept rule json = .error e) : t.RefusesScalar json e := by
  cases t with
  | str | int | num | bool | enum => exact accept_primitive_eq_error rfl h
  | any => cases h
  | union members =>
    obtain hfirst | ⟨-, rfl⟩ := accept_union_eq_error h
    · obtain ⟨t, hu, hf⟩ := List.exists_of_findSome?_eq_some hfirst
      obtain ⟨hf, hc⟩ := boundError?_eq_some_iff.mp hf
      -- a violated bound is never a wrong type
      obtain rfl | ⟨b, hb, he⟩ := accept_primitive_eq_error (ht.members t hu).1 hf
      · cases hc
      · exact .inr ⟨b, .union hu hb, he⟩
    · exact .inl rfl
  | record | seq | map => simp [isScalar] at hs

theorem accept_record_eq_error {rule : KeyRule} {s : Schema}
    (h : (record s).accept rule json = .error e) :
    e = ⟨.root, .notAnObject s.name json.kind⟩ ∨
      ∃ entries, json = .obj entries ∧ s.accept rule entries = .error e := by
  cases json with
  | obj entries => exact .inr ⟨entries, rfl, Located.map_eq_error.mp h⟩
  | _ =>
    cases h
    exact .inl rfl

theorem accept_seq_eq_error {rule : KeyRule} {items : FieldType} {limits : Limits}
    (h : (seq items limits).accept rule json = .error e) :
    e = ⟨.root, .wrongType (seq items limits).code (.json json.kind)⟩ ∨
      ∃ elements, json = .arr elements ∧
        ((∃ b, limits.Broken .array elements.length b ∧ e = ⟨.root, .outOfBounds b⟩) ∨
          ∃ i a e', elements[i]? = some a ∧ items.check rule a = .error e' ∧
            e = e'.under (.index i)) := by
  cases json with
  | arr elements =>
    refine .inr ⟨elements, rfl, ?_⟩
    obtain ⟨b, hb, he⟩ | ⟨-, h⟩ := guardBreach_eq_error.mp h
    · exact .inl ⟨b, Limits.broken_of_breach? hb, he⟩
    · exact .inr (Located.exists_of_traverse_eq_error (Located.map_eq_error.mp h))
  | _ =>
    cases h
    exact .inl rfl

theorem accept_map_eq_error {rule : KeyRule} {values : FieldType}
    (h : (map values).accept rule json = .error e) :
    e = ⟨.root, .wrongType (map values).code (.json json.kind)⟩ ∨
      ∃ entries, json = .obj entries ∧
        ∃ entry ∈ entries, ∃ e', values.check rule entry.2 = .error e' ∧
          e = e'.under (.key entry.1) := by
  cases json with
  | obj entries =>
    exact .inr ⟨entries, rfl,
      Located.exists_of_traverseEntries_eq_error (Located.map_eq_error.mp h)⟩
  | _ =>
    cases h
    exact .inl rfl

end FieldType

/-- What a type finds wrong with a value itself, and not with a part of it: a wrong type, a null, a
violated bound, or keys that lack or are unknown. -/
inductive FieldType.Refuses (unknown : UnknownKeys) : FieldType → Json → ValidationError → Prop
  | wrongType {t : FieldType} {json : Json} : json ≠ .null → ¬ t.Conforms unknown json →
      FieldType.Refuses unknown t json ⟨.root, .wrongType t.code (.json json.kind)⟩
  | notAnObject {s : Schema} {json : Json} :
      json ≠ .null → ¬ (FieldType.record s).Conforms unknown json →
      FieldType.Refuses unknown (.record s) json ⟨.root, .notAnObject s.name json.kind⟩
  | null {t : FieldType} : FieldType.Refuses unknown t .null ⟨.root, .notNullable⟩
  | bound {t : FieldType} {json : Json} {b : Breach} : t.Broken json b →
      FieldType.Refuses unknown t json ⟨.root, .outOfBounds b⟩
  | missing {s : Schema} {entries : List (String × Json)} {f : Field} : f ∈ s.fields →
      f.required = true → Entries.get? f.wireKey entries = none →
      FieldType.Refuses unknown (.record s) (.obj entries)
        ⟨Path.root.key f.name, .missingField s.name f.name⟩
  | unknown {s : Schema} {entries : List (String × Json)} {key : String} : unknown = .reject →
      key ∈ entries.map Prod.fst → (∀ f ∈ s.fields, f.wireKey ≠ key) →
      FieldType.Refuses unknown (.record s) (.obj entries)
        ⟨Path.root.key key, .unknownField s.name key⟩

/-- Along some path lie a type and a value that it refuses, and the error says so from there. -/
def FieldType.RefusesWithin (unknown : UnknownKeys) (t : FieldType) (json : Json)
    (e : ValidationError) : Prop :=
  ∃ p u w e', t.follow? Field.wireKey p = some u ∧ json.pointer? p.pointer = some w ∧
    u.Refuses unknown w e' ∧ e = ⟨⟨p.steps ++ e'.path.steps⟩, e'.cause⟩

section

variable {unknown : UnknownKeys} {t u : FieldType} {json inner : Json} {e : ValidationError}

theorem FieldType.Refuses.within (h : t.Refuses unknown json e) : t.RefusesWithin unknown json e :=
  ⟨.root, t, json, e, rfl, json.pointer?_root, h, rfl⟩

theorem FieldType.RefusesWithin.under {step : Path.Step} (ht : t.step? Field.wireKey step = some u)
    (hj : json.part? step.name = some inner) (h : u.RefusesWithin unknown inner e) :
    t.RefusesWithin unknown json (e.under step) := by
  obtain ⟨p, v, w, e', hv, hw, hr, rfl⟩ := h
  refine ⟨p.under step, v, w, e', (follow?_under ht).trans hv, ?_, hr, rfl⟩
  rw [Json.pointer?_under, hj, Option.bind_some, hw]

def FieldType.Traces (unknown : UnknownKeys) (t : FieldType) : Prop :=
  ∀ json e, json.Proper → json ≠ .null → t.accept (.aliases unknown) json = .error e →
    t.RefusesWithin unknown json e

/-- What is refused does not conform. -/
theorem FieldType.not_conforms_of_accept (ht : t.Built) (hj : json ≠ .null)
    (h : t.accept (.aliases unknown) json = .error e) : ¬ t.Conforms unknown json := by
  intro hc
  have ha := (decides ht json _ hj).mpr ⟨hc, rfl⟩
  rw [h] at ha
  cases ha

theorem FieldType.traces_scalar (hs : t.isScalar) (ht : t.Built) : t.Traces unknown := by
  intro json e _ hj h
  obtain rfl | ⟨b, hb, rfl⟩ := accept_scalar_eq_error hs ht h
  · exact (Refuses.wrongType hj (not_conforms_of_accept ht hj h)).within
  · exact (Refuses.bound hb).within

/-- The check of a part refuses null as well. -/
theorem FieldType.Traces.part (ht : t.Traces unknown) (hp : json.Proper)
    (h : json = .null ∧ e = ⟨.root, .notNullable⟩ ∨
      json ≠ .null ∧ t.accept (.aliases unknown) json = .error e) :
    t.RefusesWithin unknown json e := by
  obtain ⟨rfl, rfl⟩ | ⟨hj, h⟩ := h
  · exact Refuses.null.within
  · exact ht json e hp hj h

theorem FieldType.traces_record {s : Schema} (hs : s.Built)
    (ih : ∀ f ∈ s.fields, f.type.Traces unknown) : (record s).Traces unknown := by
  intro json e hp hj h
  obtain rfl | ⟨entries, rfl, ha⟩ := accept_record_eq_error h
  · exact (Refuses.notAnObject hj (not_conforms_of_accept (.ofSchema hs) hj h)).within
  obtain ⟨f, hf, a, e', hg, hc, rfl⟩ | ⟨hu, key, hk, hno, rfl⟩ | ⟨f, hf, hr, hg, rfl⟩ :=
    Schema.exists_of_accept_aliases_eq_error ha
  · have hpart := (ih f hf).part (hp.entries _ (Entries.mem_of_get?_eq_some hg))
      ((slotOf_eq_error.mp hc).imp_left fun h ↦ ⟨h.1, h.2.2⟩)
    exact hpart.under (step?_field hs.wireKeys hf) hg
  · exact (Refuses.unknown hu hk hno).within
  · exact (Refuses.missing hf hr hg).within

theorem FieldType.traces_seq {items : FieldType} {limits : Limits}
    (ht : (seq items limits).Built) (ih : items.Traces unknown) :
    (seq items limits).Traces unknown := by
  intro json e hp hj h
  obtain rfl | ⟨elements, rfl, ⟨b, hb, rfl⟩ | ⟨i, a, e', hi, he, rfl⟩⟩ := accept_seq_eq_error h
  · exact (Refuses.wrongType hj (not_conforms_of_accept ht hj h)).within
  · exact (Refuses.bound (.seq hb)).within
  · have hpart := ih.part (hp.items a (List.mem_of_getElem? hi)) (refuseNull_eq_error.mp he)
    exact hpart.under rfl ((Json.part?_index elements i).trans hi)

theorem FieldType.traces_map {values : FieldType} (ht : (map values).Built)
    (ih : values.Traces unknown) : (map values).Traces unknown := by
  intro json e hp hj h
  obtain rfl | ⟨entries, rfl, entry, hm, e', he, rfl⟩ := accept_map_eq_error h
  · exact (Refuses.wrongType hj (not_conforms_of_accept ht hj h)).within
  · have hpart := ih.part (hp.entries entry hm) (refuseNull_eq_error.mp he)
    exact hpart.under rfl (Entries.get?_of_mem hp.keys hm)

theorem FieldType.traces {t : FieldType} : t.Built → t.Traces unknown := by
  induction t using FieldType.induction with
  | scalar t hs =>
    intro ht
    exact traces_scalar hs ht
  | record s ih =>
    intro ht
    exact traces_record ht.record fun f hf ↦ ih f hf (ht.record.field hf)
  | seq items limits ih =>
    intro ht
    exact traces_seq ht (ih ht.seq)
  | map values ih =>
    intro ht
    exact traces_map ht (ih ht.map)

end

inductive Schema.Blames (unknown : UnknownKeys) (root : Schema) (payload : Json) :
    Path → Json → WireFault → Prop
  | wrongType {p : Path} {t : FieldType} {w : Json} :
      (FieldType.record root).follow? Field.wireKey p = some t → w ≠ .null →
      ¬ t.Conforms unknown w →
      Schema.Blames unknown root payload p w (.mismatch (.wrongType t.code (.json w.kind)))
  | notAnObject {p : Path} {s : Schema} {w : Json} :
      (FieldType.record root).follow? Field.wireKey p = some (.record s) → w ≠ .null ∨ p = .root →
      ¬ (FieldType.record s).Conforms unknown w →
      Schema.Blames unknown root payload p w (.mismatch (.notAnObject s.name w.kind))
  | null {p : Path} : Schema.Blames unknown root payload p .null (.mismatch .unexpectedNull)
  | unknownKey {parent : Path} {s : Schema} {entries : List (String × Json)} {key : String}
      {w : Json} : unknown = .reject →
      (FieldType.record root).follow? Field.wireKey parent = some (.record s) →
      payload.pointer? parent.pointer = some (.obj entries) → (∀ f ∈ s.fields, f.wireKey ≠ key) →
      Schema.Blames unknown root payload (parent.key key) w (.mismatch (.unknownKey s.name))
  | outOfBounds {p : Path} {t : FieldType} {w : Json} {b : Breach} :
      (FieldType.record root).follow? Field.wireKey p = some t → t.Broken w b →
      Schema.Blames unknown root payload p w (.validation (.outOfBounds b))

/-- A payload that is refused, and not for want of a required field, has the culprit at the path of
the error. -/
theorem Schema.decodeRecord_error_located {s : Schema} (hs : s.Built) {unknown : UnknownKeys}
    {json : Json} (hp : json.Proper) {e : WireError} (h : s.decodeRecord unknown json = .error e)
    (hm : ∀ record field, e.cause ≠ .validation (.missingField record field)) :
    ∃ w, json.pointer? e.path.pointer = some w ∧ s.Blames unknown json e.path w e.cause := by
  cases json with
  | obj entries =>
    obtain ⟨e₀, ha, rfl⟩ := Located.mapError_eq_error.mp h
    have hr : (FieldType.record s).accept (.aliases unknown) (.obj entries) = .error e₀ :=
      Located.map_eq_error.mpr ha
    obtain ⟨p, t, w, e', ht, hw, hrefused, rfl⟩ :=
      FieldType.traces (.ofSchema hs) _ _ hp nofun hr
    have hroot : (⟨p.steps ++ Path.root.steps⟩ : Path) = p := congrArg Path.mk (List.append_nil _)
    cases hrefused with
    | wrongType hj hc =>
      rw [Located.map, hroot]
      exact ⟨w, hw, .wrongType ht hj hc⟩
    | notAnObject hj hc =>
      rw [Located.map, hroot]
      exact ⟨w, hw, .notAnObject ht (.inl hj) hc⟩
    | null =>
      rw [Located.map, hroot]
      exact ⟨.null, hw, .null⟩
    | bound hb =>
      rw [Located.map, hroot]
      exact ⟨w, hw, .outOfBounds ht hb⟩
    | missing => exact absurd rfl (hm _ _)
    | unknown hu hk hno =>
      obtain ⟨value, hv⟩ := Option.isSome_iff_exists.mp ((Entries.get?_isSome_iff _ _).mpr hk)
      refine ⟨value, ?_, .unknownKey hu ht hw hno⟩
      exact (Json.pointer?_key _ p _).trans (by rw [hw]; exact hv)
  | _ =>
    cases h
    refine ⟨_, rfl, .notAnObject rfl (.inr rfl) fun hc ↦ ?_⟩
    obtain ⟨entries, he, -⟩ := FieldType.conforms_record_iff.mp hc
    cases he

/-- An unknown key two levels down, whose text is escaped in the pointer. -/
theorem Catalog.fieldCondition_unknown_located :
    let payload : Json := .obj [("field", .str "x"), ("range", .obj [("gt", .null),
      ("a/b~c", .int 1)])]
    let e : WireError :=
      ⟨⟨[.key "range", .key "a/b~c"]⟩, .mismatch (.unknownKey "Range")⟩
    fieldCondition.Built ∧ payload.Proper ∧ fieldCondition.decodeRecord .reject payload = .error e ∧
      e.path.pointer = "/range/a~1b~0c" ∧ (∀ record field, e.cause ≠ .validation
        (.missingField record field)) ∧
      ∃ w, payload.pointer? e.path.pointer = some w ∧
        fieldCondition.Blames .reject payload e.path w e.cause := by
  intro payload e
  have hp : payload.Proper := by
    refine .obj (by decide) ?_
    simp only [List.forall_mem_cons, List.not_mem_nil, false_implies, implies_true, and_true]
    refine ⟨.str _, .obj (by decide) ?_⟩
    simp only [List.forall_mem_cons, List.not_mem_nil, false_implies, implies_true, and_true]
    exact ⟨.null, .num _⟩
  have he : fieldCondition.decodeRecord .reject payload = .error e := rfl
  have hm : ∀ record field, e.cause ≠ .validation (.missingField record field) := nofun
  exact ⟨fieldCondition_built, hp, he, by decide, hm,
    Schema.decodeRecord_error_located fieldCondition_built hp he hm⟩

namespace Schema

/-- The object at the parent of the error's path lacks the alias of a required field. The path goes
on with the name of the field, so it is that of the missing key just where name and alias agree. -/
theorem decode_missing_located {s : Schema} (hs : s.Built) {unknown : UnknownKeys} {json : Json}
    (hp : json.Proper) {e : WireError} (h : s.decode unknown json = .error e)
    {record field : String} (hm : e.cause = .validation (.missingField record field)) :
    ∃ parent t entries f, (FieldType.record s).follow? Field.wireKey parent = some (.record t) ∧
      json.pointer? parent.pointer = some (.obj entries) ∧
      f ∈ t.fields ∧ f.required = true ∧ Entries.get? f.wireKey entries = none ∧
      record = t.name ∧ field = f.name ∧ e.path = parent.key f.name ∧
      (e.path = parent.key f.wireKey ↔ f.wireKey = f.name) := by
  obtain ⟨hj, h⟩ := decode_eq_error.mp h
  cases json with
  | obj entries =>
    obtain ⟨e₀, ha, rfl⟩ := Located.mapError_eq_error.mp h
    have hr : (FieldType.record s).accept (.aliases unknown) (.obj entries) = .error e₀ :=
      Located.map_eq_error.mpr ha
    obtain ⟨p, t, w, e', ht, hw, hrefused, rfl⟩ := FieldType.traces (.ofSchema hs) _ _ hp hj hr
    cases hrefused with
    | @missing t entries f hf hq hg =>
      cases hm
      have hpath : Path.mk (p.steps ++ (Path.root.key f.name).steps) = p.key f.name := rfl
      refine ⟨p, t, entries, f, ht, hw, hf, hq, hg, rfl, rfl, hpath, ?_⟩
      rw [Located.map, hpath]
      simp [Path.key, Path.push, eq_comm]
    | wrongType | notAnObject | null | bound | unknown => cases hm
  | _ =>
    cases h
    cases hm

def user : Schema :=
  ⟨0, "User", none, [{ Field.plain "user_id" (.str {}) true with wireKey := "userId" }]⟩

def team : Schema := ⟨1, "Team", none,
  [{ Field.plain "members" (.seq (.record user) {}) true with wireKey := "teamMembers" }]⟩

theorem user_built : user.Built := .intro rfl nofun

theorem team_built : team.Built := by
  refine .intro rfl fun t ht ↦ ?_
  obtain rfl := List.mem_singleton.mp ht
  exact user_built

theorem team_missing_located :
    let payload : Json := .obj [("teamMembers", .arr [.obj [("userId", .str "a")], .obj []])]
    let e : WireError := ⟨⟨[.key "teamMembers", .index 1, .key "user_id"]⟩,
      .validation (.missingField "User" "user_id")⟩
    team.Built ∧ payload.Proper ∧ team.decode .reject payload = .error e ∧
    ∃ parent t entries f, (FieldType.record team).follow? Field.wireKey parent = some (.record t) ∧
      payload.pointer? parent.pointer = some (.obj entries) ∧
      f ∈ t.fields ∧ f.required = true ∧ Entries.get? f.wireKey entries = none ∧
      "User" = t.name ∧ "user_id" = f.name ∧ e.path = parent.key f.name ∧
      (e.path = parent.key f.wireKey ↔ f.wireKey = f.name) := by
  intro payload e
  have hp : payload.Proper := by
    refine .obj (by decide) (List.forall_mem_singleton.mpr (.arr ?_))
    rw [List.forall_mem_cons, List.forall_mem_singleton]
    exact ⟨.obj (by decide) (List.forall_mem_singleton.mpr (.str _)), .obj .nil nofun⟩
  have he : team.decode .reject payload = .error e := rfl
  exact ⟨team_built, hp, he, decode_missing_located team_built hp he rfl⟩

/-- The path leads to an entry that is there, and to no alias at all. -/
theorem user_missing_misplaced :
    let payload : Json := .obj [("user_id", .str "a")]
    let e : WireError := ⟨⟨[.key "user_id"]⟩, .validation (.missingField "User" "user_id")⟩
    user.Built ∧ payload.Proper ∧ user.decode .ignore payload = .error e ∧
      payload.pointer? e.path.pointer = some (.str "a") ∧
      ¬ ∃ parent t f, (FieldType.record user).follow? Field.wireKey parent = some (.record t) ∧
        f ∈ t.fields ∧ e.path = parent.key f.wireKey := by
  intro payload e
  have hp : payload.Proper := .obj (by decide) (List.forall_mem_singleton.mpr (.str _))
  refine ⟨user_built, hp, rfl, Json.pointer?_pointer _ _, ?_⟩
  intro h
  obtain ⟨⟨steps⟩, t, f, ht, hf, he⟩ := h
  have hsteps : [Path.Step.key "user_id"] = steps ++ [.key f.wireKey] := congrArg Path.steps he
  cases steps with
  | nil =>
    cases ht
    obtain rfl := List.mem_singleton.mp hf
    exact absurd hsteps (by decide)
  | cons step rest => simp at hsteps

end Schema

end TypedRecord
