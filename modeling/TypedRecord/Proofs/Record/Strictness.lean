import TypedRecord.Proofs.Record.Refusal

namespace TypedRecord

/-- Along the path `p` of aliases lies an object of the record `s`, and `key` is a key of the object
but no alias of the record. Objects of maps and objects inside arbitrary JSON are of no record. -/
inductive FieldType.Stray (t : FieldType) (json : Json) : Path → Schema → String → Prop
  | intro {p : Path} {s : Schema} {entries : List (String × Json)} {key : String} :
      t.follow? Field.wireKey p = some (.record s) → json.pointer? p.pointer = some (.obj entries) →
      key ∈ entries.map Prod.fst → (∀ f ∈ s.fields, f.wireKey ≠ key) →
      FieldType.Stray t json p s key

/-- In objects of a record, at any depth, all keys are aliases. -/
def FieldType.KnownKeys (t : FieldType) (json : Json) : Prop :=
  ∀ p s key, ¬ t.Stray json p s key

section

variable {unknown : UnknownKeys} {s : Schema} {t u : FieldType} {json inner : Json} {p : Path}

theorem FieldType.Stray.under {step : Path.Step} {key : String}
    (ht : t.step? Field.wireKey step = some u) (hj : json.part? step.name = some inner)
    (h : u.Stray inner p s key) : t.Stray json (p.under step) s key := by
  obtain ⟨hs, hw, hk, hno⟩ := h
  refine .intro ((follow?_under ht).trans hs) ?_ hk hno
  rw [Json.pointer?_under, hj, Option.bind_some, hw]

theorem FieldType.Conforms.ignore (h : t.Conforms unknown json) : t.Conforms .ignore json := by
  induction h with
  | scalar h => exact .scalar h
  | record hr hn _ _ ih => exact .record hr hn ih nofun
  | seq hl _ ih => exact .seq hl ih
  | map _ ih => exact .map ih

theorem FieldType.Conforms.knownKeys (h : t.Conforms .reject json) : t.KnownKeys json := by
  intro p s key hstray
  obtain ⟨hs, hw, hk, hno⟩ := hstray
  obtain hn | hc := h.follow hs hw
  · cases hn
  · obtain ⟨entries, he, -, hknown⟩ := conforms_record_iff.mp hc
    cases he
    obtain ⟨f, hf, hkey⟩ := hknown rfl key hk
    exact hno f hf hkey

def FieldType.BlamesStray (t : FieldType) (json : Json) (e : ValidationError) : Prop :=
  ∃ p s key, t.Stray json p s key ∧ e = ⟨p.key key, .unknownField s.name key⟩

theorem FieldType.BlamesStray.under {step : Path.Step} {e : ValidationError}
    (ht : t.step? Field.wireKey step = some u) (hj : json.part? step.name = some inner)
    (h : u.BlamesStray inner e) : t.BlamesStray json (e.under step) := by
  obtain ⟨p, s, key, hstray, rfl⟩ := h
  exact ⟨p.under step, s, key, hstray.under ht hj, rfl⟩

/-- What is accepted but for unknown keys is refused for one of these. -/
def FieldType.RefusesStray (t : FieldType) : Prop :=
  ∀ json e, json.Proper → t.Conforms .ignore json → t.accept (.aliases .reject) json = .error e →
    t.BlamesStray json e

namespace FieldType

theorem refusesStray_record (hs : s.Built) (ih : ∀ f ∈ s.fields, f.type.RefusesStray) :
    (record s).RefusesStray := by
  intro json e hp hc h
  obtain ⟨entries, rfl, hf, -⟩ := conforms_record_iff.mp hc
  obtain ⟨f, hm, a, e', hg, he, rfl⟩ | ⟨-, key, hk, hno, rfl⟩ | ⟨f, hm, hq, hg, rfl⟩ :=
    Schema.exists_of_accept_aliases_eq_error (Located.map_eq_error.mp h)
  -- the fields are as they should be, so the error is from inside a value or about a key
  · obtain ⟨rfl, hn, -⟩ | ⟨hj, he⟩ := slotOf_eq_error.mp he
    · rw [(hf f hm).null hg] at hn
      cases hn
    · have hinner := hp.entries _ (Entries.mem_of_get?_eq_some hg)
      exact (ih f hm a e' hinner ((hf f hm).value a hj hg) he).under
        (step?_field hs.wireKeys hm) hg
  · exact ⟨.root, s, key, .intro rfl rfl hk hno, rfl⟩
  · exact absurd ((hf f hm).required hq) (Entries.get?_eq_none_iff.mp hg)

theorem refusesStray_seq {items : FieldType} {limits : Limits} (ih : items.RefusesStray) :
    (seq items limits).RefusesStray := by
  intro json e hp hc h
  obtain ⟨elements, rfl, hl, hitems⟩ := conforms_seq_iff.mp hc
  obtain ⟨b, hb, -⟩ | ⟨-, h⟩ := guardBreach_eq_error.mp h
  · rw [Limits.breach?_eq_none_iff.mpr hl] at hb
    cases hb
  · obtain ⟨i, a, e', hi, he, rfl⟩ :=
      Located.exists_of_traverse_eq_error (Located.map_eq_error.mp h)
    have hm := List.mem_of_getElem? hi
    obtain ⟨rfl, -⟩ | ⟨-, he⟩ := refuseNull_eq_error.mp he
    · exact absurd rfl (hitems _ hm).ne_null
    · have hpart := (Json.part?_index elements i).trans hi
      exact (ih a e' (hp.items a hm) (hitems a hm) he).under rfl hpart

theorem refusesStray_map {values : FieldType} (ih : values.RefusesStray) :
    (map values).RefusesStray := by
  intro json e hp hc h
  obtain ⟨entries, rfl, hvalues⟩ := conforms_map_iff.mp hc
  obtain ⟨entry, hm, e', he, rfl⟩ :=
    Located.exists_of_traverseEntries_eq_error (Located.map_eq_error.mp h)
  obtain ⟨hn, -⟩ | ⟨-, he⟩ := refuseNull_eq_error.mp he
  · exact absurd hn (hvalues entry hm).ne_null
  · exact (ih entry.2 e' (hp.entries entry hm) (hvalues entry hm) he).under rfl
      (Entries.get?_of_mem hp.keys hm)

theorem refusesStray {t : FieldType} : t.Built → t.RefusesStray := by
  induction t using FieldType.induction with
  | scalar t hs =>
    intro ht json e _ hc h
    have ha : t.accept (.aliases .reject) json = .ok (.scalar json) :=
      (accept_scalar_eq_ok hs ht hc.ne_null).mpr ⟨(conforms_scalar_iff hs).mp hc, rfl⟩
    rw [h] at ha
    cases ha
  | record s ih =>
    intro ht
    exact refusesStray_record ht.record fun f hf ↦ ih f hf (ht.record.field hf)
  | seq items limits ih =>
    intro ht
    exact refusesStray_seq (ih ht.seq)
  | map values ih =>
    intro ht
    exact refusesStray_map (ih ht.map)

end FieldType

namespace Schema

variable {r : Record} {e : WireError}

theorem exists_stray_of_decodeRecord (hs : s.Built) (hp : json.Proper)
    (hr : s.decodeRecord .ignore json = .ok r) (he : s.decodeRecord .reject json = .error e) :
    ∃ p t key, (FieldType.record s).Stray json p t key ∧
      e = ⟨p.key key, .mismatch (.unknownKey t.name)⟩ := by
  obtain ⟨entries, rfl, hc, -⟩ := (decodeRecord_eq_ok hs).mp hr
  obtain ⟨e₀, ha, rfl⟩ := Located.mapError_eq_error.mp he
  obtain ⟨p, t, key, hstray, rfl⟩ :=
    FieldType.refusesStray (.ofSchema hs) _ _ hp hc (Located.map_eq_error.mpr ha)
  exact ⟨p, t, key, hstray, rfl⟩

theorem decodeRecord_reject_eq_ok_iff (hs : s.Built) (hp : json.Proper) :
    s.decodeRecord .reject json = .ok r ↔
      s.decodeRecord .ignore json = .ok r ∧ (FieldType.record s).KnownKeys json := by
  constructor
  · intro h
    obtain ⟨entries, he, hc, hr⟩ := (decodeRecord_eq_ok hs).mp h
    exact ⟨(decodeRecord_eq_ok hs).mpr ⟨entries, he, hc.ignore, hr⟩, hc.knownKeys⟩
  · intro h
    obtain ⟨hi, hknown⟩ := h
    cases hd : s.decodeRecord .reject json with
    | ok found =>
      obtain ⟨entries, rfl, -, rfl⟩ := (decodeRecord_eq_ok hs).mp hi
      obtain ⟨_, he, -, rfl⟩ := (decodeRecord_eq_ok hs).mp hd
      cases he
      rfl
    | error e =>
      obtain ⟨p, t, key, hstray, -⟩ := exists_stray_of_decodeRecord hs hp hi hd
      exact absurd hstray (hknown p t key)

/-- Only keys of objects of a record are ever complained of as unknown. -/
theorem exists_stray_of_unknownKey (hs : s.Built) (hp : json.Proper) {name : String}
    (h : s.decodeRecord unknown json = .error e) (hu : e.cause = .mismatch (.unknownKey name)) :
    ∃ p t key, (FieldType.record s).Stray json p t key ∧ e.path = p.key key ∧ name = t.name := by
  cases json with
  | obj entries =>
    obtain ⟨e₀, ha, rfl⟩ := Located.mapError_eq_error.mp h
    obtain ⟨p, t, w, e', ht, hw, hrefused, rfl⟩ :=
      FieldType.traces (.ofSchema hs) _ _ hp nofun (Located.map_eq_error.mpr ha)
    cases hrefused with
    | @unknown t entries key _ hk hno =>
      cases hu
      exact ⟨p, t, key, .intro ht hw hk hno, rfl, rfl⟩
    | wrongType | notAnObject | null | bound | missing => cases hu
  | _ =>
    cases h
    cases hu

/-- To refuse unknown keys is to ignore them and then refuse every object of a record, at whatever
depth, in which one stands. The error leads to such a key, and no other key is ever unknown. -/
theorem decode_reject_iff_ignore (hs : s.Built) (hp : json.Proper) :
    (∀ r, s.decode .reject json = .ok (some r) ↔
      s.decode .ignore json = .ok (some r) ∧ (FieldType.record s).KnownKeys json) ∧
    (∀ r, s.decode .ignore json = .ok (some r) → ¬ (FieldType.record s).KnownKeys json →
      ∃ p t key, (FieldType.record s).Stray json p t key ∧
        s.decode .reject json = .error ⟨p.key key, .mismatch (.unknownKey t.name)⟩) ∧
    ∀ e name, s.decode .reject json = .error e → e.cause = .mismatch (.unknownKey name) →
      ∃ p t key, (FieldType.record s).Stray json p t key ∧ e.path = p.key key ∧ name = t.name := by
  refine ⟨fun r ↦ ?_, fun r hr hstray ↦ ?_, fun e name he hu ↦ ?_⟩
  · rw [decode_eq_some, decode_eq_some]
    exact decodeRecord_reject_eq_ok_iff hs hp
  · have hi := decode_eq_some.mp hr
    cases hd : s.decodeRecord .reject json with
    | ok found =>
      exact absurd ((decodeRecord_reject_eq_ok_iff hs hp).mp hd).2 hstray
    | error e =>
      obtain ⟨p, t, key, hkey, rfl⟩ := exists_stray_of_decodeRecord hs hp hi hd
      obtain ⟨entries, rfl, -, -⟩ := (decodeRecord_eq_ok hs).mp hi
      exact ⟨p, t, key, hkey, decode_eq_error.mpr ⟨nofun, hd⟩⟩
  · exact exists_stray_of_unknownKey hs hp (decode_eq_error.mp he).2 hu

def hall : Schema := ⟨2, "Hall", none,
  [.plain "rows" (.map (.seq (.record user) {})) true, .plain "notes" .any false]⟩

theorem hall_built : hall.Built := by
  refine .intro rfl fun t ht ↦ ?_
  obtain rfl := List.mem_singleton.mp ht
  exact user_built

/-- Neither the key of a row nor one in the notes is unknown. -/
theorem hall_seat_stray :
    let payload : Json := .obj [("notes", .obj [("age", .int 3)]),
      ("rows", .obj [("a", .arr [.obj [("userId", .str "x")],
        .obj [("userId", .str "y"), ("age", .int 3)]])])]
    let r : Record := ⟨hall, [.set (.map [("a", .list [
        .record ⟨user, [.set (.scalar (.str "x"))]⟩,
        .record ⟨user, [.set (.scalar (.str "y"))]⟩])]),
      .set (.scalar (.obj [("age", .int 3)]))]⟩
    hall.Built ∧ payload.Proper ∧ hall.decode .ignore payload = .ok (some r) ∧
    hall.decode .reject payload = .error
      ⟨⟨[.key "rows", .key "a", .index 1, .key "age"]⟩, .mismatch (.unknownKey "User")⟩ ∧
    ¬ (FieldType.record hall).KnownKeys payload ∧
    ∃ p t key, (FieldType.record hall).Stray payload p t key ∧
      hall.decode .reject payload = .error ⟨p.key key, .mismatch (.unknownKey t.name)⟩ := by
  intro payload r
  have hp : payload.Proper := by decide
  have hr : hall.decode .ignore payload = .ok (some r) := rfl
  have hstray : ¬ (FieldType.record hall).KnownKeys payload := by
    intro hknown
    have h := ((decode_reject_iff_ignore hall_built hp).1 r).mpr ⟨hr, hknown⟩
    cases h
  exact ⟨hall_built, hp, hr, rfl, hstray, (decode_reject_iff_ignore hall_built hp).2.1 r hr hstray⟩

end Schema

end

end TypedRecord
