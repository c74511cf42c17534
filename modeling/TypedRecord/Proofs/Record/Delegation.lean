import TypedRecord.Proofs.Json.Proper
import TypedRecord.Proofs.Record.Encoding
import TypedRecord.Proofs.Record.NormalForm
import TypedRecord.Proofs.Record.Position
import TypedRecord.Proofs.Record.Refusal
import TypedRecord.Proofs.Record.Tracking

namespace TypedRecord

variable {unknown : UnknownKeys} {t u : FieldType} {step name : Path.Step} {wire named : Path}
  {json inner w : Json} {v x : Value}

namespace FieldType.Encloses

/-- The part of the value that is read is what is read of the part. -/
theorem step?_read (h : t.Encloses step name u) (ht : t.Built) (hc : t.Conforms unknown json)
    (hj : json.part? step.name = some inner) (hn : inner ≠ .null) :
    (t.read json).step? name = some (u.read inner) := by
  cases h with
  | @field s f hf =>
    obtain ⟨entries, rfl, -, -⟩ := conforms_record_iff.mp hc
    have hslot : (s.read entries).slot? f.name = some (f.read entries) :=
      Schema.slot?_read ht.record hf
    rw [Field.read_set hj hn] at hslot
    rw [read_record, Value.step?, Record.get?, hslot]
    rfl
  | element i =>
    obtain ⟨elements, rfl, -, -⟩ := conforms_seq_iff.mp hc
    rw [Json.part?_index] at hj
    rw [read, Value.step?, List.getElem?_map, hj]
    rfl
  | @entry values key =>
    obtain ⟨entries, rfl, -⟩ := conforms_map_iff.mp hc
    have hget : Entries.get? key entries = some inner := hj
    rw [read, Value.step?, Entries.get?_map, hget]
    rfl

/-- An error from further inside than the part itself is an error of the part. -/
theorem exists_of_accept_eq_error (h : t.Encloses step name u) (ht : t.Built) (hp : json.Proper)
    (hj : json.part? step.name = some inner) {e : ValidationError}
    (he : t.accept (.aliases unknown) json = .error e) {q : Path} (hq : q ≠ .root)
    (hpath : e.path = q.under step) :
    ∃ e', u.accept (.aliases unknown) inner = .error e' ∧ e = e'.under step := by
  cases h with
  | @field s f hf =>
    obtain rfl | ⟨entries, rfl, ha⟩ := accept_record_eq_error he
    · exact absurd hpath.symm Path.under_ne_root
    obtain ⟨g, hg, a, e', hget, hc, rfl⟩ | ⟨-, key, -, -, rfl⟩ | ⟨g, -, -, -, rfl⟩ :=
      Schema.exists_of_accept_aliases_eq_error ha
    · obtain ⟨hkey, rfl⟩ := Path.under_inj.mp hpath
      obtain rfl := List.inj_on_of_nodup_map ht.record.wireKeys hg hf (Path.Step.key.inj hkey)
      obtain rfl : a = inner := Option.some.inj (hget.symm.trans hj)
      obtain ⟨-, -, rfl⟩ | ⟨-, he'⟩ := slotOf_eq_error.mp hc
      · exact absurd rfl hq
      · exact ⟨e', he', rfl⟩
    -- a key that is unknown or missing is one of the object itself, with no path below it
    · exact absurd (Path.under_inj.mp hpath).2.symm hq
    · exact absurd (Path.under_inj.mp hpath).2.symm hq
  | @element items limits i =>
    obtain rfl | ⟨elements, rfl, ⟨b, -, rfl⟩ | ⟨k, a, e', hk, hc, rfl⟩⟩ := accept_seq_eq_error he
    · exact absurd hpath.symm Path.under_ne_root
    · exact absurd hpath.symm Path.under_ne_root
    · obtain ⟨hkey, rfl⟩ := Path.under_inj.mp hpath
      cases hkey
      rw [Json.part?_index, hk] at hj
      cases hj
      obtain ⟨-, rfl⟩ | ⟨-, he'⟩ := refuseNull_eq_error.mp hc
      · exact absurd rfl hq
      · exact ⟨e', he', rfl⟩
  | @entry values key =>
    obtain rfl | ⟨entries, rfl, entry, hm, e', hc, rfl⟩ := accept_map_eq_error he
    · exact absurd hpath.symm Path.under_ne_root
    · obtain ⟨hkey, rfl⟩ := Path.under_inj.mp hpath
      cases hkey
      have hget := Entries.get?_of_mem hp.keys hm
      obtain rfl : entry.2 = inner := Option.some.inj (hget.symm.trans hj)
      obtain ⟨-, rfl⟩ | ⟨-, he'⟩ := refuseNull_eq_error.mp hc
      · exact absurd rfl hq
      · exact ⟨e', he', rfl⟩

/-- The object or array that is written has, at the part, what is written of it. -/
theorem exists_of_encode_eq_ok (h : t.Encloses step name u) (ht : t.Built)
    (he : t.encode v = .ok json) :
    (∀ x, v.step? name = some x → ∃ w, json.part? step.name = some w ∧ u.encode x = .ok w) ∧
    ∀ w, json.part? step.name = some w → w ≠ .null →
      ∃ x, v.step? name = some x ∧ u.encode x = .ok w := by
  cases h with
  | @field s f hf =>
    obtain ⟨r, entries, rfl, hentries, rfl⟩ := encode_record_eq_ok.mp he
    obtain ⟨-, out, hout, rfl⟩ := Schema.encodeEntries_eq_ok_iff.mp hentries
    have hget : (Json.obj (Entries.collect Field.wireKey out s.fields)).part? f.wireKey = out f :=
      Entries.get?_collect ht.record.wireKeys hf
    rw [Path.Step.name, hget, Value.step?, Record.get?]
    have hemits := hout f hf
    generalize out f = written at hemits
    cases hemits with
    | absent hslot =>
      constructor
      · intro y hy
        obtain hslot | hslot := hslot <;> rw [hslot] at hy <;> cases hy
      · intro w hw
        cases hw
    | null hslot hn =>
      rw [hslot]
      refine ⟨fun y hy ↦ ?_, fun w hw hne ↦ ?_⟩
      · cases hy
      · cases hw
        exact absurd rfl hne
    | @set x w hslot hx =>
      rw [hslot]
      refine ⟨fun y hy ↦ ?_, fun y hy _ ↦ ?_⟩
      · cases hy
        exact ⟨w, rfl, hx⟩
      · cases hy
        exact ⟨x, rfl, hx⟩
  | @element items limits i =>
    obtain ⟨values, elements, rfl, hall, rfl⟩ := encode_seq_eq_ok.mp he
    rw [Json.part?_index, Value.step?]
    obtain ⟨hto, hof⟩ := exists_of_rel (rel_getElem? hall i)
    exact ⟨hto, fun w hw _ ↦ hof w hw⟩
  | @entry values key =>
    obtain ⟨entries, outs, rfl, hall, rfl⟩ := encode_map_eq_ok.mp he
    obtain ⟨hto, hof⟩ :=
      exists_of_rel (Entries.rel_get? (r := fun x w ↦ u.encode x = .ok w) hall key)
    exact ⟨hto, fun w hw _ ↦ hof w hw⟩

end FieldType.Encloses

theorem Json.Proper.part? (hp : json.Proper) {token : String}
    (h : json.part? token = some inner) : inner.Proper := by
  cases json with
  | obj entries => exact hp.entries _ (Entries.mem_of_get?_eq_some h)
  | arr items =>
    obtain ⟨i, -, hi⟩ := Option.bind_eq_some_iff.mp h
    exact hp.items inner (List.mem_of_getElem? hi)
  | _ => cases h

namespace FieldType.HasPart

theorem built (h : t.HasPart wire named u) (ht : t.Built) : u.Built := by
  induction h with
  | here => exact ht
  | inside hstep _ ih => exact ih (hstep.built ht)

theorem follow?_read (h : t.HasPart wire named u) (ht : t.Built) (hc : t.Conforms unknown json)
    (hj : json.pointer? wire.pointer = some w) (hn : w ≠ .null) :
    (t.read json).follow? named = some (u.read w) ∧ u.Conforms unknown w := by
  induction h generalizing json with
  | here t =>
    cases hj
    exact ⟨rfl, hc⟩
  | @inside _ _ _ step name _ _ hstep _ ih =>
    rw [Json.pointer?_under] at hj
    obtain ⟨inner, hinner, hj⟩ := Option.bind_eq_some_iff.mp hj
    have hne : inner ≠ .null := by
      rintro rfl
      exact hn (Json.eq_null_of_pointer? hj)
    have hpart := (hc.part (hstep.step?_eq ht) hinner).resolve_left hne
    rw [Value.follow?_under, hstep.step?_read ht hc hinner hne]
    exact ih (hstep.built ht) hpart hj

theorem exists_of_accept_eq_error (h : t.HasPart wire named u) (ht : t.Built) (hp : json.Proper)
    (hj : json.pointer? wire.pointer = some w) {e : ValidationError}
    (he : t.accept (.aliases unknown) json = .error e) {below : Path} (hb : below ≠ .root)
    (hpath : e.path = wire.append below) :
    ∃ e', u.accept (.aliases unknown) w = .error e' ∧ e = e'.placedAt wire := by
  induction h generalizing json e with
  | here t =>
    cases hj
    exact ⟨e, he, rfl⟩
  | @inside _ _ _ step name wire _ hstep _ ih =>
    rw [Json.pointer?_under] at hj
    obtain ⟨inner, hinner, hj⟩ := Option.bind_eq_some_iff.mp hj
    have hbelow : wire.append below ≠ .root := by
      intro hroot
      have hsteps : wire.steps ++ below.steps = [] := congrArg Path.steps hroot
      exact hb (congrArg Path.mk (List.append_eq_nil_iff.mp hsteps).2)
    obtain ⟨e', he', rfl⟩ := hstep.exists_of_accept_eq_error ht hp hinner he hbelow hpath
    obtain ⟨e'', he'', rfl⟩ :=
      ih (hstep.built ht) (hp.part? hinner) hj he' (Path.under_inj.mp hpath).2
    exact ⟨e'', he'', rfl⟩

theorem exists_of_encode_eq_ok (h : t.HasPart wire named u) (ht : t.Built)
    (he : t.encode v = .ok json) :
    (∀ x, v.follow? named = some x →
      ∃ w, json.pointer? wire.pointer = some w ∧ u.encode x = .ok w) ∧
    ∀ w, json.pointer? wire.pointer = some w → w ≠ .null →
      ∃ x, v.follow? named = some x ∧ u.encode x = .ok w := by
  induction h generalizing v json with
  | here t =>
    refine ⟨fun x hx ↦ ?_, fun w hw _ ↦ ?_⟩
    · cases hx
      exact ⟨json, rfl, he⟩
    · cases hw
      exact ⟨v, rfl, he⟩
  | @inside _ _ _ step name _ _ hstep _ ih =>
    obtain ⟨hto, hof⟩ := hstep.exists_of_encode_eq_ok ht he
    simp only [Json.pointer?_under, Value.follow?_under, Option.bind_eq_some_iff]
    constructor
    · rintro x ⟨y, hy, hx⟩
      obtain ⟨inner, hinner, hey⟩ := hto y hy
      obtain ⟨w, hw, hex⟩ := (ih (hstep.built ht) hey).1 x hx
      exact ⟨w, ⟨inner, hinner, hw⟩, hex⟩
    · rintro w ⟨inner, hinner, hw⟩ hn
      have hne : inner ≠ .null := by
        rintro rfl
        exact hn (Json.eq_null_of_pointer? hw)
      obtain ⟨y, hy, hey⟩ := hof inner hinner hne
      obtain ⟨x, hx, hex⟩ := (ih (hstep.built ht) hey).2 w hw hn
      exact ⟨x, ⟨y, hy, hx⟩, hex⟩

end FieldType.HasPart

namespace Schema

variable {s n : Schema} {r : Record}

/-- What lies at a record inside of another is read and written as that record is on its own. -/
structure Delegates (s : Schema) (wire named : Path) (n : Schema) : Prop where
  decoded {unknown : UnknownKeys} {json w : Json} {r : Record} :
    json.pointer? wire.pointer = some w → w ≠ .null → s.decode unknown json = .ok (some r) →
    ∃ part, (Value.record r).follow? named = some (.record part) ∧
      n.decodeRecord unknown w = .ok part
  /-- The failure of the part is that of the whole if the latter is from inside the part. -/
  refused {unknown : UnknownKeys} {json w : Json} {e' : WireError} : json.Proper →
    json.pointer? wire.pointer = some w → w ≠ .null → n.decodeRecord unknown w = .error e' →
    ∃ e, s.decode unknown json = .error e ∧
      ∀ below, below ≠ .root → e.path = wire.append below → e = e'.placedAt wire
  encoded {r part : Record} {json : Json} : s.encode r = .ok json →
    (Value.record r).follow? named = some (.record part) →
    ∃ w, json.pointer? wire.pointer = some w ∧ n.encode part = .ok w
  written {r : Record} {json w : Json} : s.encode r = .ok json →
    json.pointer? wire.pointer = some w → w ≠ .null →
    ∃ part, (Value.record r).follow? named = some (.record part) ∧ n.encode part = .ok w

theorem decodeRecord_eq_error_iff {e : WireError} : s.decodeRecord unknown json = .error e ↔
    ∃ e', (FieldType.record s).accept (.aliases unknown) json = .error e' ∧
      e'.map WireFault.ofDecoding = e := by
  cases json with
  | obj entries =>
    simp only [decodeRecord, FieldType.accept, ofObject, Located.mapError_eq_error,
      Located.map_eq_error]
  | _ => simp [decodeRecord, FieldType.accept, ofObject, Located.here, Located.map,
      WireFault.ofDecoding]

theorem decodeRecord_of_part (hs : s.Built)
    (h : (FieldType.record s).HasPart wire named (.record n))
    (hj : json.pointer? wire.pointer = some w) (hn : w ≠ .null)
    (hr : s.decodeRecord unknown json = .ok r) :
    ∃ part, (Value.record r).follow? named = some (.record part) ∧
      n.decodeRecord unknown w = .ok part := by
  obtain ⟨entries, rfl, hc, rfl⟩ := (decodeRecord_eq_ok hs).mp hr
  obtain ⟨hread, hpart⟩ := h.follow?_read (.ofSchema hs) hc hj hn
  obtain ⟨inner, rfl, -, -⟩ := FieldType.conforms_record_iff.mp hpart
  exact ⟨n.read inner, hread, (decodeRecord_eq_ok (h.built (.ofSchema hs)).record).mpr
    ⟨inner, rfl, hpart, rfl⟩⟩

/-- The error of the whole, where it lies further inside than the part, is that of the part. -/
theorem decodeRecord_eq_error_of_part (hs : s.Built)
    (h : (FieldType.record s).HasPart wire named (.record n)) (hp : json.Proper)
    (hj : json.pointer? wire.pointer = some w) {e : WireError}
    (he : s.decodeRecord unknown json = .error e) {below : Path} (hb : below ≠ .root)
    (hpath : e.path = wire.append below) :
    ∃ e', n.decodeRecord unknown w = .error e' ∧ e = e'.placedAt wire := by
  obtain ⟨e₀, he₀, rfl⟩ := decodeRecord_eq_error_iff.mp he
  obtain ⟨e', he', rfl⟩ := h.exists_of_accept_eq_error (.ofSchema hs) hp hj he₀ hb hpath
  exact ⟨e'.map WireFault.ofDecoding, decodeRecord_eq_error_iff.mpr ⟨e', he', rfl⟩, rfl⟩

theorem delegates (hs : s.Built) (h : (FieldType.record s).HasPart wire named (.record n)) :
    s.Delegates wire named n where
  decoded hj hn hr := decodeRecord_of_part hs h hj hn (decode_eq_some.mp hr)
  refused := by
    intro unknown json w e' hp hj hn he'
    have hne : json ≠ .null := by
      rintro rfl
      exact hn (Json.eq_null_of_pointer? hj)
    cases hd : s.decodeRecord unknown json with
    | ok r =>
      obtain ⟨part, -, hpart⟩ := decodeRecord_of_part hs h hj hn hd
      rw [he'] at hpart
      cases hpart
    | error e =>
      refine ⟨e, decode_eq_error.mpr ⟨hne, hd⟩, fun below hb hpath ↦ ?_⟩
      obtain ⟨e'', he'', rfl⟩ := decodeRecord_eq_error_of_part hs h hp hj hd hb hpath
      rw [he'', Except.error.injEq] at he'
      rw [he']
  encoded := by
    intro r part json he hpart
    have hwhole : (FieldType.record s).encode (.record r) = .ok json := he
    exact (h.exists_of_encode_eq_ok (.ofSchema hs) hwhole).1 _ hpart
  written := by
    intro r json w he hw hn
    have hwhole : (FieldType.record s).encode (.record r) = .ok json := he
    obtain ⟨x, hx, hex⟩ := (h.exists_of_encode_eq_ok (.ofSchema hs) hwhole).2 w hw hn
    obtain ⟨part, entries, rfl, -, -⟩ := FieldType.encode_record_eq_ok.mp hex
    exact ⟨part, hx, hex⟩

/-- The place of a value shows in the paths of its errors and nowhere else; and so a record inside
of another is read and written as it is on its own. -/
theorem nested_record_delegates (hs : s.Built)
    (h : (FieldType.record s).HasPart wire named (.record n)) :
    (∀ (t : FieldType) (rule : KeyRule) (p : Path) (json : Json),
      t.checkAt rule p json = Located.beneath p (t.checkAt rule .root json) ∧
      t.checkAt rule .root json = t.check rule json) ∧
    s.Delegates wire named n := by
  refine ⟨fun t rule p json ↦ ?_, delegates hs h⟩
  have hroot : t.checkAt rule .root json = t.check rule json := by
    rw [FieldType.checkAt_eq, Located.beneath_root]
  exact ⟨by rw [hroot, FieldType.checkAt_eq], hroot⟩

/-- The second member is refused by itself, and with it the team. -/
theorem team_delegates :
    let wire : Path := ⟨[.key "teamMembers", .index 1]⟩
    let named : Path := ⟨[.key "members", .index 1]⟩
    let w : Json := .obj [("userId", .int 3)]
    let payload : Json := .obj [("teamMembers", .arr [.obj [("userId", .str "a")], w])]
    let e' : WireError := ⟨⟨[.key "userId"]⟩, .mismatch (.wrongType .string (.json .number))⟩
    team.Built ∧ (FieldType.record team).HasPart wire named (.record user) ∧
    payload.Proper ∧ payload.pointer? wire.pointer = some w ∧
    user.decodeRecord .ignore w = .error e' ∧
    team.decode .ignore payload = .error (e'.placedAt wire) ∧
    team.Delegates wire named user := by
  intro wire named w payload e'
  have hpart : (FieldType.record team).HasPart wire named (.record user) :=
    .inside (.field (f := team.fields.head nofun) (List.head_mem _))
      (.inside (.element 1) (.here _))
  have hp : payload.Proper := by decide
  have hw : payload.pointer? wire.pointer = some w := Json.pointer?_pointer _ _
  have he' : user.decodeRecord .ignore w = .error e' := rfl
  have hdelegates := (nested_record_delegates team_built hpart).2
  obtain ⟨e, he, hbelow⟩ := hdelegates.refused hp hw nofun he'
  have hplace : e = e'.placedAt wire := by
    refine hbelow ⟨[.key "userId"]⟩ nofun ?_
    cases he
    rfl
  exact ⟨team_built, hpart, hp, hw, he', hplace ▸ he, hdelegates⟩

end Schema

end TypedRecord
