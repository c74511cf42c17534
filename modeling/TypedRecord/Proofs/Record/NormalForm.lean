import TypedRecord.Proofs.Json.Proper
import TypedRecord.Proofs.Record.Encoding
import TypedRecord.Proofs.Record.Reading

namespace TypedRecord

mutual

/-- The payload without unknown keys of records, and the known ones in the order of declaration.
Maps and untyped values keep all their keys. -/
def FieldType.normalize : FieldType → Json → Json
  | .record schema, .obj entries => .obj (schema.normalize entries)
  | .seq items _, .arr elements => .arr (elements.map items.normalize)
  | .map values, .obj entries => .obj (entries.map fun e ↦ (e.1, values.normalize e.2))
  | _, json => json

def Schema.normalize : Schema → List (String × Json) → List (String × Json)
  | ⟨_, _, _, fields⟩, entries => Field.normalizeAll fields entries

def Field.normalizeAll : List Field → List (String × Json) → List (String × Json)
  | [], _ => []
  | f :: rest, entries => f.normalize entries ++ Field.normalizeAll rest entries

def Field.normalize : Field → List (String × Json) → List (String × Json)
  | ⟨_, wireKey, type, _, _, _⟩, entries =>
    match Entries.get? wireKey entries with
    | none => []
    | some .null => [(wireKey, .null)]
    | some json => [(wireKey, type.normalize json)]

end

def Field.normal? (f : Field) (entries : List (String × Json)) : Option Json :=
  (Entries.get? f.wireKey entries).map f.type.normalize

section

variable {s : Schema} {f : Field} {t : FieldType} {entries : List (String × Json)} {json : Json}

theorem FieldType.normalize_scalar (ht : t.isScalar) : t.normalize json = json := by
  cases t <;> first | rfl | simp [isScalar] at ht

theorem FieldType.normalize_null : t.normalize .null = .null := by
  cases t <;> rfl

theorem FieldType.normalize_eq_null : t.normalize json = .null ↔ json = .null := by
  cases t <;> cases json <;> simp [normalize]

theorem Schema.normalize_eq :
    s.normalize entries = Entries.collect Field.wireKey (·.normal? entries) s.fields := by
  obtain ⟨_, _, _, fields⟩ := s
  rw [normalize]
  induction fields with
  | nil => rfl
  | cons f rest ih =>
    have hf : f.normalize entries = ((f.normal? entries).map (f.wireKey, ·)).toList := by
      obtain ⟨name, wireKey, type, _, _, _⟩ := f
      rw [Field.normalize, Field.normal?]
      cases Entries.get? wireKey entries with
      | none => rfl
      | some json =>
        cases json with
        | null => simp [FieldType.normalize_null]
        | _ => rfl
    rw [Field.normalizeAll, ih, hf, Entries.collect_cons]

theorem Field.normal?_isSome :
    (f.normal? entries).isSome = true ↔ f.wireKey ∈ entries.map Prod.fst := by
  rw [normal?, Option.isSome_map, Entries.get?_isSome_iff]

theorem Schema.get?_normalize (hs : (s.fields.map Field.wireKey).Nodup) (hf : f ∈ s.fields) :
    Entries.get? f.wireKey (s.normalize entries) = f.normal? entries := by
  rw [normalize_eq]
  exact Entries.get?_collect hs hf

end

section

variable {unknown other : UnknownKeys} {s : Schema} {f : Field} {t : FieldType}
  {entries : List (String × Json)} {json : Json}

theorem Schema.slot?_read (hs : s.Built) (hf : f ∈ s.fields) :
    (s.read entries).slot? f.name = some (f.read entries) := by
  rw [read_eq]
  refine Record.slot?_of_mem hs.names ?_
  rw [Record.fields, ← List.map_prod_left_eq_zip]
  exact List.mem_map_of_mem hf

theorem Field.encode_read {r : Record} (hr : r.slot? f.name = some (f.read entries))
    (hf : f.Conforms unknown entries)
    (ih : ∀ json, f.type.Conforms unknown json →
      f.type.encode (f.type.read json) = .ok (f.type.normalize json)) :
    f.encode r = .ok ((f.normal? entries).map (f.wireKey, ·)).toList := by
  unfold Field.normal?
  cases h : Entries.get? f.wireKey entries with
  | none =>
    rw [read_absent h] at hr
    rw [encode_absent hr]
    rfl
  | some json =>
    by_cases hj : json = .null
    · subst hj
      rw [read_null h] at hr
      rw [encode_null hr (hf.null h), Option.map_some, FieldType.normalize_null]
      rfl
    · rw [read_set h hj] at hr
      rw [encode_set hr (ih json (hf.value json hj h))]
      rfl

theorem FieldType.encode_read : t.Built → ∀ json, t.Conforms unknown json →
    t.encode (t.read json) = .ok (t.normalize json) := by
  induction t using FieldType.induction with
  | scalar t hs =>
    intro _ json _
    rw [read_scalar hs, normalize_scalar hs, encode_scalar hs]
  | record s ih =>
    intro ht json hc
    have hs := ht.record
    obtain ⟨entries, rfl, hf, -⟩ := conforms_record_iff.mp hc
    have he : s.encodeEntries (s.read entries) = .ok (s.normalize entries) := by
      rw [Schema.normalize_eq]
      refine Schema.encodeEntries_eq_ok ?_ ?_
      · intro p hp _
        rw [Schema.read_eq] at hp
        exact ⟨p.1, (List.of_mem_zip hp).1, rfl⟩
      · intro f hm
        exact Field.encode_read (Schema.slot?_read hs hm) (hf f hm) (ih f hm (hs.field hm))
    exact encode_record he
  | seq items limits ih =>
    intro ht json hc
    obtain ⟨elements, rfl, -, he⟩ := conforms_seq_iff.mp hc
    refine encode_list ?_
    rw [List.forall₂_map_left_iff, List.forall₂_map_right_iff]
    exact List.forall₂_same.mpr fun j hj ↦ ih ht.seq j (he j hj)
  | map values ih =>
    intro ht json hc
    obtain ⟨entries, rfl, he⟩ := conforms_map_iff.mp hc
    refine encode_map ?_
    rw [List.forall₂_map_left_iff, List.forall₂_map_right_iff]
    exact List.forall₂_same.mpr fun e hm ↦ ⟨rfl, ih ht.map e.2 (he e hm)⟩

theorem Field.conforms_normalize {normal : List (String × Json)}
    (hn : Entries.get? f.wireKey normal = f.normal? entries) (hf : f.Conforms unknown entries)
    (ih : ∀ json, f.type.Conforms unknown json →
      f.type.Conforms other (f.type.normalize json)) : f.Conforms other normal where
  required hr := by
    rw [← Entries.get?_isSome_iff, hn, normal?_isSome]
    exact hf.required hr
  null h := by
    rw [hn] at h
    obtain ⟨json, hj, he⟩ := Option.map_eq_some_iff.mp h
    rw [FieldType.normalize_eq_null] at he
    exact hf.null (he ▸ hj)
  value json hne h := by
    rw [hn] at h
    obtain ⟨source, hs, rfl⟩ := Option.map_eq_some_iff.mp h
    exact ih source (hf.value source (fun he ↦ hne (FieldType.normalize_eq_null.mpr he)) hs)

theorem FieldType.conforms_normalize : t.Built → ∀ json, t.Conforms unknown json →
    t.Conforms other (t.normalize json) := by
  induction t using FieldType.induction with
  | scalar t hs =>
    intro _ json hc
    rw [normalize_scalar hs]
    exact (conforms_scalar_iff hs).mpr ((conforms_scalar_iff hs).mp hc)
  | record s ih =>
    intro ht json hc
    have hs := ht.record
    obtain ⟨entries, rfl, hf, -⟩ := conforms_record_iff.mp hc
    refine conforms_record_iff.mpr ⟨s.normalize entries, rfl, ?_, ?_⟩
    · intro f hm
      exact Field.conforms_normalize (Schema.get?_normalize hs.wireKeys hm) (hf f hm)
        (ih f hm (hs.field hm))
    · intro _ key hk
      rw [Schema.normalize_eq] at hk
      exact Entries.exists_of_mem_collect_keys hk
  | seq items limits ih =>
    intro ht json hc
    obtain ⟨elements, rfl, hl, he⟩ := conforms_seq_iff.mp hc
    refine conforms_seq_iff.mpr ⟨_, rfl, by rwa [List.length_map], ?_⟩
    rw [List.forall_mem_map]
    exact fun j hj ↦ ih ht.seq j (he j hj)
  | map values ih =>
    intro ht json hc
    obtain ⟨entries, rfl, he⟩ := conforms_map_iff.mp hc
    refine conforms_map_iff.mpr ⟨_, rfl, ?_⟩
    rw [List.forall_mem_map]
    exact fun e hm ↦ ih ht.map e.2 (he e hm)

theorem Field.read_normalize {normal : List (String × Json)}
    (hn : Entries.get? f.wireKey normal = f.normal? entries)
    (ih : ∀ json, f.type.read (f.type.normalize json) = f.type.read json) :
    f.read normal = f.read entries := by
  cases h : Entries.get? f.wireKey entries with
  | none =>
    rw [normal?, h] at hn
    rw [read_absent h, read_absent hn]
  | some json =>
    rw [normal?, h, Option.map_some] at hn
    by_cases hj : json = .null
    · subst hj
      rw [FieldType.normalize_null] at hn
      rw [read_null h, read_null hn]
    · rw [read_set h hj, read_set hn fun he ↦ hj (FieldType.normalize_eq_null.mp he), ih]

theorem Schema.read_normalize (hs : s.Built)
    (ih : ∀ f ∈ s.fields, ∀ json, f.type.read (f.type.normalize json) = f.type.read json) :
    s.read (s.normalize entries) = s.read entries := by
  rw [read_eq, read_eq, Record.mk.injEq]
  refine ⟨rfl, List.map_congr_left fun f hm ↦ ?_⟩
  exact Field.read_normalize (get?_normalize hs.wireKeys hm) (ih f hm)

theorem FieldType.read_normalize : t.Built → ∀ json, t.read (t.normalize json) = t.read json := by
  induction t using FieldType.induction with
  | scalar t hs =>
    intro _ json
    rw [normalize_scalar hs]
  | record s ih =>
    intro ht json
    have hs := ht.record
    cases json with
    | obj entries =>
      rw [normalize, read_record, read_record,
        Schema.read_normalize hs fun f hm ↦ ih f hm (hs.field hm)]
    | _ => rfl
  | seq items limits ih =>
    intro ht json
    cases json with
    | arr elements => simp [normalize, read, Function.comp_def, ih ht.seq]
    | _ => rfl
  | map values ih =>
    intro ht json
    cases json with
    | obj entries => simp [normalize, read, Function.comp_def, ih ht.map]
    | _ => rfl

theorem Schema.length_normalize (hs : (s.fields.map Field.wireKey).Nodup)
    (he : (entries.map Prod.fst).Nodup)
    (hk : ∀ key ∈ entries.map Prod.fst, ∃ f ∈ s.fields, f.wireKey = key) :
    (s.normalize entries).length = entries.length := by
  have hn : ((s.normalize entries).map Prod.fst).Nodup := by
    rw [normalize_eq]
    exact Entries.nodup_collect hs
  have hm : ∀ key, key ∈ (s.normalize entries).map Prod.fst ↔ key ∈ entries.map Prod.fst := by
    intro key
    rw [normalize_eq, Entries.map_fst_collect, List.mem_map]
    simp only [List.mem_filter, Field.normal?_isSome]
    constructor
    · intro h
      obtain ⟨f, hf, h⟩ := h
      exact h ▸ hf.2
    · intro h
      obtain ⟨f, hf, rfl⟩ := hk key h
      exact ⟨f, ⟨hf, h⟩, rfl⟩
  have hp := (List.perm_ext_iff_of_nodup hn he).mpr hm
  simpa only [List.length_map] using hp.length_eq

theorem FieldType.normalize_equal : t.Built → ∀ json, json.Proper → t.Conforms .reject json →
    (t.normalize json).equal json = true := by
  induction t using FieldType.induction with
  | scalar t hs =>
    intro _ json hp _
    rw [normalize_scalar hs]
    exact Json.equal_self_of_proper hp
  | record s ih =>
    intro ht json hp hc
    have hs := ht.record
    obtain ⟨entries, rfl, hf, hk⟩ := conforms_record_iff.mp hc
    have hl := Schema.length_normalize hs.wireKeys hp.keys (hk rfl)
    simp only [normalize, Json.equal, hl, decide_true, Bool.true_and, Json.equalEntries_iff]
    intro e he
    rw [Schema.normalize_eq, Entries.mem_collect] at he
    obtain ⟨f, hm, hkey, hnormal⟩ := he
    obtain ⟨json, hj, hnormal⟩ := Option.map_eq_some_iff.mp hnormal
    refine ⟨json, hkey ▸ hj, ?_⟩
    rw [← hnormal]
    by_cases hnull : json = .null
    · subst hnull
      rw [normalize_null]
      rfl
    · exact ih f hm (hs.field hm) json (hp.entries _ (Entries.mem_of_get?_eq_some hj))
        ((hf f hm).value json hnull hj)
  | seq items limits ih =>
    intro ht json hp hc
    obtain ⟨elements, rfl, -, he⟩ := conforms_seq_iff.mp hc
    rw [normalize, Json.equal, Json.equalItems_iff, List.forall₂_map_left_iff]
    exact List.forall₂_same.mpr fun j hj ↦ ih ht.seq j (hp.items j hj) (he j hj)
  | map values ih =>
    intro ht json hp hc
    obtain ⟨entries, rfl, he⟩ := conforms_map_iff.mp hc
    simp only [normalize, Json.equal, List.length_map, decide_true, Bool.true_and,
      Json.equalEntries_iff, List.forall_mem_map]
    intro e hm
    exact ⟨e.2, Entries.get?_of_mem hp.keys hm, ih ht.map e.2 (hp.entries e hm) (he e hm)⟩

/-- What was decoded is encoded as the normal form of the payload, and that decodes to the same
record again, so that encoding after decoding is idempotent. -/
theorem Schema.encode_decode_eq_normal_form (hs : s.Built) {r : Record}
    (h : s.decode unknown json = .ok (some r)) :
    s.encode r = .ok ((FieldType.record s).normalize json) ∧
    (unknown = .reject → json.Proper →
      ((FieldType.record s).normalize json).equal json = true) ∧
    ∀ other, s.decode other ((FieldType.record s).normalize json) = .ok (some r) := by
  obtain ⟨entries, rfl, hc, rfl⟩ := (decodeRecord_eq_ok hs).mp (decode_eq_some.mp h)
  have ht : (FieldType.record s).Built := FieldType.Built.ofSchema hs
  refine ⟨?_, ?_, ?_⟩
  · exact FieldType.encode_read ht _ hc
  · intro hu hp
    subst hu
    exact FieldType.normalize_equal ht _ hp hc
  · intro other
    refine decode_eq_some.mpr ((decodeRecord_eq_ok hs).mpr ⟨s.normalize entries, rfl, ?_, ?_⟩)
    · exact FieldType.conforms_normalize ht _ hc
    · exact (read_normalize hs fun f hm ↦ FieldType.read_normalize (hs.field hm)).symm

/-- The fields are reordered, and the keys of the map are not. -/
theorem Catalog.sortOptions_normal_form :
    let payload : Json := .obj [("use_weights", .null),
      ("tag_weights", .obj [("b", .int 2), ("a", .int 3)])]
    let normal : Json := .obj [("tag_weights", .obj [("b", .int 2), ("a", .int 3)]),
      ("use_weights", .null)]
    sortOptions.Built ∧ payload.Proper ∧ ∃ r, sortOptions.decode .reject payload = .ok (some r) ∧
      sortOptions.encode r = .ok normal ∧ normal.equal payload = true ∧
      sortOptions.decode .ignore normal = .ok (some r) := by
  intro payload normal
  have hs : sortOptions.Built := built_of_mem_all _ (by simp [all])
  have hp : payload.Proper := by
    refine .obj (by decide) ?_
    rw [List.forall_mem_cons, List.forall_mem_singleton]
    refine ⟨.null, .obj (by decide) ?_⟩
    rw [List.forall_mem_cons, List.forall_mem_singleton]
    exact ⟨.num _, .num _⟩
  obtain ⟨he, hq, hd⟩ := Schema.encode_decode_eq_normal_form hs
    (show sortOptions.decode .reject payload = .ok (some _) from rfl)
  exact ⟨hs, hp, _, rfl, he, hq rfl hp, hd .ignore⟩

end

end TypedRecord
