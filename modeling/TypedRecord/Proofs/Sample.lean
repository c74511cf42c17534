import TypedRecord.Proofs.Record.Preservation
import TypedRecord.Sample

namespace TypedRecord

theorem Json.proper_float (x : Binary64) : (Json.float x).Proper := by
  cases x with
  | finite x => exact .num _
  | nan | infinite => exact .null

theorem Json.proper_getD (value : Option String) : ((value.map Json.str).getD .null).Proper := by
  cases value with
  | none => exact .null
  | some value => exact .str value

theorem Input.sound_ofJson {known : Schema → Prop} {adopts : Schema → Schema → Prop} {json : Json}
    (h : json.Proper) : (Input.ofJson json).Sound known adopts := by
  cases json with
  | null => trivial
  | _ => exact h

section

variable {withOptional : Bool} {s : Schema}

theorem Field.sampleAll_eq (fields : List Field) : Field.sampleAll withOptional fields =
    Entries.collect Field.name (fun f ↦
      if withOptional || f.required then some (f.type.sample withOptional) else none) fields := by
  induction fields with
  | nil => rfl
  | cons f rest ih =>
    obtain ⟨name, _, type, required, _, _⟩ := f
    rw [Field.sampleAll, ih, Field.sample, Entries.collect_cons]
    cases withOptional || required <;> rfl

theorem Schema.sampleEntries_eq : s.sampleEntries withOptional =
    Entries.collect Field.name (fun f ↦
      if withOptional || f.required then some (f.type.sample withOptional) else none) s.fields := by
  cases s
  exact Field.sampleAll_eq _

theorem Schema.proper_sampleEntries (hs : (s.fields.map Field.name).Nodup)
    (ih : ∀ f ∈ s.fields, (f.type.sample withOptional).Proper) :
    (Json.obj (s.sampleEntries withOptional)).Proper := by
  rw [sampleEntries_eq]
  refine .obj (Entries.nodup_collect hs) fun e he ↦ ?_
  obtain ⟨f, hf, -, h⟩ := Entries.mem_collect.mp he
  obtain ⟨-, h⟩ := Option.ite_none_right_eq_some.mp h
  exact Option.some.inj h ▸ ih f hf

theorem FieldType.proper_sample {t : FieldType} : t.Built → (t.sample withOptional).Proper := by
  induction t using FieldType.induction with
  | scalar t hs ih =>
    intro ht
    cases t with
    | str => exact .str _
    | int => exact .num _
    | num => exact Json.proper_float _
    | bool => exact .bool _
    | any => exact .obj .nil nofun
    | enum e => exact Json.proper_getD _
    | union members =>
      cases members with
      | nil => exact .null
      | cons t rest => exact ih t List.mem_cons_self (ht.member List.mem_cons_self)
    | record | seq | map => simp [isScalar] at hs
  | record s ih =>
    intro ht
    exact Schema.proper_sampleEntries ht.record.names fun f hf ↦ ih f hf (ht.record.field hf)
  | seq items limits ih =>
    intro ht
    exact .arr fun j hj ↦ List.eq_of_mem_replicate hj ▸ ih ht.seq
  | map values ih =>
    intro ht
    exact .obj (List.nodup_singleton _) (List.forall_mem_singleton.mpr (ih ht.map))

end

theorem Schema.Family.sample_whole {known : Schema → Prop} {adopts : Schema → Schema → Prop}
    (hf : Schema.Family known adopts) {s : Schema} {withOptional : Bool} {r : Record} (hs : known s)
    (h : s.sample withOptional = .ok r) : r.schema = s ∧ r.Whole adopts := by
  have hb := hf.built s hs
  have hp : (Json.obj (s.sampleEntries withOptional)).Proper :=
    Schema.proper_sampleEntries hb.names fun f hm ↦ FieldType.proper_sample (hb.field hm)
  refine hf.construct_whole hs ?_ h
  rw [List.forall_mem_map]
  exact fun e he ↦ Input.sound_ofJson (hp.entries e he)

end TypedRecord
