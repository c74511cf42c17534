import TypedRecord.Proofs.Record.Change
import TypedRecord.Proofs.Record.Reading
import TypedRecord.Proofs.Record.Validity
import TypedRecord.Proofs.Schema.Lookup
import TypedRecord.Record.Access

namespace TypedRecord

variable {known : Schema → Prop} {adopts : Schema → Schema → Prop}

/-- What a caller may supply: JSON without repeated keys, and records that are whole. -/
def Input.Sound (known : Schema → Prop) (adopts : Schema → Schema → Prop) : Input → Prop
  | .null => True
  | .json value => value.Proper
  | .record r => known r.schema ∧ r.Whole adopts
  | .records rs => ∀ r ∈ rs, known r.schema ∧ r.Whole adopts

theorem slotOf_fits {f : Field} {accept : Json → Except ValidationError Value} {json : Json}
    {slot : Slot} (ha : ∀ v, json ≠ .null → accept json = .ok v → v.Fits adopts f.type)
    (h : slotOf f.nullable accept json = .ok slot) : slot.Fits adopts f := by
  obtain ⟨-, hn, rfl⟩ | ⟨hj, v, hv, rfl⟩ := slotOf_eq_ok.mp h
  · exact hn
  · exact ha v hj hv

/-- However the inputs are converted, slots that fit make a whole record. -/
theorem Record.whole_of_assemble {α : Type} {rule : KeyRule} {s : Schema}
    {convert : Field → α → Except ValidationError Slot} {entries : List (String × α)}
    {slots : List Slot}
    (hc : ∀ f ∈ s.fields, ∀ e ∈ entries, ∀ slot, convert f e.2 = .ok slot → slot.Fits adopts f)
    (h : Intake.assemble rule s.name (s.fields.map fun f ↦ ⟨f, convert f⟩) entries = .ok slots) :
    Record.Whole adopts ⟨s, slots⟩ :=
  whole_iff_forall₂.mpr (Intake.forall₂_of_assemble (fun _ _ hr ↦ hr) hc h)

theorem Schema.accept_whole {rule : KeyRule} {s : Schema} {entries : List (String × Json)}
    {r : Record} (hp : ∀ e ∈ entries, e.2.Proper)
    (ih : ∀ f ∈ s.fields, ∀ json v, json ≠ .null → json.Proper →
      f.type.accept rule json = .ok v → v.Fits adopts f.type)
    (h : s.accept rule entries = .ok r) : r.schema = s ∧ r.Whole adopts := by
  rw [accept_eq, Located.map_eq_ok] at h
  obtain ⟨slots, ha, rfl⟩ := h
  refine ⟨rfl, Record.whole_of_assemble ?_ ha⟩
  intro f hm e he slot hslot
  exact slotOf_fits (fun v hj hv ↦ ih f hm e.2 v hj (hp e he) hv) hslot

namespace Schema.Family

variable (hf : Schema.Family known adopts)

include hf

theorem refl {s : Schema} (hs : known s) : adopts s s :=
  hf.adopts s s hs hs s.sameAs_self

theorem accept_fits {rule : KeyRule} {t : FieldType} : t.Over known → ∀ json v, json ≠ .null →
    json.Proper → t.accept rule json = .ok v → v.Fits adopts t := by
  induction t using FieldType.induction with
  | scalar t hs =>
    intro ht json v hj hp h
    obtain ⟨ha, rfl⟩ := (FieldType.accept_scalar_eq_ok hs ht.built hj).mp h
    exact .scalar ha hp
  | record s ih =>
    intro ht json v _ hp h
    have hs := ht.record
    cases json with
    | obj entries =>
      simp only [FieldType.accept, ofObject, Located.map_eq_ok] at h
      obtain ⟨r, ha, rfl⟩ := h
      obtain ⟨rfl, hw⟩ := Schema.accept_whole hp.entries
        (fun f hm ↦ ih f hm (.field hf hs hm)) ha
      exact Value.fits_record_iff.mpr ⟨r, rfl, hf.refl hs, hw⟩
    | _ => simp [FieldType.accept, ofObject, Located.here] at h
  | seq items limits ih =>
    intro ht json v _ hp h
    cases json with
    | arr elements =>
      simp only [FieldType.accept, ofArray, guardBreach_eq_ok, Limits.breach?_eq_none_iff,
        Located.map_eq_ok, Located.traverse_eq_ok] at h
      obtain ⟨hl, values, hv, rfl⟩ := h
      refine .list (hv.length_eq ▸ hl) fun v hm ↦ ?_
      obtain ⟨j, hj, hv⟩ := exists_of_mem_outcomes hv hm
      obtain ⟨hne, hv⟩ := refuseNull_eq_ok.mp hv
      exact ih ht.seq j v hne (hp.items j hj) hv
    | _ => simp [FieldType.accept, ofArray, wrongType, Located.here] at h
  | map values ih =>
    intro ht json v _ hp h
    cases json with
    | obj entries =>
      simp only [FieldType.accept, ofObject, Located.map_eq_ok, Located.traverseEntries_eq_ok] at h
      obtain ⟨outs, ho, rfl⟩ := h
      have hkeys : outs.map Prod.fst = entries.map Prod.fst :=
        map_outcomes_eq (ho.imp fun _ _ h ↦ h.1)
      refine .map (hkeys ▸ hp.keys) fun out hm ↦ ?_
      obtain ⟨e, he, -, hv⟩ := exists_of_mem_outcomes ho hm
      obtain ⟨hne, hv⟩ := refuseNull_eq_ok.mp hv
      exact ih ht.map e.2 out.2 hne (hp.entries e he) hv
    | _ => simp [FieldType.accept, ofObject, Located.here] at h

theorem check_fits {rule : KeyRule} {f : Field} {json : Json} {slot : Slot}
    (ht : f.type.Over known) (hp : json.Proper) (h : f.check rule json = .ok slot) :
    slot.Fits adopts f :=
  slotOf_fits (fun v hj hv ↦ hf.accept_fits ht json v hj hp hv) h

theorem adopt_fits {s : Schema} {r : Record} {v : Value} (hs : known s)
    (hr : known r.schema ∧ r.Whole adopts) (h : s.adopt r = .ok v) : v.Fits adopts (.record s) := by
  unfold Schema.adopt at h
  split at h
  next ha =>
    cases h
    exact Value.fits_record_iff.mpr ⟨r, rfl, hf.adopts s r.schema hs hr.1 ha, hr.2⟩
  next => cases h

theorem receive_fits {f : Field} {input : Input} {slot : Slot} (ht : f.type.Over known)
    (hi : input.Sound known adopts) (h : f.receive input = .ok slot) : slot.Fits adopts f := by
  cases input with
  | null => exact hf.check_fits ht .null h
  | json value => exact hf.check_fits ht hi h
  | record r =>
    simp only [Field.receive] at h
    split at h
    next expected he =>
      obtain ⟨v, hv, rfl⟩ := Located.map_eq_ok.mp h
      rw [he] at ht
      have hfit := hf.adopt_fits ht.record hi hv
      rwa [← he] at hfit
    next => cases h
  | records rs =>
    simp only [Field.receive] at h
    split at h
    next expected limits he =>
      obtain ⟨hl, h⟩ := guardBreach_eq_ok.mp h
      obtain ⟨values, hv, rfl⟩ := Located.map_eq_ok.mp h
      rw [Located.traverse_eq_ok] at hv
      rw [he] at ht
      have hfit : (Value.list values).Fits adopts (.seq (.record expected) limits) := by
        refine .list (hv.length_eq ▸ Limits.breach?_eq_none_iff.mp hl) fun v hm ↦ ?_
        obtain ⟨r, hr, hv⟩ := exists_of_mem_outcomes hv hm
        exact hf.adopt_fits ht.seq.record (hi r hr) hv
      rwa [← he] at hfit
    next => cases h
    next => cases h

theorem construct_whole {s : Schema} {inputs : List (String × Input)} {r : Record} (hs : known s)
    (hi : ∀ e ∈ inputs, e.2.Sound known adopts) (h : s.construct inputs = .ok r) :
    r.schema = s ∧ r.Whole adopts := by
  obtain ⟨slots, ha, rfl⟩ := Located.map_eq_ok.mp h
  refine ⟨rfl, Record.whole_of_assemble ?_ ha⟩
  intro f hm e he slot hslot
  exact hf.receive_fits (.field hf hs hm) (hi e he) hslot

theorem decode_whole {s : Schema} {unknown : UnknownKeys} {json : Json} {r : Record} (hs : known s)
    (hp : json.Proper) (h : s.decode unknown json = .ok (some r)) :
    r.schema = s ∧ r.Whole adopts := by
  obtain ⟨entries, rfl, ha⟩ := decodeRecord_eq_ok_accept.mp (decode_eq_some.mp h)
  exact accept_whole hp.entries (fun f hm ↦ hf.accept_fits (.field hf hs hm)) ha

theorem stands_fits {f : Field} {input? : Option Input} {slot : Slot} (ht : f.type.Over known)
    (hi : ∀ input, input? = some input → input.Sound known adopts) (h : f.Stands slot input?) :
    slot.Fits adopts f := by
  cases input? with
  | none =>
    obtain ⟨hq, rfl⟩ := h
    exact hq
  | some input => exact hf.receive_fits ht (hi input rfl) h

/-- Whether the call succeeds or not, the record that it leaves is whole. -/
theorem perform_whole {r : Record} {e : Edit} (hr : known r.schema) (hw : r.Whole adopts)
    (hi : ∀ input, e.input? = some input → input.Sound known adopts) :
    (e.perform r).2.schema = r.schema ∧ (e.perform r).2.Whole adopts := by
  rw [Edit.perform_eq]
  cases hl : r.schema.locate? e.name with
  | none => exact ⟨rfl, hw⟩
  | some p =>
    obtain ⟨f, i⟩ := p
    simp only
    cases ho : e.outcome r.schema.name f with
    | error => exact ⟨rfl, hw⟩
    | ok slot =>
      have hm := (Schema.getElem?_of_locate? hl).1
      have hfit := hf.stands_fits (.field hf hr (List.mem_of_getElem? hm)) hi
        (Edit.outcome_eq_ok.mp ho)
      rw [Record.whole_iff_forall₂] at hw ⊢
      exact ⟨rfl, forall₂_set hw hm hfit⟩

end Schema.Family

theorem Value.step?_fits {t : FieldType} {v part : Value} {step : Path.Step}
    (hv : v.Fits adopts t) (h : v.step? step = some part) : ∃ u, part.Fits adopts u := by
  cases hv with
  | scalar => cases step <;> cases h
  | record ha hl hr hn hs =>
    cases step with
    | index i => cases h
    | key name =>
      obtain ⟨slot, hslot, hp⟩ := Option.bind_eq_some_iff.mp h
      obtain ⟨f, hm, -⟩ := Record.mem_fields_of_slot? hslot
      cases slot with
      | absent | null => cases hp
      | set v =>
        cases hp
        exact ⟨f.type, hs f _ hm⟩
  | list hl hv =>
    cases step with
    | key name => cases h
    | index i => exact ⟨_, hv part (List.mem_of_getElem? h)⟩
  | map hk hv =>
    cases step with
    | index i => cases h
    | key name => exact ⟨_, hv _ (Entries.mem_of_get?_eq_some h)⟩

theorem Value.foldlM_step?_fits {t : FieldType} {v part : Value} {steps : List Path.Step}
    (hv : v.Fits adopts t) (h : steps.foldlM step? v = some part) : ∃ u, part.Fits adopts u := by
  induction steps generalizing v t with
  | nil =>
    cases h
    exact ⟨t, hv⟩
  | cons step rest ih =>
    rw [List.foldlM_cons] at h
    obtain ⟨next, hn, h⟩ := Option.bind_eq_some_iff.mp h
    obtain ⟨u, hu⟩ := step?_fits hv hn
    exact ih hu h

/-- A record found within another is whole, and its schema is one that was adopted. -/
theorem Record.follow?_whole {r part : Record} {path : Path} (hr : adopts r.schema r.schema)
    (hw : r.Whole adopts) (h : (Value.record r).follow? path = some (.record part)) :
    (∃ s, adopts s part.schema) ∧ part.Whole adopts := by
  have hv : (Value.record r).Fits adopts (.record r.schema) :=
    Value.fits_record_iff.mpr ⟨r, rfl, hr, hw⟩
  obtain ⟨u, hu⟩ := Value.foldlM_step?_fits hv h
  cases hu with
  | record ha hl hq hn hs => exact ⟨⟨_, ha⟩, hl, hq, hn, hs⟩

end TypedRecord
