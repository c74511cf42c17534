import TypedRecord.Proofs.Record.Concurrence
import TypedRecord.Proofs.Record.Interchange

namespace TypedRecord

section

variable {rule : KeyRule} {unknown : UnknownKeys} {s t : Schema} {json : Json}
  {accept accept' : Json → Except ValidationError Value}

theorem FieldType.code_of_equal {t u : FieldType} (h : t.equal u = true) : t.code = u.code := by
  cases t <;> cases u <;> first | rfl | simp [equal] at h

theorem FieldType.exists_record_of_equal {t u : FieldType} (h : t.equal u = true)
    (hu : ∃ s, u = .record s) : ∃ s, t = .record s := by
  obtain ⟨s, rfl⟩ := hu
  obtain ⟨s', -, ht⟩ := equal_record_iff.mp (equal_symm _ _ h)
  exact ⟨s', ht⟩

theorem FieldType.exists_seq_of_equal {t u : FieldType} (h : t.equal u = true)
    (hu : ∃ items limits, u = .seq items limits) : ∃ items limits, t = .seq items limits := by
  obtain ⟨items, limits, rfl⟩ := hu
  obtain ⟨items', -, ht⟩ := equal_seq_iff.mp (equal_symm _ _ h)
  exact ⟨items', limits, ht⟩

theorem refuseNull_concurs
    (h : Concurs ValidationError.Agrees (Value.equal · · = true) (accept json) (accept' json)) :
    Concurs ValidationError.Agrees (Value.equal · · = true) (refuseNull accept json)
      (refuseNull accept' json) := by
  by_cases hj : json = .null
  · rw [hj]
    exact .here (.same _)
  · rwa [refuseNull_of_ne_null hj, refuseNull_of_ne_null hj]

theorem slotOf_concurs {nullable : Bool}
    (h : Concurs ValidationError.Agrees (Value.equal · · = true) (accept json) (accept' json)) :
    Concurs ValidationError.Agrees (Slot.equal · · = true) (slotOf nullable accept json)
      (slotOf nullable accept' json) := by
  by_cases hj : json = .null
  · rw [hj, slotOf, slotOf]
    split
    · exact .ok (by rw [Slot.equal])
    · exact .here (.same _)
  · rw [slotOf_of_ne_null hj, slotOf_of_ne_null hj]
    exact h.map fun _ _ hv ↦ by rwa [Slot.equal]

theorem Json.Proper.equal_scalar (hp : json.Proper) :
    (Value.scalar json).equal (.scalar json) = true := by
  rw [Value.equal]
  exact Json.equal_self_of_proper hp

theorem Range.acceptInt_concurs {range range' : Range} (h : range.Agrees range')
    (hp : json.Proper) : Concurs ValidationError.Agrees (Value.equal · · = true)
      (range.acceptInt json) (range'.acceptInt json) := by
  cases json with
  | num n =>
    cases n with
    | int n => exact .guardBreach (h.breach? _) (.ok hp.equal_scalar)
    | float x => exact .here (.same _)
  | _ => exact .here (.same _)

theorem Range.acceptNum_concurs {range range' : Range} (h : range.Agrees range')
    (hp : json.Proper) : Concurs ValidationError.Agrees (Value.equal · · = true)
      (range.acceptNum json) (range'.acceptNum json) := by
  cases json with
  | num n => exact .guardBreach (h.breach? _) (.ok hp.equal_scalar)
  | _ => exact .here (.same _)

theorem orElseMember_concurs {first first' : Except ValidationError Value}
    {rest rest' : Except (Option ValidationError) Value}
    (hfirst : Concurs ValidationError.Agrees (Value.equal · · = true) first first')
    (hrest : Concurs (Option.Rel ValidationError.Agrees) (Value.equal · · = true) rest rest') :
    Concurs (Option.Rel ValidationError.Agrees) (Value.equal · · = true)
      (orElseMember first rest) (orElseMember first' rest') := by
  cases hfirst with
  | ok hv => exact .ok hv
  | error he =>
    cases hrest with
    | ok hv => exact .ok hv
    | error hlater =>
      refine .error ?_
      rw [he.cause.isConstraint]
      split
      · exact .some he
      · exact hlater

theorem FieldType.acceptAny_concurs {ts us : List FieldType}
    (h : List.Forall₂ (fun t u ↦ Concurs ValidationError.Agrees (Value.equal · · = true)
      (t.accept rule json) (u.accept rule json)) ts us) :
    Concurs (Option.Rel ValidationError.Agrees) (Value.equal · · = true)
      (FieldType.acceptAny rule ts json) (FieldType.acceptAny rule us json) := by
  induction h with
  | nil => exact .error .none
  | cons htu _ ih => exact orElseMember_concurs htu ih

theorem ofMembers_concurs {kind : Json.Kind} {r r' : Except (Option ValidationError) Value}
    (h : Concurs (Option.Rel ValidationError.Agrees) (Value.equal · · = true) r r') :
    Concurs ValidationError.Agrees (Value.equal · · = true) (ofMembers kind r)
      (ofMembers kind r') := by
  cases h with
  | ok hv => exact .ok hv
  | error he =>
    cases he with
    | none => exact .here (.same _)
    | some he => exact .error he

/-- Assembly under equal schemas from the same inputs. -/
theorem Schema.assemble_concurs {α : Type} {takes : α → Prop} {entries : List (String × α)}
    {convert : Field → α → Except ValidationError Slot} (hst : s.equal t = true)
    (hc : ∀ f ∈ s.fields, ∀ g ∈ t.fields, f.Agrees g → ∀ a, takes a →
      Concurs ValidationError.Agrees (Slot.equal · · = true) (convert f a) (convert g a))
    (he : ∀ e ∈ entries, takes e.2) :
    Concurs ValidationError.Agrees (Record.equal · · = true)
      ((Intake.assemble rule s.name (s.fields.map fun f ↦ ⟨f, convert f⟩) entries).map
        (Record.mk s))
      ((Intake.assemble rule t.name (t.fields.map fun f ↦ ⟨f, convert f⟩) entries).map
        (Record.mk t)) := by
  obtain ⟨hname, -, hfields⟩ := Schema.equal_iff.mp hst
  have hintakes : List.Forall₂ (Intake.Agrees takes) (s.fields.map fun f ↦ ⟨f, convert f⟩)
      (t.fields.map fun f ↦ ⟨f, convert f⟩) := by
    rw [List.forall₂_map_left_iff, List.forall₂_map_right_iff]
    rw [List.forall₂_iff_zip] at hfields ⊢
    refine ⟨hfields.1, fun {f g} hm ↦ ?_⟩
    have hfg := hfields.2 hm
    obtain ⟨hf, hg⟩ := List.of_mem_zip hm
    exact ⟨hfg.name, hfg.wireKey, hfg.required, hc f hf g hg hfg⟩
  rw [hname]
  exact (Intake.assemble_concurs hintakes he).map fun _ _ hslots ↦
    Record.equal_iff.mpr ⟨hst, hslots⟩

theorem Field.check_concurs {f g : Field} (h : f.Agrees g)
    (ha : Concurs ValidationError.Agrees (Value.equal · · = true) (f.type.accept rule json)
      (g.type.accept rule json)) :
    Concurs ValidationError.Agrees (Slot.equal · · = true) (f.check rule json)
      (g.check rule json) := by
  rw [Field.check, Field.check, h.nullable]
  exact slotOf_concurs ha

theorem Schema.accept_concurs_of_fields {entries : List (String × Json)} (hst : s.equal t = true)
    (he : ∀ e ∈ entries, e.2.Proper)
    (ha : ∀ f ∈ s.fields, ∀ (u : FieldType) (json : Json), f.type.equal u = true → json.Proper →
      Concurs ValidationError.Agrees (Value.equal · · = true) (f.type.accept rule json)
        (u.accept rule json)) :
    Concurs ValidationError.Agrees (Record.equal · · = true) (s.accept rule entries)
      (t.accept rule entries) := by
  have hcheck : ∀ f ∈ s.fields, ∀ g ∈ t.fields, f.Agrees g → ∀ json : Json, json.Proper →
      Concurs ValidationError.Agrees (Slot.equal · · = true) (f.check rule json)
        (g.check rule json) :=
    fun f hf g _ hfg json hj ↦ Field.check_concurs hfg (ha f hf g.type json hfg.type hj)
  rw [accept_eq, accept_eq]
  exact assemble_concurs hst hcheck he

/-- Equal types accept the same values alike, and refuse the others alike. -/
theorem FieldType.accept_concurs (t : FieldType) : ∀ (u : FieldType) (json : Json),
    t.equal u = true → json.Proper → Concurs ValidationError.Agrees (Value.equal · · = true)
      (t.accept rule json) (u.accept rule json) := by
  induction t using FieldType.induction with
  | scalar t hs ih =>
    intro u json htu hp
    cases t with
    | str | bool | enum =>
      simp only [equal_str_iff, equal_bool_iff, equal_enum_iff] at htu
      refine .of_eq (by rw [htu]) .refl fun v hv ↦ ?_
      rw [((accept_primitive_eq_ok rfl).mp hv).2]
      exact hp.equal_scalar
    | any =>
      obtain rfl := equal_any_iff.mp htu
      exact .ok hp.equal_scalar
    | int r =>
      obtain ⟨r', hr, rfl⟩ := equal_int_iff.mp htu
      exact Range.acceptInt_concurs (Range.equal_iff.mp hr) hp
    | num r =>
      obtain ⟨r', hr, rfl⟩ := equal_num_iff.mp htu
      exact Range.acceptNum_concurs (Range.equal_iff.mp hr) hp
    | union ts =>
      obtain ⟨us, htus, rfl⟩ := equal_union_iff.mp htu
      refine ofMembers_concurs (acceptAny_concurs ?_)
      rw [List.forall₂_iff_zip] at htus ⊢
      exact ⟨htus.1, fun {t u} hm ↦ ih t (List.of_mem_zip hm).1 u json (htus.2 hm) hp⟩
    | record | seq | map => simp [isScalar] at hs
  | record s ih =>
    intro u json htu hp
    obtain ⟨t, hst, rfl⟩ := equal_record_iff.mp htu
    cases json with
    | obj entries =>
      have hrecord := Schema.accept_concurs_of_fields hst hp.entries ih
      rw [accept, accept, ofObject, ofObject]
      exact hrecord.map fun _ _ hr ↦ by rwa [Value.equal]
    | _ =>
      rw [accept, accept, (Schema.equal_iff.mp hst).1]
      exact .here (.same _)
  | seq items limits ih =>
    intro u json htu hp
    obtain ⟨items', hi, rfl⟩ := equal_seq_iff.mp htu
    cases json with
    | arr elements =>
      have helements : List.Forall₂ (fun x y ↦ Concurs ValidationError.Agrees
          (Value.equal · · = true) (refuseNull (items.accept rule) x)
          (refuseNull (items'.accept rule) y)) elements elements :=
        List.forall₂_same.mpr fun x hx ↦ refuseNull_concurs (ih items' x hi (hp.items x hx))
      refine .guardBreach (rel_refl Breach.Agrees.same _) ?_
      refine (Concurs.traverse helements).map fun _ _ hvs ↦ ?_
      rwa [Value.equal, Value.equalAll_iff]
    | _ => exact .here (.same _)
  | map values ih =>
    intro u json htu hp
    obtain ⟨values', hv, rfl⟩ := equal_map_iff.mp htu
    cases json with
    | obj entries =>
      have hentries : List.Forall₂ (fun x y : String × Json ↦ x.1 = y.1 ∧
          Concurs ValidationError.Agrees (Value.equal · · = true)
            (refuseNull (values.accept rule) x.2) (refuseNull (values'.accept rule) y.2))
          entries entries :=
        List.forall₂_same.mpr fun e he ↦
          ⟨rfl, refuseNull_concurs (ih values' e.2 hv (hp.entries e he))⟩
      refine (Concurs.traverseEntries hentries).map fun _ _ hvs ↦ ?_
      rwa [Value.equal, Value.equalEntries_iff]
    | _ => exact .here (.same _)

theorem Schema.accept_concurs {entries : List (String × Json)} (hst : s.equal t = true)
    (he : ∀ e ∈ entries, e.2.Proper) :
    Concurs ValidationError.Agrees (Record.equal · · = true) (s.accept rule entries)
      (t.accept rule entries) :=
  accept_concurs_of_fields hst he fun f _ ↦ f.type.accept_concurs

theorem Schema.decode_concurs (hst : s.equal t = true) (hp : json.Proper) :
    Concurs WireError.Agrees (Option.Rel (Record.equal · · = true)) (s.decode unknown json)
      (t.decode unknown json) := by
  have hfault : ∀ kind, WireFault.Agrees (.mismatch (.notAnObject s.name kind))
      (.mismatch (.notAnObject t.name kind)) := by
    intro kind
    rw [(Schema.equal_iff.mp hst).1]
    exact .same _
  cases json with
  | null => exact .ok .none
  | obj entries =>
    have hrecord : Concurs ValidationError.Agrees (Record.equal · · = true)
        (s.accept (.aliases unknown) entries) (t.accept (.aliases unknown) entries) :=
      accept_concurs hst hp.entries
    exact (hrecord.mapError fun _ _ he ↦ ⟨he.path, he.cause.ofDecoding⟩).map fun _ _ hr ↦
      Option.Rel.some hr
  | _ => exact .error ⟨rfl, hfault _⟩

end

theorem Field.receive_record_of_not {f : Field} {r : Record}
    (h : ¬ ∃ expected, f.type = .record expected) :
    f.receive (.record r) = wrongType f.type.code .record := by
  simp only [Field.receive]
  split
  next expected he => exact absurd ⟨expected, he⟩ h
  next => rfl

theorem Field.receive_records_of_seq {f : Field} {rs : List Record} {items : FieldType}
    {limits : Limits} (he : f.type = .seq items limits)
    (h : ¬ ∃ expected, items = .record expected) :
    f.receive (.records rs) = Located.within (.index 0) (wrongType items.code .record) := by
  simp only [Field.receive, he]
  split
  next expected _ hs =>
    cases hs
    exact absurd ⟨expected, rfl⟩ h
  next hs =>
    cases hs
    rfl
  next hne => exact absurd rfl (hne items limits)

theorem Field.receive_records_of_not {f : Field} {rs : List Record}
    (h : ¬ ∃ items limits, f.type = .seq items limits) :
    f.receive (.records rs) = wrongType f.type.code .list := by
  simp only [Field.receive]
  split
  next he => exact absurd ⟨_, _, he⟩ h
  next he => exact absurd ⟨_, _, he⟩ h
  next => rfl

/-- Under either schema the same calls succeed, with equal records, and the others fail alike. -/
structure Schema.Substitutes (w : World) (s t : Schema) : Prop where
  decode : ∀ (unknown : UnknownKeys) (payload : Json), payload.Proper →
    Concurs WireError.Agrees (Option.Rel (Record.equal · · = true)) (s.decode unknown payload)
      (t.decode unknown payload)
  construct : ∀ inputs : List (String × Input), (∀ e ∈ inputs, e.2.Available w) →
    Concurs ValidationError.Agrees (Record.equal · · = true) (s.construct inputs)
      (t.construct inputs)
  encode : ∀ r : Record, s.encode r = t.encode r

namespace World.Sound

variable {w : World} {s t u : Schema} {r : Record} {f g : Field} {input : Input}

/-- One serial number is one declaration, so to be the same is to be alike. -/
theorem sameAs_iff (hw : w.Sound) (hs : s ∈ w.schemas) (ht : t ∈ w.schemas) :
    s.sameAs t = true ↔ s.Alike t := by
  rw [Schema.sameAs, Bool.or_eq_true, decide_eq_true_eq]
  exact or_congr_left ⟨hw.serial s hs t ht, congrArg Schema.serial⟩

theorem sameAs_symm (hw : w.Sound) (hs : s ∈ w.schemas) (ht : t ∈ w.schemas)
    (h : s.sameAs t = true) : t.sameAs s = true :=
  (hw.sameAs_iff ht hs).mpr ((hw.sameAs_iff hs ht).mp h).symm

theorem sameAs_trans (hw : w.Sound) (hs : s ∈ w.schemas) (ht : t ∈ w.schemas)
    (hu : u ∈ w.schemas) (hst : s.sameAs t = true) (htu : t.sameAs u = true) :
    s.sameAs u = true :=
  (hw.sameAs_iff hs hu).mpr (((hw.sameAs_iff hs ht).mp hst).trans ((hw.sameAs_iff ht hu).mp htu))

theorem sameAs_congr_left (hw : w.Sound) (hs : s ∈ w.schemas) (ht : t ∈ w.schemas)
    (hu : u ∈ w.schemas) (hst : s.sameAs t = true) : s.sameAs u = t.sameAs u := by
  rw [Bool.eq_iff_iff]
  exact ⟨hw.sameAs_trans ht hs hu (hw.sameAs_symm hs ht hst), hw.sameAs_trans hs ht hu hst⟩

/-- Equal schemas adopt the same records, which are equal to themselves then. -/
theorem adopt_concurs (hw : w.Sound) (hs : s ∈ w.schemas) (ht : t ∈ w.schemas)
    (hst : s.equal t = true) (hr : r ∈ w.records) :
    Concurs ValidationError.Agrees (Value.equal · · = true) (s.adopt r) (t.adopt r) := by
  have hsame : s.sameAs t = true := by rw [Schema.sameAs, hst, Bool.or_true]
  rw [Schema.adopt, Schema.adopt, (Schema.equal_iff.mp hst).1,
    ← hw.sameAs_congr_left hs ht (hw.schema r hr) hsame]
  split
  next hadopts =>
    have halike := (hw.sameAs_iff hs (hw.schema r hr)).mp hadopts
    -- `s` has an equal, so none of its bounds is `nan`, and it is equal to itself
    have hself := halike.equal_self (Schema.equal_trans hst (Schema.equal_symm hst))
    refine .ok ?_
    rw [Value.equal]
    exact hw.equal_self (hw.whole r hr) hself
  next => exact .here (.same _)

theorem receive_record_concurs (hw : w.Sound) (hf : ∀ n ∈ f.type.nested, n ∈ w.schemas)
    (hg : ∀ n ∈ g.type.nested, n ∈ w.schemas) (hfg : f.Agrees g) (hr : r ∈ w.records) :
    Concurs ValidationError.Agrees (Slot.equal · · = true) (f.receive (.record r))
      (g.receive (.record r)) := by
  by_cases hrecord : ∃ expected, f.type = .record expected
  · obtain ⟨expected, he⟩ := hrecord
    obtain ⟨expected', hexpected, he'⟩ := FieldType.equal_record_iff.mp (he ▸ hfg.type)
    have hadopt := hw.adopt_concurs (hf expected (by simp [he, FieldType.nested]))
      (hg expected' (by simp [he', FieldType.nested])) hexpected hr
    simp only [Field.receive, he, he']
    exact hadopt.map fun _ _ hv ↦ by rwa [Slot.equal]
  · rw [Field.receive_record_of_not hrecord,
      Field.receive_record_of_not (mt (FieldType.exists_record_of_equal hfg.type) hrecord),
      FieldType.code_of_equal hfg.type]
    exact .here (.same _)

theorem receive_records_concurs (hw : w.Sound) (hf : ∀ n ∈ f.type.nested, n ∈ w.schemas)
    (hg : ∀ n ∈ g.type.nested, n ∈ w.schemas) (hfg : f.Agrees g) {rs : List Record}
    (hrs : ∀ r ∈ rs, r ∈ w.records) :
    Concurs ValidationError.Agrees (Slot.equal · · = true) (f.receive (.records rs))
      (g.receive (.records rs)) := by
  by_cases hseq : ∃ items limits, f.type = .seq items limits
  · obtain ⟨items, limits, he⟩ := hseq
    obtain ⟨items', hitems, he'⟩ := FieldType.equal_seq_iff.mp (he ▸ hfg.type)
    by_cases hrecord : ∃ expected, items = .record expected
    · obtain ⟨expected, rfl⟩ := hrecord
      obtain ⟨expected', hexpected, rfl⟩ := FieldType.equal_record_iff.mp hitems
      have hadopt : List.Forall₂ (fun x y ↦ Concurs ValidationError.Agrees
          (Value.equal · · = true) (expected.adopt x) (expected'.adopt y)) rs rs :=
        List.forall₂_same.mpr fun r hr ↦
          hw.adopt_concurs (hf expected (by simp [he, FieldType.nested]))
            (hg expected' (by simp [he', FieldType.nested])) hexpected (hrs r hr)
      simp only [Field.receive, he, he']
      refine .guardBreach (rel_refl Breach.Agrees.same _) ?_
      exact (Concurs.traverse hadopt).map fun _ _ hvs ↦ by
        rwa [Slot.equal, Value.equal, Value.equalAll_iff]
    · rw [Field.receive_records_of_seq he hrecord, Field.receive_records_of_seq he'
        (mt (FieldType.exists_record_of_equal hitems) hrecord), FieldType.code_of_equal hitems]
      exact .within _ (.here (.same _))
  · rw [Field.receive_records_of_not hseq,
      Field.receive_records_of_not (mt (FieldType.exists_seq_of_equal hfg.type) hseq),
      FieldType.code_of_equal hfg.type]
    exact .here (.same _)

theorem receive_concurs (hw : w.Sound) (hf : ∀ n ∈ f.type.nested, n ∈ w.schemas)
    (hg : ∀ n ∈ g.type.nested, n ∈ w.schemas) (hfg : f.Agrees g) (hi : input.Available w) :
    Concurs ValidationError.Agrees (Slot.equal · · = true) (f.receive input) (g.receive input) := by
  have hjson : ∀ json : Json, json.Proper → Concurs ValidationError.Agrees
      (Slot.equal · · = true) (f.check .names json) (g.check .names json) :=
    fun json hj ↦ Field.check_concurs hfg (f.type.accept_concurs g.type json hfg.type hj)
  cases input with
  | null => exact hjson .null .null
  | json value => exact hjson value hi
  | record r => exact hw.receive_record_concurs hf hg hfg hi
  | records rs => exact hw.receive_records_concurs hf hg hfg hi

theorem construct_concurs (hw : w.Sound) (hs : s ∈ w.schemas) (ht : t ∈ w.schemas)
    (hst : s.equal t = true) {inputs : List (String × Input)}
    (hi : ∀ e ∈ inputs, e.2.Available w) :
    Concurs ValidationError.Agrees (Record.equal · · = true) (s.construct inputs)
      (t.construct inputs) :=
  Schema.assemble_concurs hst
    (fun _ hf _ hg hfg _ ha ↦
      hw.receive_concurs (fun _ hn ↦ hw.nested_mem hs hf hn) (fun _ hn ↦ hw.nested_mem ht hg hn)
        hfg ha)
    hi

theorem substitutes (hw : w.Sound) (hs : s ∈ w.schemas) (ht : t ∈ w.schemas)
    (hst : s.equal t = true) : s.Substitutes w t where
  decode _ _ hp := Schema.decode_concurs hst hp
  construct _ hi := hw.construct_concurs hs ht hst hi
  encode r := by
    have halike : (FieldType.record s).Alike (.record t) :=
      FieldType.alike_record_iff.mpr ⟨t, .inr hst, rfl⟩
    exact FieldType.encode_congr _ halike (.record r)

end World.Sound

namespace World

/-- To be the same schema is an equivalence, `nan` bounds or not, and schemas that are equal are
interchangeable in every call. -/
theorem Reachable.sameAs_congruence {w : World} (hw : w.Reachable) :
    (∀ s : Schema, s.sameAs s = true) ∧
    (∀ s ∈ w.schemas, ∀ t ∈ w.schemas, s.sameAs t = true → t.sameAs s = true) ∧
    (∀ s ∈ w.schemas, ∀ t ∈ w.schemas, ∀ u ∈ w.schemas, s.sameAs t = true → t.sameAs u = true →
      s.sameAs u = true) ∧
    ∀ s ∈ w.schemas, ∀ t ∈ w.schemas, s.equal t = true → s.Substitutes w t :=
  ⟨Schema.sameAs_self, fun _ hs _ ht ↦ hw.sound.sameAs_symm hs ht,
    fun _ hs _ ht _ hu ↦ hw.sound.sameAs_trans hs ht hu,
    fun _ hs _ ht ↦ hw.sound.substitutes hs ht⟩

def scale (serial : Nat) (negative : Bool) : Schema := ⟨serial, "Scale", none,
  [.plain "factor" (.num { gt := some (.zero negative) }) false]⟩

def dial (serial : Nat) (inner : Schema) : Schema := ⟨serial, "Dial", none,
  [.plain "scale" (.record inner) true]⟩

theorem dials_reachable : ∃ w : World, w.Reachable ∧ dial 2 (scale 0 false) ∈ w.schemas ∧
    dial 3 (scale 1 true) ∈ w.schemas ∧ ⟨scale 0 false, [.absent]⟩ ∈ w.records := by
  have h₁ : Reachable ⟨⟨1⟩, [scale 0 false], []⟩ :=
    (Reachable.start ⟨0⟩).step (permitted_declare (s := scale 0 false) nofun)
  have h₂ : Reachable ⟨⟨2⟩, [scale 1 true, scale 0 false], []⟩ :=
    h₁.step (permitted_declare (s := scale 1 true) nofun)
  have h₃ : Reachable ⟨⟨3⟩, [dial 2 (scale 0 false), scale 1 true, scale 0 false], []⟩ :=
    h₂.step (permitted_declare (s := dial 2 (scale 0 false))
      (List.forall_mem_singleton.mpr (.tail _ (.head _))))
  have h₄ : Reachable ⟨⟨4⟩, [dial 3 (scale 1 true), dial 2 (scale 0 false), scale 1 true,
      scale 0 false], []⟩ :=
    h₃.step (permitted_declare (s := dial 3 (scale 1 true))
      (List.forall_mem_singleton.mpr (.tail _ (.head _))))
  have h₅ := h₄.step (a := .construct (scale 0 false) [])
    ⟨.tail _ (.tail _ (.tail _ (.head _))), nofun⟩
  exact ⟨_, h₅, .tail _ (.head _), .head _, .head _⟩

/-- Dials with different scales inside of them, which are equal. Both refuse zero, each for its own
bound, and a scale of the first is taken by the second. -/
theorem dials_substitute :
    let s := dial 2 (scale 0 false)
    let t := dial 3 (scale 1 true)
    let payload : Json := .obj [("scale", .obj [("factor", .float (.zero false))])]
    let e (negative : Bool) : WireError := ⟨⟨[.key "scale", .key "factor"]⟩,
      .validation (.outOfBounds (.value .gt (.zero negative)
        (.float ⟨false, 0, Binary64.representable_zero⟩)))⟩
    let inputs : List (String × Input) := [("scale", .record ⟨scale 0 false, [.absent]⟩)]
    s.decode .ignore payload = .error (e false) ∧ t.decode .ignore payload = .error (e true) ∧
    ∃ w : World, w.Reachable ∧ s ∈ w.schemas ∧ t ∈ w.schemas ∧ s.equal t = true ∧
      s.Substitutes w t ∧ WireError.Agrees (e false) (e true) ∧
      ∃ r, s.construct inputs = .ok r ∧
        ∃ r', t.construct inputs = .ok r' ∧ r.equal r' = true := by
  intro s t payload e inputs
  obtain ⟨w, hw, hs, ht, hr⟩ := dials_reachable
  have hst : s.equal t = true := by decide +kernel
  have hsubstitutes := hw.sameAs_congruence.2.2.2 s hs t ht hst
  have hdecode := hsubstitutes.decode .ignore payload (by decide)
  have hconstruct := hsubstitutes.construct inputs (List.forall_mem_singleton.mpr hr)
  refine ⟨rfl, rfl, w, hw, hs, ht, hst, hsubstitutes, ?_, ?_⟩
  · cases hdecode with
    | error he => exact he
  · have hok : s.construct inputs = .ok ⟨s, [.set (.record ⟨scale 0 false, [.absent]⟩)]⟩ := rfl
    exact ⟨_, hok, hconstruct.exists_ok hok⟩

end World

end TypedRecord
