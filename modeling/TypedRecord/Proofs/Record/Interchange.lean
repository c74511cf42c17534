import TypedRecord.Proofs.Record.Congruence
import TypedRecord.Proofs.Record.Presence
import TypedRecord.Proofs.Record.Supply

namespace TypedRecord

section

variable {adopts : Schema → Schema → Prop} {r : Record}

theorem Record.equal_self (hs : r.schema.equal r.schema = true)
    (hl : r.slots.length = r.schema.fields.length)
    (hv : ∀ f v, (f, .set v) ∈ r.fields → f.type.equal f.type = true → v.equal v = true) :
    r.equal r = true := by
  have hfields := (Schema.equal_iff.mp hs).2.2
  rw [List.forall₂_same] at hfields
  have hpair : ∀ p ∈ r.fields, p.2.equal p.2 = true := by
    intro p hp
    obtain ⟨f, slot⟩ := p
    cases slot with
    | absent | null => rw [Slot.equal]
    | set v =>
      rw [Slot.equal]
      exact hv f v hp (hfields f (List.of_mem_zip hp).1).type
  have hslots : r.fields.map Prod.snd = r.slots := List.map_snd_zip (Nat.le_of_eq hl)
  refine equal_iff.mpr ⟨hs, List.forall₂_same.mpr ?_⟩
  rw [← hslots, List.forall_mem_map]
  exact hpair

theorem Value.Fits.equal_self (ha : ∀ s u, adopts s u → s.Alike u) {t : FieldType} {v : Value}
    (h : v.Fits adopts t) : t.equal t = true → v.equal v = true := by
  induction h with
  | scalar _ hp =>
    intro _
    rw [Value.equal]
    exact Json.equal_self_of_proper hp
  | record hadopts hl _ _ _ ih =>
    intro ht
    rw [FieldType.equal] at ht
    rw [Value.equal]
    exact Record.equal_self ((ha _ _ hadopts).equal_self ht) hl ih
  | list _ _ ih =>
    intro ht
    rw [FieldType.equal, Bool.and_eq_true] at ht
    rw [Value.equal, Value.equalAll_iff]
    exact List.forall₂_same.mpr fun v hm ↦ ih v hm ht.1
  | map _ _ ih =>
    intro ht
    rw [FieldType.equal] at ht
    rw [Value.equal, Value.equalEntries_iff]
    exact List.forall₂_same.mpr fun e hm ↦ ⟨rfl, ih e hm ht⟩

theorem Record.Whole.equal_self (ha : ∀ s u, adopts s u → s.Alike u) (h : r.Whole adopts)
    (hs : r.schema.equal r.schema = true) : r.equal r = true :=
  Record.equal_self hs h.length fun f v hm hf ↦ (h.set f v hm).equal_self ha hf

theorem Record.equal_set {i : Nat} {x y : Slot} (hr : r.equal r = true)
    (hxy : y.equal x = true) :
    Record.equal { r with slots := r.slots.set i y } { r with slots := r.slots.set i x } =
      true := by
  obtain ⟨hs, hslots⟩ := equal_iff.mp hr
  exact equal_iff.mpr ⟨hs, forall₂_set_set hslots hxy⟩

/-- What is encoded repeats no key, whatever the value was checked against. -/
theorem FieldType.encode_proper {t : FieldType} : t.Built → ∀ (u : FieldType) (v : Value)
    (json : Json), v.Fits adopts u → t.encode v = .ok json → json.Proper := by
  induction t using FieldType.induction with
  | scalar t hs =>
    intro _ u v json hv h
    obtain rfl := (encode_scalar_eq_ok hs).mp h
    cases hv with
    | scalar _ hp => exact hp
  | record s ih =>
    intro ht u v json hv h
    have hs := ht.record
    obtain ⟨r, entries, rfl, he, rfl⟩ := encode_record_eq_ok.mp h
    obtain ⟨-, out, hout, rfl⟩ := Schema.encodeEntries_eq_ok_iff.mp he
    refine .obj (Entries.nodup_collect hs.wireKeys) fun e hm ↦ ?_
    obtain ⟨f, hf, -, hj⟩ := Entries.mem_collect.mp hm
    have hemits := hout f hf
    rw [hj] at hemits
    generalize e.2 = json at hemits
    cases hemits with
    | null => exact .null
    | set hslot hj =>
      obtain ⟨g, hg, -⟩ := Record.mem_fields_of_slot? hslot
      cases hv with
      | record _ _ _ _ hset => exact ih f hf (hs.field hf) g.type _ json (hset g _ hg) hj
  | seq items limits ih =>
    intro ht u v json hv h
    obtain ⟨values, elements, rfl, he, rfl⟩ := encode_seq_eq_ok.mp h
    cases hv with
    | @list items' _ _ _ hfit =>
      refine .arr fun json hj ↦ ?_
      obtain ⟨v, hm, hj⟩ := exists_of_mem_outcomes he hj
      exact ih ht.seq items' v json (hfit v hm) hj
  | map values ih =>
    intro ht u v json hv h
    obtain ⟨entries, outs, rfl, ho, rfl⟩ := encode_map_eq_ok.mp h
    cases hv with
    | @map values' _ hkeys hfit =>
      have hnodup : (outs.map Prod.fst).Nodup := by
        rw [map_outcomes_eq (ho.imp fun _ _ h ↦ h.1)]
        exact hkeys
      refine .obj hnodup fun out hm ↦ ?_
      obtain ⟨e, he, -, hj⟩ := exists_of_mem_outcomes ho hm
      exact ih ht.map values' e.2 out.2 (hfit e he) hj

end

/-- With something under the key, the inputs around it make up a record. -/
def Schema.Completable (s : Schema) (key : String) (before after : List (String × Input)) : Prop :=
  ∃ z, s.Complete Field.receive (before ++ (key, z) :: after)

/-- The records that one and the other input are assigned to are equal, and so are the ones that are
built with them. Only where nothing at all could stand in their place do both fail, and alike. -/
structure Field.Interchangeable (w : World) (s : Schema) (f : Field) (x y : Input) : Prop where
  set : ∀ r ∈ w.records, r.schema = s → ∃ r₁ r₂,
    r.set f.name x = .ok r₁ ∧ r.set f.name y = .ok r₂ ∧ r₂.equal r₁ = true
  construct : ∀ key, key = f.name ∨ key = f.wireKey → ∀ before after : List (String × Input),
    (∀ e ∈ before ++ after, e.2.Available w) → s.Completable key before after → ∃ r₁ r₂,
      s.construct (before ++ (key, x) :: after) = .ok r₁ ∧
      s.construct (before ++ (key, y) :: after) = .ok r₂ ∧ r₂.equal r₁ = true
  refused : ∀ key, key = f.name ∨ key = f.wireKey → ∀ before after : List (String × Input),
    ¬ s.Completable key before after → ∃ e,
      s.construct (before ++ (key, x) :: after) = .error e ∧
      s.construct (before ++ (key, y) :: after) = .error e

/-- The field takes neither input, for one reason. It is the reason why no record is built with
them, unless nothing at all could stand in their place. -/
structure Field.RefusesBoth (w : World) (s : Schema) (f : Field) (reason : ValidationError)
    (x y : Input) : Prop where
  set : ∀ r ∈ w.records, r.schema = s →
    r.set f.name x = .error reason ∧ r.set f.name y = .error reason
  construct : ∀ key, key = f.name ∨ key = f.wireKey → ∀ before after : List (String × Input),
    s.Completable key before after →
      s.construct (before ++ (key, x) :: after) = .error reason ∧
      s.construct (before ++ (key, y) :: after) = .error reason
  refused : ∀ key, key = f.name ∨ key = f.wireKey → ∀ before after : List (String × Input),
    ¬ s.Completable key before after → ∃ e,
      s.construct (before ++ (key, x) :: after) = .error e ∧
      s.construct (before ++ (key, y) :: after) = .error e

namespace Schema

variable {s : Schema} {f : Field} {key : String} {before after : List (String × Input)}

/-- What stands in the one place is received last, and the other inputs do not fail on their own. -/
theorem Completable.exists_hole (h : s.Completable key before after) (hs : s.Built)
    (hu : s.Unshadowed) (hf : f ∈ s.fields) (hkey : key = f.name ∨ key = f.wireKey) :
    ∃ i, ∃ slots : List Slot, ∀ input, s.construct (before ++ (key, input) :: after) =
      (Located.within (.key f.name) (f.receive input)).map fun slot ↦ ⟨s, slots.set i slot⟩ := by
  obtain ⟨z, hz⟩ := h
  obtain ⟨r, hr⟩ := (exists_construct_iff hs).mpr hz
  rcases construct_hole hs hu hf hkey before after with ⟨e, he⟩ | ⟨i, others, hconstruct⟩
  · rw [he z] at hr
    cases hr
  · cases others with
    | error e =>
      rw [hconstruct z] at hr
      cases hslot : Located.within (.key f.name) (f.receive z) <;> rw [hslot] at hr <;> cases hr
    | ok slots =>
      refine ⟨i, slots, fun input ↦ (hconstruct input).trans ?_⟩
      cases Located.within (.key f.name) (f.receive input) <;> rfl

/-- Two inputs that the field receives alike are built with alike, or fail alike. -/
theorem construct_alike (hs : s.Built) (hu : s.Unshadowed) (hf : f ∈ s.fields)
    (hkey : key = f.name ∨ key = f.wireKey) {x y : Input}
    (hxy : (f.receive x).map (fun _ ↦ ()) = (f.receive y).map fun _ ↦ ())
    (before after : List (String × Input)) :
    (s.construct (before ++ (key, x) :: after)).map (fun _ ↦ ()) =
      (s.construct (before ++ (key, y) :: after)).map fun _ ↦ () := by
  rcases construct_hole hs hu hf hkey before after with ⟨e, he⟩ | ⟨i, others, hconstruct⟩
  · rw [he, he]
  · rw [hconstruct, hconstruct]
    cases hx : f.receive x with
    | error e =>
      cases hy : f.receive y with
      | error e' =>
        rw [hx, hy] at hxy
        cases hxy
        rfl
      | ok b =>
        rw [hx, hy] at hxy
        cases hxy
    | ok a =>
      cases hy : f.receive y with
      | error e' =>
        rw [hx, hy] at hxy
        cases hxy
      | ok b => cases others <;> rfl

theorem exists_refused (h : ¬ s.Completable key before after) (hs : s.Built) (hu : s.Unshadowed)
    (hf : f ∈ s.fields) (hkey : key = f.name ∨ key = f.wireKey) {x y : Input}
    (hxy : (f.receive x).map (fun _ ↦ ()) = (f.receive y).map fun _ ↦ ()) : ∃ e,
      s.construct (before ++ (key, x) :: after) = .error e ∧
      s.construct (before ++ (key, y) :: after) = .error e := by
  have halike := construct_alike hs hu hf hkey hxy before after
  cases hx : s.construct (before ++ (key, x) :: after) with
  | ok r => exact absurd ⟨x, (exists_construct_iff hs).mp ⟨r, hx⟩⟩ h
  | error e =>
    cases hy : s.construct (before ++ (key, y) :: after) with
    | ok r =>
      rw [hx, hy] at halike
      cases halike
    | error e' =>
      rw [hx, hy] at halike
      cases halike
      exact ⟨e, rfl, rfl⟩

end Schema

namespace World.Sound

variable {w : World} {s : Schema} {f : Field} {x y : Input}

theorem equal_self (hw : w.Sound) {r : Record} (hr : r.Whole w.Adopts)
    (hs : r.schema.equal r.schema = true) : r.equal r = true :=
  hr.equal_self (fun s u h ↦ (hw.adopted s u h).2) hs

theorem interchangeable (hw : w.Sound) (hs : s ∈ w.schemas) (hself : s.equal s = true)
    (hu : s.Unshadowed) (hf : f ∈ s.fields) (hx : x.Available w) {a b : Slot}
    (hxa : f.receive x = .ok a) (hyb : f.receive y = .ok b) (hab : b.equal a = true) :
    f.Interchangeable w s x y where
  set r hr hrs := by
    subst hrs
    obtain ⟨i, hset⟩ := Record.exists_set_eq (hw.built _ hs) hf
    refine ⟨{ r with slots := r.slots.set i a }, { r with slots := r.slots.set i b }, ?_, ?_, ?_⟩
    · rw [hset, hxa]
      rfl
    · rw [hset, hyb]
      rfl
    · exact Record.equal_set (hw.equal_self (hw.whole r hr) hself) hab
  construct key hkey before after hrest hc := by
    obtain ⟨i, slots, hconstruct⟩ := hc.exists_hole (hw.built s hs) hu hf hkey
    have hcx := hconstruct x
    have hcy := hconstruct y
    rw [hxa] at hcx
    rw [hyb] at hcy
    refine ⟨_, _, hcx, hcy, ?_⟩
    have havailable : ∀ e ∈ before ++ (key, x) :: after, e.2.Available w := by
      rw [List.forall_mem_append, List.forall_mem_cons]
      rw [List.forall_mem_append] at hrest
      exact ⟨hrest.1, hx, hrest.2⟩
    obtain ⟨-, hwhole⟩ := hw.family.construct_whole hs (fun e he ↦ hw.input (havailable e he)) hcx
    have hequal := Record.equal_set (i := i) (hw.equal_self hwhole hself) hab
    simpa only [List.set_set] using hequal
  refused key hkey before after hc := by
    refine Schema.exists_refused hc (hw.built s hs) hu hf hkey ?_
    rw [hxa, hyb]
    rfl

theorem refusesBoth (hw : w.Sound) (hs : s ∈ w.schemas) (hu : s.Unshadowed) (hf : f ∈ s.fields)
    {e : ValidationError} (hx : f.receive x = .error e) (hy : f.receive y = .error e) :
    f.RefusesBoth w s (e.under (.key f.name)) x y where
  set r hr hrs := by
    subst hrs
    obtain ⟨i, hset⟩ := Record.exists_set_eq (hw.built _ hs) hf
    rw [hset, hset, hx, hy]
    exact ⟨rfl, rfl⟩
  construct key hkey before after hc := by
    obtain ⟨i, slots, hconstruct⟩ := hc.exists_hole (hw.built s hs) hu hf hkey
    rw [hconstruct, hconstruct, hx, hy]
    exact ⟨rfl, rfl⟩
  refused key hkey before after hc := by
    refine Schema.exists_refused hc (hw.built s hs) hu hf hkey ?_
    rw [hx, hy]

/-- What a field holds can be supplied again as JSON, and is held equally then. -/
theorem receive_json (hw : w.Sound) (hs : s ∈ w.schemas) (hn : s.nanFree = true)
    (hu : ∀ t ∈ s.preorder, t.Unshadowed) (hf : f ∈ s.fields) {v : Value}
    (hv : v.Fits w.Adopts f.type) :
    ∃ json v', f.type.encode v = .ok json ∧ f.receive (.json json) = .ok (.set v') ∧
      v'.equal v = true := by
  have hb := hw.built s hs
  have ht := hb.field hf
  have hself := f.type.equal_self (Schema.nanFree_iff.mp hn f hf)
  have hreturns : ∃ json, v.ReturnsBy .reject f.type json :=
    FieldType.value_returns hw.adopted ht f.type v hself hv
  obtain ⟨json, hreturns⟩ := hreturns
  -- the JSON conforms, so it can be decoded, and what can be decoded a caller may supply
  have hj := hreturns.conforms.ne_null
  have hp := FieldType.encode_proper ht f.type v json hv hreturns.encode
  have haccept := (FieldType.decides ht json _ hj).mpr ⟨hreturns.conforms, rfl⟩
  have hnames := Schema.carries_names hb hu f hf json _ hp hj haccept
  refine ⟨json, f.type.read json, hreturns.encode, ?_, hreturns.equal⟩
  exact slotOf_eq_ok.mpr (.inr ⟨hj, _, hnames, rfl⟩)

theorem fits_expected (hw : w.Sound) {expected : Schema} (he : expected ∈ w.schemas) {r : Record}
    (hr : r ∈ w.records) (hsame : expected.sameAs r.schema = true) :
    (Value.record r).Fits w.Adopts (.record expected) := by
  have hadopts := hw.family.adopts expected r.schema he (hw.schema r hr) hsame
  exact Value.fits_record_iff.mpr ⟨r, rfl, hadopts, hw.whole r hr⟩

/-- A record is encoded under a schema that it may stand for as it is under its own. -/
theorem exists_toJson (hw : w.Sound) {expected : Schema} (he : expected ∈ w.schemas) {r : Record}
    (hr : r ∈ w.records) (hsame : expected.sameAs r.schema = true) :
    ∃ json, r.toJson = .ok json ∧ (FieldType.record expected).encode (.record r) = .ok json := by
  have hadopts := hw.family.adopts expected r.schema he (hw.schema r hr) hsame
  have halike : (FieldType.record expected).Alike (.record r.schema) :=
    FieldType.alike_record_iff.mpr ⟨r.schema, hadopts.2, rfl⟩
  obtain ⟨json, hjson, -⟩ := FieldType.encode_shown hw.adopted (.record expected) (.record r)
    (.inl rfl) (hw.fits_expected he hr hsame)
  exact ⟨json, (FieldType.encode_congr _ halike (.record r)).symm.trans hjson, hjson⟩

theorem nested_mem (hw : w.Sound) (hs : s ∈ w.schemas) (hf : f ∈ s.fields) {t : Schema}
    (ht : t ∈ f.type.nested) : t ∈ w.schemas :=
  hw.nested s hs t (Schema.mem_nested.mpr ⟨f, hf, ht⟩)

theorem record_interchangeable (hw : w.Sound) (hs : s ∈ w.schemas) (hn : s.nanFree = true)
    (hu : ∀ t ∈ s.preorder, t.Unshadowed) (hf : f ∈ s.fields) {expected : Schema}
    (ht : f.type = .record expected) {r : Record} (hr : r ∈ w.records)
    (hsame : expected.sameAs r.schema = true) :
    ∃ json, r.toJson = .ok json ∧ f.Interchangeable w s (.record r) (.json json) := by
  have hexpected : expected ∈ w.schemas := hw.nested_mem hs hf (by simp [ht, FieldType.nested])
  have hfit := hw.fits_expected hexpected hr hsame
  obtain ⟨json, hjson, hencode⟩ := hw.exists_toJson hexpected hr hsame
  obtain ⟨_, v, he, hv, hequal⟩ := hw.receive_json hs hn hu hf (ht ▸ hfit)
  rw [ht, hencode] at he
  cases he
  have hrecord : f.receive (.record r) = .ok (.set (.record r)) := by
    simp only [Field.receive, ht, Schema.adopt_eq_ok hsame]
    rfl
  have hslots : (Slot.set v).equal (.set (.record r)) = true := by rwa [Slot.equal]
  exact ⟨json, hjson, hw.interchangeable hs (Schema.equal_self hn) (hu s s.mem_preorder_self) hf
    hr hrecord hv hslots⟩

theorem records_interchangeable (hw : w.Sound) (hs : s ∈ w.schemas) (hn : s.nanFree = true)
    (hu : ∀ t ∈ s.preorder, t.Unshadowed) (hf : f ∈ s.fields) {expected : Schema} {limits : Limits}
    (ht : f.type = .seq (.record expected) limits) {rs : List Record}
    (hrs : ∀ r ∈ rs, r ∈ w.records ∧ expected.sameAs r.schema = true) :
    ∃ elements, List.Forall₂ (fun r json ↦ r.toJson = .ok json) rs elements ∧
      (limits.Allows rs.length ∧
          f.Interchangeable w s (.records rs) (.json (.arr elements)) ∨
        ∃ breach, limits.Broken .array rs.length breach ∧ breach.code = .arrayLength ∧
          f.RefusesBoth w s ⟨Path.root.key f.name, .outOfBounds breach⟩ (.records rs)
            (.json (.arr elements))) := by
  have hexpected : expected ∈ w.schemas := hw.nested_mem hs hf (by simp [ht, FieldType.nested])
  have hunshadowed := hu s s.mem_preorder_self
  obtain ⟨elements, he⟩ := exists_outcomes fun r hr ↦
    hw.exists_toJson hexpected (hrs r hr).1 (hrs r hr).2
  refine ⟨elements, he.imp fun _ _ h ↦ h.1, ?_⟩
  cases hb : limits.breach? .array rs.length with
  | none =>
    have hl := Limits.breach?_eq_none_iff.mp hb
    have hfit : (Value.list (rs.map .record)).Fits w.Adopts (.seq (.record expected) limits) :=
      .list (by rwa [List.length_map]) (List.forall_mem_map.mpr fun r hr ↦
        hw.fits_expected hexpected (hrs r hr).1 (hrs r hr).2)
    have hencode : (FieldType.seq (.record expected) limits).encode (.list (rs.map .record)) =
        .ok (.arr elements) :=
      FieldType.encode_list (List.forall₂_map_left_iff.mpr (he.imp fun _ _ h ↦ h.2))
    obtain ⟨json, v, hj, hv, hequal⟩ := hw.receive_json hs hn hu hf (ht ▸ hfit)
    rw [ht, hencode] at hj
    cases hj
    have hadopt : Located.traverse expected.adopt rs = .ok (rs.map .record) := by
      rw [Located.traverse_eq_ok, List.forall₂_map_right_iff]
      exact List.forall₂_same.mpr fun r hr ↦ Schema.adopt_eq_ok (hrs r hr).2
    have hrecords : f.receive (.records rs) = .ok (.set (.list (rs.map .record))) := by
      simp only [Field.receive, ht, hb, guardBreach, hadopt]
      rfl
    have hslots : (Slot.set v).equal (.set (.list (rs.map .record))) = true := by rwa [Slot.equal]
    have havailable : (Input.records rs).Available w := fun r hr ↦ (hrs r hr).1
    exact .inl ⟨hl, hw.interchangeable hs (Schema.equal_self hn) hunshadowed hf havailable
      hrecords hv hslots⟩
  | some breach =>
    have hbroken := Limits.broken_of_breach? hb
    have hrecords : f.receive (.records rs) = .error ⟨.root, .outOfBounds breach⟩ := by
      simp only [Field.receive, ht, hb, guardBreach]
      rfl
    have helements : f.receive (.json (.arr elements)) = .error ⟨.root, .outOfBounds breach⟩ := by
      rw [he.length_eq] at hb
      simp only [Field.receive, Field.check, slotOf, ht, FieldType.accept, ofArray, hb, guardBreach]
      rfl
    exact .inr ⟨breach, hbroken, hbroken.code,
      hw.refusesBoth hs hunshadowed hf hrecords helements⟩

end World.Sound

namespace World

/-- A record may be supplied as it is or as its JSON, to be checked again, wherever one of its
schema is due; and so may a list of records, unless there are too many or too few of them. -/
theorem Reachable.inline_interchangeable {w : World} (hw : w.Reachable) {s : Schema}
    (hs : s ∈ w.schemas) (hn : s.nanFree = true) (hu : ∀ t ∈ s.preorder, t.Unshadowed) {f : Field}
    (hf : f ∈ s.fields) :
    (∀ expected r, f.type = .record expected → r ∈ w.records → expected.sameAs r.schema = true →
      ∃ json, r.toJson = .ok json ∧ f.Interchangeable w s (.record r) (.json json)) ∧
    ∀ expected limits rs, f.type = .seq (.record expected) limits →
      (∀ r ∈ rs, r ∈ w.records ∧ expected.sameAs r.schema = true) →
      ∃ elements, List.Forall₂ (fun r json ↦ r.toJson = .ok json) rs elements ∧
        (limits.Allows rs.length ∧
            f.Interchangeable w s (.records rs) (.json (.arr elements)) ∨
          ∃ breach, limits.Broken .array rs.length breach ∧ breach.code = .arrayLength ∧
            f.RefusesBoth w s ⟨Path.root.key f.name, .outOfBounds breach⟩ (.records rs)
              (.json (.arr elements))) :=
  ⟨fun _ _ ht hr hsame ↦ hw.sound.record_interchangeable hs hn hu hf ht hr hsame,
    fun _ _ _ ht hrs ↦ hw.sound.records_interchangeable hs hn hu hf ht hrs⟩

def gaugeRange : Field :=
  { Field.plain "range" (.record Catalog.range) false with wireKey := "bounds" }

def gaugeHistory : Field :=
  Field.plain "history" (.seq (.record Catalog.range) { max := some 1 }) false

def gauge : Schema := ⟨1, "Gauge", none, [gaugeRange, gaugeHistory]⟩

theorem gauge_unshadowed : ∀ t ∈ gauge.preorder, t.Unshadowed := by
  have hpreorder : gauge.preorder = [gauge, Catalog.range, Catalog.range] := rfl
  have hrange : Catalog.range.Unshadowed :=
    Schema.unshadowed_of_unaliased Catalog.range_built
      (Schema.range_unaliased _ Catalog.range.mem_preorder_self)
  have hgauge : gauge.Unshadowed := by
    intro f hf g hg hne
    simp only [gauge, List.mem_cons, List.not_mem_nil, or_false] at hf hg
    rcases hf with rfl | rfl <;> rcases hg with rfl | rfl
    · exact absurd rfl hne
    · decide
    · decide
    · exact absurd rfl hne
  simp only [hpreorder, List.forall_mem_cons]
  exact ⟨hgauge, hrange, hrange, nofun⟩

theorem gauge_reachable : ∃ w : World, w.Reachable ∧ gauge ∈ w.schemas ∧
    rangeFromOne ∈ w.records ∧ ⟨gauge, [.absent, .absent]⟩ ∈ w.records := by
  have h₁ : Reachable ⟨⟨1⟩, [Catalog.range], []⟩ :=
    (Reachable.start ⟨0⟩).step (permitted_declare (s := Catalog.range) nofun)
  have h₂ : Reachable ⟨⟨2⟩, [gauge, Catalog.range], []⟩ := by
    refine h₁.step (permitted_declare (s := gauge) ?_)
    exact List.forall_mem_cons.mpr ⟨.head _, List.forall_mem_singleton.mpr (.head _)⟩
  have h₃ : Reachable ⟨⟨2⟩, [gauge, Catalog.range], [rangeFromOne]⟩ :=
    h₂.step (a := .construct Catalog.range [("gt", .json (.int 1)), ("lt", .null)])
      ⟨.tail _ (.head _), List.forall_mem_cons.mpr ⟨.num _, List.forall_mem_singleton.mpr trivial⟩⟩
  have h₄ := h₃.step (a := .construct gauge []) ⟨.head _, nofun⟩
  exact ⟨_, h₄, .head _, .tail _ (.head _), .head _⟩

theorem gauge_complete {key : String} (hkey : gauge.meant? key = some gaugeRange) :
    gauge.Complete Field.receive
      [(key, .record rangeFromOne), ("history", .records [rangeFromOne])] where
  meant := by
    simp only [List.forall_mem_cons]
    exact ⟨⟨gaugeRange, hkey, _, rfl⟩, ⟨gaugeHistory, rfl, _, rfl⟩, nofun⟩
  distinct := by
    have hne : gaugeRange ≠ gaugeHistory := fun h ↦ absurd (congrArg Field.name h) (by decide)
    have hmeant : gauge.meant? "history" = some gaugeHistory := rfl
    simp [hkey, hmeant, hne]
  required f hf hq := by
    rcases List.mem_pair.mp hf with rfl | rfl <;> cases hq

/-- One past range is taken either way, and two are refused either way. -/
theorem gauge_interchangeable :
    let json : Json := .obj [("gt", .int 1), ("lt", .null)]
    let reason : ValidationError := ⟨Path.root.key "history", .outOfBounds (.tooLong .array 2 1)⟩
    let past : String × Input := ("history", .records [rangeFromOne])
    let present : String × Input := ("range", .record rangeFromOne)
    ∃ w : World, w.Reachable ∧ gauge ∈ w.schemas ∧ rangeFromOne ∈ w.records ∧
      ⟨gauge, [.absent, .absent]⟩ ∈ w.records ∧ gauge.nanFree = true ∧
      (∀ t ∈ gauge.preorder, t.Unshadowed) ∧ rangeFromOne.toJson = .ok json ∧
      gaugeRange.Interchangeable w gauge (.record rangeFromOne) (.json json) ∧
      gaugeHistory.Interchangeable w gauge (.records [rangeFromOne]) (.json (.arr [json])) ∧
      gaugeHistory.RefusesBoth w gauge reason (.records [rangeFromOne, rangeFromOne])
        (.json (.arr [json, json])) ∧
      (∃ r₁ r₂, gauge.construct [("bounds", .record rangeFromOne), past] = .ok r₁ ∧
        gauge.construct [("bounds", .json json), past] = .ok r₂ ∧ r₂.equal r₁ = true) ∧
      (∃ r₁ r₂, gauge.construct [present, past] = .ok r₁ ∧
        gauge.construct [present, ("history", .json (.arr [json]))] = .ok r₂ ∧
          r₂.equal r₁ = true) ∧
      gauge.construct [present, ("history", .json (.arr [json, json]))] = .error reason := by
  intro json reason past present
  obtain ⟨w, hw, hs, hr, hgauge⟩ := gauge_reachable
  have hn : gauge.nanFree = true := rfl
  have hsame : Catalog.range.sameAs rangeFromOne.schema = true := Schema.sameAs_self _
  have hjson : rangeFromOne.toJson = .ok json := rfl
  obtain ⟨hrange, -⟩ :=
    hw.inline_interchangeable hs hn gauge_unshadowed (f := gaugeRange) (.head _)
  obtain ⟨-, hhistory⟩ :=
    hw.inline_interchangeable hs hn gauge_unshadowed (f := gaugeHistory) (.tail _ (.head _))
  obtain ⟨_, he, hone⟩ := hrange _ _ rfl hr hsame
  cases he
  have hpast : gaugeHistory.Interchangeable w gauge (.records [rangeFromOne])
      (.json (.arr [json])) := by
    obtain ⟨_, he, h⟩ := hhistory _ _ [rangeFromOne] rfl (by simp [hr, hsame])
    rcases he with _ | ⟨⟨⟩, ⟨⟩⟩
    rcases h with ⟨-, h⟩ | ⟨_, hbroken, -⟩
    · exact h
    · cases hbroken with
      | short hmin => cases hmin
      | long hmax hlt =>
        cases hmax
        exact absurd hlt (by decide)
  have htwo : gaugeHistory.RefusesBoth w gauge reason (.records [rangeFromOne, rangeFromOne])
      (.json (.arr [json, json])) := by
    obtain ⟨_, he, h⟩ := hhistory _ _ [rangeFromOne, rangeFromOne] rfl (by simp [hr, hsame])
    rcases he with _ | ⟨⟨⟩, _ | ⟨⟨⟩, ⟨⟩⟩⟩
    rcases h with ⟨hallows, -⟩ | ⟨_, hbroken, -, h⟩
    · exact absurd (hallows.max 1 rfl) (by decide)
    · cases hbroken with
      | short hmin => cases hmin
      | long hmax =>
        cases hmax
        exact h
  have hcomplete : gauge.Complete Field.receive [present, past] := gauge_complete rfl
  refine ⟨w, hw, hs, hr, hgauge, hn, gauge_unshadowed, hjson, hone, hpast, htwo, ?_, ?_, ?_⟩
  · exact hone.construct "bounds" (.inr rfl) [] [past] (by simp [past, Input.Available, hr])
      ⟨.record rangeFromOne, gauge_complete rfl⟩
  · exact hpast.construct "history" (.inl rfl) [present] [] (by simp [present, Input.Available, hr])
      ⟨past.2, hcomplete⟩
  · exact (htwo.construct "history" (.inl rfl) [present] [] ⟨past.2, hcomplete⟩).2

end World

end TypedRecord
