import TypedRecord.Proofs.Record.Supply
import TypedRecord.Proofs.Record.Versions
import TypedRecord.Proofs.Schema.Loosening

namespace TypedRecord

/-- The same data, as the fields of all records within go by the same names and are in the same
states. Nothing else of their schemas counts. -/
inductive Value.Same : Value → Value → Prop
  | scalar (json : Json) : Value.Same (.scalar json) (.scalar json)
  | record {r r' : Record} :
      r.schema.fields.map Field.name = r'.schema.fields.map Field.name →
      r.slots.length = r'.slots.length →
      (∀ x y, (x, y) ∈ r.slots.zip r'.slots →
        (x = .absent ↔ y = .absent) ∧ (x = .null ↔ y = .null)) →
      (∀ v w, (.set v, .set w) ∈ r.slots.zip r'.slots → Value.Same v w) →
      Value.Same (.record r) (.record r')
  | list {values values' : List Value} : values.length = values'.length →
      (∀ v w, (v, w) ∈ values.zip values' → Value.Same v w) →
      Value.Same (.list values) (.list values')
  | map {entries entries' : List (String × Value)} :
      entries.map Prod.fst = entries'.map Prod.fst →
      (∀ e e', (e, e') ∈ entries.zip entries' → Value.Same e.2 e'.2) →
      Value.Same (.map entries) (.map entries')

inductive Slot.Same : Slot → Slot → Prop
  | absent : Slot.Same .absent .absent
  | null : Slot.Same .null .null
  | set {v w : Value} : v.Same w → Slot.Same (.set v) (.set w)

theorem Slot.Same.isExplicit {x y : Slot} (h : x.Same y) : x.isExplicit = y.isExplicit := by
  cases h <;> rfl

theorem Value.same_record {r r' : Record}
    (hn : r.schema.fields.map Field.name = r'.schema.fields.map Field.name)
    (h : List.Forall₂ Slot.Same r.slots r'.slots) : (Value.record r).Same (.record r') := by
  refine .record hn h.length_eq (fun x y hm ↦ ?_) fun v w hm ↦ ?_
  · cases List.forall₂_zip h hm <;> simp
  · cases List.forall₂_zip h hm with
    | set hvw => exact hvw

theorem Value.same_list {values values' : List Value} (h : List.Forall₂ Value.Same values values') :
    (Value.list values).Same (.list values') :=
  .list h.length_eq fun _ _ hm ↦ List.forall₂_zip h hm

theorem Value.same_map {entries entries' : List (String × Value)}
    (h : List.Forall₂ (fun e e' ↦ e.1 = e'.1 ∧ e.2.Same e'.2) entries entries') :
    (Value.map entries).Same (.map entries') :=
  .map (map_outcomes_eq (h.imp fun _ _ he ↦ he.1.symm)).symm
    fun _ _ hm ↦ (List.forall₂_zip h hm).2

namespace Schema

variable {α : Type} {s t : Schema} {convert : Field → α → Except ValidationError Slot}
  {entries : List (String × α)} {slots : List Slot} {unknown : UnknownKeys}

variable (convert entries) in
/-- The slot is what the entry under the alias of the field is converted to. Without an entry it is
absent, which it may be only if the field is optional. -/
def Fills (f : Field) (slot : Slot) : Prop :=
  (Entries.get? f.wireKey entries = none ∧ slot = .absent ∨
    ∃ a, Entries.get? f.wireKey entries = some a ∧ convert f a = .ok slot) ∧
  (f.required = true → slot.isExplicit = true)

theorem assemble_aliases_iff_fills :
    Intake.assemble (.aliases unknown) s.name (s.fields.map fun f ↦ ⟨f, convert f⟩) entries =
        .ok slots ↔
      List.Forall₂ (Fills convert entries) s.fields slots ∧
        (unknown = .reject →
          ∀ key ∈ entries.map Prod.fst, ∃ f ∈ s.fields, f.wireKey = key) := by
  rw [Intake.assemble_aliases_eq_ok, Intake.readAliases_eq_ok, List.forall₂_map_left_iff,
    List.forall₂_iff_zip, List.forall₂_iff_zip]
  simp only [List.zip_map_left, List.forall_mem_map]
  simp only [List.mem_map, exists_exists_and_eq_and]
  constructor
  · intro h
    obtain ⟨⟨hl, hread⟩, hknown, hrequired⟩ := h
    exact ⟨⟨hl, fun {f slot} hm ↦ ⟨hread hm, hrequired (f, slot) hm⟩⟩, hknown⟩
  · intro h
    obtain ⟨⟨hl, hslot⟩, hknown⟩ := h
    exact ⟨⟨hl, fun {f slot} hm ↦ (hslot hm).1⟩, hknown, fun p hm ↦ (hslot hm).2⟩

variable (convert entries) in
/-- The second field takes each of the inputs that the first one does, and as the same data. -/
def Follows (f g : Field) : Prop :=
  f.Loosens g ∧ ∀ e ∈ entries, ∀ slot, convert f e.2 = .ok slot →
    ∃ slot', convert g e.2 = .ok slot' ∧ slot.Same slot'

theorem Follows.fills {f g : Field} {slot : Slot} (h : Follows convert entries f g)
    (hslot : Fills convert entries f slot) :
    ∃ slot', Fills convert entries g slot' ∧ slot.Same slot' := by
  obtain ⟨hloosens, htakes⟩ := h
  obtain ⟨⟨hn, rfl⟩ | ⟨a, ha, hslot⟩, hrequired⟩ := hslot
  · refine ⟨.absent, ⟨.inl ⟨hloosens.wireKey ▸ hn, rfl⟩, ?_⟩, .absent⟩
    exact fun hq ↦ hrequired (hloosens.required hq)
  · obtain ⟨slot', hslot', hsame⟩ := htakes _ (Entries.mem_of_get?_eq_some ha) slot hslot
    refine ⟨slot', ⟨.inr ⟨a, hloosens.wireKey ▸ ha, hslot'⟩, ?_⟩, hsame⟩
    exact fun hq ↦ hsame.isExplicit ▸ hrequired (hloosens.required hq)

theorem assemble_aliases_follows
    (hfields : List.Forall₂ (Follows convert entries) s.fields t.fields)
    (h : Intake.assemble (.aliases unknown) s.name (s.fields.map fun f ↦ ⟨f, convert f⟩) entries =
      .ok slots) :
    ∃ slots', Intake.assemble (.aliases unknown) t.name (t.fields.map fun f ↦ ⟨f, convert f⟩)
      entries = .ok slots' ∧ List.Forall₂ Slot.Same slots slots' := by
  obtain ⟨hslots, hknown⟩ := assemble_aliases_iff_fills.mp h
  obtain ⟨slots', hslots', hsame⟩ :=
    exists_outcomes_of_forall₂ hfields hslots fun _ _ _ hfg ↦ Follows.fills hfg
  refine ⟨slots', assemble_aliases_iff_fills.mpr ⟨hslots', fun hu key hkey ↦ ?_⟩, hsame⟩
  obtain ⟨f, hf, rfl⟩ := hknown hu key hkey
  obtain ⟨g, hg, hfg⟩ := exists_of_mem_outcomes hfields.flip hf
  exact ⟨g, hg, hfg.1.wireKey.symm⟩

theorem map_wireKey_meant? (h : List.Forall₂ Field.Loosens s.fields t.fields) (key : String) :
    (t.meant? key).map Field.wireKey = (s.meant? key).map Field.wireKey := by
  have hmeant : ∀ u : Schema, (u.meant? key).map Field.wireKey =
      (((u.fields.map fun f ↦ (f.name, f.wireKey)).find? (·.1 = key)).or
        ((u.fields.map fun f ↦ (f.name, f.wireKey)).find? (·.2 = key))).map Prod.snd := by
    intro u
    rw [List.find?_map, List.find?_map, ← Option.map_or, Option.map_map]
    rfl
  have hkeys : (t.fields.map fun f ↦ (f.name, f.wireKey)) =
      s.fields.map fun f ↦ (f.name, f.wireKey) :=
    map_outcomes_eq (h.imp fun f g hfg ↦ by rw [hfg.name, hfg.wireKey])
  rw [hmeant, hmeant, hkeys]

theorem assemble_follows {rule : KeyRule} (hs : s.Built) (ht : t.Built)
    (hc : ∀ f, (⟨f, convert f⟩ : Intake α).Supplies)
    (hfields : List.Forall₂ (Follows convert entries) s.fields t.fields)
    (h : Intake.assemble rule s.name (s.fields.map fun f ↦ ⟨f, convert f⟩) entries = .ok slots) :
    ∃ slots', Intake.assemble rule t.name (t.fields.map fun f ↦ ⟨f, convert f⟩) entries =
      .ok slots' ∧ List.Forall₂ Slot.Same slots slots' := by
  cases rule with
  | aliases unknown => exact assemble_aliases_follows hfields h
  | names =>
    obtain ⟨hm, hn, h⟩ := (assemble_names_iff_rekey hc hs slots).mp h
    have hkeyed : List.Forall₂ (Follows convert (s.rekey Field.wireKey entries)) s.fields
        t.fields := by
      refine hfields.imp fun f g hfg ↦ ⟨hfg.1, List.forall_mem_map.mpr fun e he ↦ ?_⟩
      exact hfg.2 e he
    obtain ⟨slots', h', hsame⟩ := assemble_aliases_follows hkeyed h
    have hmeant := map_wireKey_meant? (hfields.imp fun _ _ hfg ↦ hfg.1)
    have hrekey : t.rekey Field.wireKey entries = s.rekey Field.wireKey entries := by
      simp only [rekey, hmeant]
    refine ⟨slots', (assemble_names_iff_rekey hc ht slots').mpr ?_, hsame⟩
    rw [hrekey]
    refine ⟨fun e he ↦ ?_, hn, h'⟩
    obtain ⟨f, hf⟩ := hm e he
    have hsome := hmeant e.1
    rw [hf] at hsome
    obtain ⟨g, hg, -⟩ := Option.map_eq_some_iff.mp hsome
    exact ⟨g, hg⟩

end Schema

section

variable {rule : KeyRule} {s u : Schema} {f g : Field} {t t' : FieldType} {json : Json}

def FieldType.CoveredBy (rule : KeyRule) (t t' : FieldType) : Prop :=
  ∀ json v, json ≠ .null → t.accept rule json = .ok v →
    ∃ w, t'.accept rule json = .ok w ∧ v.Same w

theorem Field.Loosens.check (h : f.Loosens g) (hc : f.type.CoveredBy rule g.type) {slot : Slot}
    (hslot : f.check rule json = .ok slot) :
    ∃ slot', g.check rule json = .ok slot' ∧ slot.Same slot' := by
  obtain ⟨rfl, hn, rfl⟩ | ⟨hj, v, hv, rfl⟩ := slotOf_eq_ok.mp hslot
  · exact ⟨.null, slotOf_eq_ok.mpr (.inl ⟨rfl, h.nullable hn, rfl⟩), .null⟩
  · obtain ⟨w, hw, hsame⟩ := hc json v hj hv
    exact ⟨.set w, slotOf_eq_ok.mpr (.inr ⟨hj, w, hw, rfl⟩), .set hsame⟩

/-- However the inputs are converted, as long as each is checked as JSON. -/
theorem Schema.assemble_covered {α : Type} {convert : Field → α → Except ValidationError Slot}
    {entries : List (String × α)} {slots : List Slot} {keys : KeyRule} (hs : s.Built)
    (hu : u.Built) (hfields : List.Forall₂ Field.Loosens s.fields u.fields)
    (ih : ∀ f g, (f, g) ∈ s.fields.zip u.fields → f.type.CoveredBy rule g.type)
    (hc : ∀ f, (⟨f, convert f⟩ : Intake α).Supplies)
    (hj : ∀ e ∈ entries, ∃ json, ∀ f : Field, convert f e.2 = f.check rule json)
    (h : Intake.assemble keys s.name (s.fields.map fun f ↦ ⟨f, convert f⟩) entries = .ok slots) :
    ∃ slots', Intake.assemble keys u.name (u.fields.map fun f ↦ ⟨f, convert f⟩) entries =
      .ok slots' ∧ (Value.record ⟨s, slots⟩).Same (.record ⟨u, slots'⟩) := by
  have hfollow : List.Forall₂ (Follows convert entries) s.fields u.fields := by
    rw [List.forall₂_iff_zip] at hfields ⊢
    refine ⟨hfields.1, fun {f g} hm ↦ ⟨hfields.2 hm, fun e he slot hslot ↦ ?_⟩⟩
    obtain ⟨json, hjson⟩ := hj e he
    rw [hjson] at hslot ⊢
    exact (hfields.2 hm).check (ih f g hm) hslot
  obtain ⟨slots', h', hsame⟩ := assemble_follows hs hu hc hfollow h
  have hnames := (map_outcomes_eq (hfields.imp fun _ _ hfg ↦ hfg.name.symm)).symm
  exact ⟨slots', h', Value.same_record hnames hsame⟩

namespace FieldType

theorem covered_scalar (hs : t.isScalar) (ht : t.Built) (ht' : t'.Built) (h : t.Loosens t') :
    t.CoveredBy rule t' := by
  intro json v hj hv
  obtain ⟨ha, rfl⟩ := (accept_scalar_eq_ok hs ht hj).mp hv
  have hs' : t'.isScalar = true := h.isScalar.trans hs
  exact ⟨_, (accept_scalar_eq_ok hs' ht' hj).mpr ⟨h.admits ha, rfl⟩, .scalar json⟩

theorem CoveredBy.refuseNull (h : t.CoveredBy rule t') {v : Value}
    (hv : TypedRecord.refuseNull (t.accept rule) json = .ok v) :
    ∃ w, TypedRecord.refuseNull (t'.accept rule) json = .ok w ∧ v.Same w := by
  obtain ⟨hj, hv⟩ := refuseNull_eq_ok.mp hv
  obtain ⟨w, hw, hsame⟩ := h json v hj hv
  exact ⟨w, refuseNull_eq_ok.mpr ⟨hj, hw⟩, hsame⟩

theorem covered_seq {limits limits' : Limits} (hl : limits.Loosens limits')
    (h : t.CoveredBy rule t') : (seq t limits).CoveredBy rule (seq t' limits') := by
  intro json v _ hv
  cases json with
  | arr elements =>
    simp only [accept, ofArray, guardBreach_eq_ok, Limits.breach?_eq_none_iff, Located.map_eq_ok,
      Located.traverse_eq_ok] at hv ⊢
    obtain ⟨hallows, values, hvalues, rfl⟩ := hv
    obtain ⟨values', hvalues', hsame⟩ := exists_outcomes_of_imp hvalues fun _ _ ↦ h.refuseNull
    exact ⟨_, ⟨hl.allows hallows, values', hvalues', rfl⟩, Value.same_list hsame⟩
  | _ => simp [accept, ofArray, wrongType, Located.here] at hv

theorem covered_map (h : t.CoveredBy rule t') : (map t).CoveredBy rule (map t') := by
  intro json v _ hv
  cases json with
  | obj entries =>
    simp only [accept, ofObject, Located.map_eq_ok, Located.traverseEntries_eq_ok] at hv ⊢
    obtain ⟨outs, houts, rfl⟩ := hv
    have hentry : ∀ (e : String × Json) (out : String × Value),
        out.1 = e.1 ∧ TypedRecord.refuseNull (t.accept rule) e.2 = .ok out.2 →
        ∃ out' : String × Value, (out'.1 = e.1 ∧
          TypedRecord.refuseNull (t'.accept rule) e.2 = .ok out'.2) ∧
          out.1 = out'.1 ∧ out.2.Same out'.2 := by
      intro e out hout
      obtain ⟨w, hw, hsame⟩ := h.refuseNull hout.2
      exact ⟨(e.1, w), ⟨rfl, hw⟩, hout.1, hsame⟩
    obtain ⟨outs', houts', hsame⟩ := exists_outcomes_of_imp houts hentry
    exact ⟨_, ⟨outs', houts', rfl⟩, Value.same_map hsame⟩
  | _ => simp [accept, ofObject, Located.here] at hv

theorem Loosens.covered (h : t.Loosens t') : t.Built → t'.Built → t.CoveredBy rule t' := by
  induction h with
  | str hl => exact fun ht ht' ↦ covered_scalar rfl ht ht' (.str hl)
  | int hr => exact fun ht ht' ↦ covered_scalar rfl ht ht' (.int hr)
  | num hr => exact fun ht ht' ↦ covered_scalar rfl ht ht' (.num hr)
  | bool => exact fun ht ht' ↦ covered_scalar rfl ht ht' .bool
  | any => exact fun ht ht' ↦ covered_scalar rfl ht ht' .any
  | enum hn hv => exact fun ht ht' ↦ covered_scalar rfl ht ht' (.enum hn hv)
  | union hl hm => exact fun ht ht' ↦ covered_scalar rfl ht ht' (.union hl hm)
  | @record s u _ _ hfields _ ih =>
    intro ht ht' json v _ hv
    have hs := ht.record
    have hu := ht'.record
    cases json with
    | obj entries =>
      simp only [accept, ofObject, Located.map_eq_ok, Schema.accept_eq] at hv ⊢
      obtain ⟨_, ⟨slots, hslots, rfl⟩, rfl⟩ := hv
      have hcovered : ∀ f g, (f, g) ∈ s.fields.zip u.fields → f.type.CoveredBy rule g.type := by
        intro f g hm
        obtain ⟨hf, hg⟩ := List.of_mem_zip hm
        exact ih f g hm (hs.field hf) (hu.field hg)
      obtain ⟨slots', hslots', hsame⟩ := Schema.assemble_covered hs hu hfields hcovered
        (fun _ _ _ ↦ Field.isExplicit_of_check) (fun e _ ↦ ⟨e.2, fun _ ↦ rfl⟩) hslots
      exact ⟨_, ⟨_, ⟨slots', hslots', rfl⟩, rfl⟩, hsame⟩
    | _ => simp [accept, ofObject, Located.here] at hv
  | seq hl _ ih => exact fun ht ht' ↦ covered_seq hl (ih ht.seq ht'.seq)
  | map _ ih => exact fun ht ht' ↦ covered_map (ih ht.map ht'.map)

end FieldType

end

section

variable {s u : Schema} {f g : Field} {t t' : FieldType} {r : Record}

theorem Field.encodeAll_follows {fs gs : List Field} {entries : List (String × Json)}
    (h : List.Forall₂ (fun f g ↦ ∀ part, f.encode r = .ok part → g.encode r = .ok part) fs gs)
    (he : Field.encodeAll fs r = .ok entries) : Field.encodeAll gs r = .ok entries := by
  induction h generalizing entries with
  | nil => exact he
  | cons hfg _ ih =>
    obtain ⟨part, hpart, he⟩ := Located.bind_eq_ok.mp he
    obtain ⟨others, hothers, he⟩ := Located.bind_eq_ok.mp he
    rw [Field.encodeAll, hfg part hpart, ih hothers]
    exact he

theorem Field.Loosens.encode (h : f.Loosens g)
    (ih : ∀ v json, f.type.encode v = .ok json → g.type.encode v = .ok json)
    {part : List (String × Json)} (he : f.encode r = .ok part) : g.encode r = .ok part := by
  obtain ⟨out, hout, rfl⟩ := encode_eq_ok_iff.mp he
  rw [h.wireKey, encode_eq_ok_iff]
  refine ⟨out, ?_, rfl⟩
  cases hout with
  | absent hslot => exact .absent (h.name ▸ hslot)
  | null hslot hn => exact .null (h.name ▸ hslot) (h.nullable hn)
  | set hslot hv => exact .set (h.name ▸ hslot) (ih _ _ hv)

/-- What is encoded under a type is encoded alike under a looser one. -/
theorem FieldType.Loosens.encode (h : t.Loosens t') :
    ∀ v json, t.encode v = .ok json → t'.encode v = .ok json := by
  induction h with
  | str | int | num | bool | any | enum | union =>
    exact fun v json he ↦ (encode_scalar_eq_ok rfl).mpr ((encode_scalar_eq_ok rfl).mp he)
  | @record s u _ _ hfields _ ih =>
    intro v json he
    obtain ⟨r, entries, rfl, hentries, rfl⟩ := encode_record_eq_ok.mp he
    refine encode_record ?_
    rw [Schema.encodeEntries_eq, Located.bind_eq_ok] at hentries ⊢
    obtain ⟨_, hu, hentries⟩ := hentries
    refine ⟨(), ?_, ?_⟩
    · rw [Record.refuseUnknown_eq_ok] at hu ⊢
      intro p hp hexplicit
      obtain ⟨f, hf, hname⟩ := hu p hp hexplicit
      obtain ⟨g, hg, hfg⟩ := exists_of_mem_outcomes hfields.flip hf
      exact ⟨g, hg, hfg.name.symm.trans hname⟩
    · refine Field.encodeAll_follows ?_ hentries
      rw [List.forall₂_iff_zip] at hfields ⊢
      exact ⟨hfields.1, fun {f g} hm part hpart ↦ (hfields.2 hm).encode (ih f g hm) hpart⟩
  | seq _ _ ih =>
    intro v json he
    obtain ⟨values, elements, rfl, helements, rfl⟩ := encode_seq_eq_ok.mp he
    exact encode_list (helements.imp fun v j hj ↦ ih v j hj)
  | map _ ih =>
    intro v json he
    obtain ⟨entries, outs, rfl, houts, rfl⟩ := encode_map_eq_ok.mp he
    exact encode_map (houts.imp fun e out hout ↦ ⟨hout.1, ih e.2 out.2 hout.2⟩)

end

section

variable {rule : KeyRule} {s : Schema} {f : Field} {t : FieldType} {json : Json} {slots : List Slot}

def Slot.Suits (f : Field) : Slot → Prop
  | .absent => True
  | .null => f.nullable = true
  | .set v => v.Suits f.type

theorem Record.suits_of_slots (hs : s.Built) (h : List.Forall₂ Slot.Suits s.fields slots) :
    (Value.record ⟨s, slots⟩).Suits (.record s) := by
  have hslot : ∀ f ∈ s.fields, ∀ slot, Record.slot? ⟨s, slots⟩ f.name = some slot →
      slot.Suits f := by
    intro f hf slot hslot
    obtain ⟨g, hg, hname⟩ := Record.mem_fields_of_slot? hslot
    obtain rfl := List.inj_on_of_nodup_map hs.names (List.of_mem_zip hg).1 hf hname
    exact List.forall₂_zip h hg
  refine .record (fun p hp _ ↦ ⟨p.1, (List.of_mem_zip hp).1, rfl⟩) ?_ ?_
  · exact fun f hf hnull ↦ hslot f hf .null hnull
  · exact fun f hf v hset ↦ hslot f hf (.set v) hset

theorem Slot.suits_of_check (ht : ∀ v, json ≠ .null → f.type.accept rule json = .ok v →
    v.Suits f.type) {slot : Slot} (h : f.check rule json = .ok slot) : slot.Suits f := by
  obtain ⟨-, hn, rfl⟩ | ⟨hj, v, hv, rfl⟩ := slotOf_eq_ok.mp h
  · exact hn
  · exact ht v hj hv

theorem Record.suits_of_assemble {α : Type} {convert : Field → α → Except ValidationError Slot}
    {entries : List (String × α)} {keys : KeyRule} (hs : s.Built)
    (hc : ∀ f ∈ s.fields, ∀ e ∈ entries, ∀ slot, convert f e.2 = .ok slot → slot.Suits f)
    (h : Intake.assemble keys s.name (s.fields.map fun f ↦ ⟨f, convert f⟩) entries = .ok slots) :
    (Value.record ⟨s, slots⟩).Suits (.record s) :=
  suits_of_slots hs (Intake.forall₂_of_assemble (fun _ _ _ ↦ trivial) hc h)

theorem FieldType.suits_of_accept : t.Built → ∀ json v, json ≠ .null →
    t.accept rule json = .ok v → v.Suits t := by
  induction t using FieldType.induction with
  | scalar t hs =>
    intro ht json v hj hv
    obtain ⟨-, rfl⟩ := (accept_scalar_eq_ok hs ht hj).mp hv
    exact .scalar hs
  | record s ih =>
    intro ht json v _ hv
    have hs := ht.record
    cases json with
    | obj entries =>
      simp only [accept, ofObject, Located.map_eq_ok, Schema.accept_eq] at hv
      obtain ⟨_, ⟨slots, hslots, rfl⟩, rfl⟩ := hv
      refine Record.suits_of_assemble hs (fun f hf e _ slot hslot ↦ ?_) hslots
      exact Slot.suits_of_check (ih f hf (hs.field hf) e.2) hslot
    | _ => simp [accept, ofObject, Located.here] at hv
  | seq items limits ih =>
    intro ht json v _ hv
    cases json with
    | arr elements =>
      simp only [accept, ofArray, guardBreach_eq_ok, Located.map_eq_ok,
        Located.traverse_eq_ok] at hv
      obtain ⟨-, values, hvalues, rfl⟩ := hv
      refine .list fun v hm ↦ ?_
      obtain ⟨json, -, hv⟩ := exists_of_mem_outcomes hvalues hm
      obtain ⟨hj, hv⟩ := refuseNull_eq_ok.mp hv
      exact ih ht.seq json v hj hv
    | _ => simp [accept, ofArray, wrongType, Located.here] at hv
  | map values ih =>
    intro ht json v _ hv
    cases json with
    | obj entries =>
      simp only [accept, ofObject, Located.map_eq_ok, Located.traverseEntries_eq_ok] at hv
      obtain ⟨outs, houts, rfl⟩ := hv
      refine .map fun out hm ↦ ?_
      obtain ⟨e, -, -, hv⟩ := exists_of_mem_outcomes houts hm
      obtain ⟨hj, hv⟩ := refuseNull_eq_ok.mp hv
      exact ih ht.map e.2 out.2 hj hv
    | _ => simp [accept, ofObject, Located.here] at hv

end

def Input.IsJson : Input → Prop
  | .null | .json _ => True
  | .record _ | .records _ => False

theorem Field.receive_json {input : Input} (h : input.IsJson) :
    ∃ json, ∀ f : Field, f.receive input = f.check .names json := by
  cases input with
  | null => exact ⟨.null, fun _ ↦ rfl⟩
  | json value => exact ⟨value, fun _ ↦ rfl⟩
  | record | records => exact h.elim

namespace Schema

/-- The second record is one of the second schema with the data of the first one, and the first
record is encoded alike under both schemas. -/
structure Transfers (s l : Schema) (r r' : Record) : Prop where
  schema : r'.schema = l
  same : (Value.record r).Same (.record r')
  encode : ∃ json, s.encode r = .ok json ∧ l.encode r = .ok json

variable {s l : Schema}

theorem transfers_of_assemble {α : Type} {convert : Field → α → Except ValidationError Slot}
    {entries : List (String × α)} {slots : List Slot} {keys rule : KeyRule} (hs : s.Built)
    (hl : l.Built) (h : (FieldType.record s).Loosens (.record l))
    (hc : ∀ f, (⟨f, convert f⟩ : Intake α).Supplies)
    (hj : ∀ e ∈ entries, ∃ json, ∀ f : Field, convert f e.2 = f.check rule json)
    (ha : Intake.assemble keys s.name (s.fields.map fun f ↦ ⟨f, convert f⟩) entries = .ok slots) :
    ∃ slots', Intake.assemble keys l.name (l.fields.map fun f ↦ ⟨f, convert f⟩) entries =
      .ok slots' ∧ s.Transfers l ⟨s, slots⟩ ⟨l, slots'⟩ := by
  obtain ⟨hfields, htypes⟩ := h.fields
  have hcovered : ∀ f g, (f, g) ∈ s.fields.zip l.fields → f.type.CoveredBy rule g.type := by
    intro f g hm
    obtain ⟨hf, hg⟩ := List.of_mem_zip hm
    exact (htypes f g hm).covered (hs.field hf) (hl.field hg)
  obtain ⟨slots', hslots', hsame⟩ := assemble_covered hs hl hfields hcovered hc hj ha
  have hsuits : (Value.record ⟨s, slots⟩).Suits (.record s) := by
    refine Record.suits_of_assemble hs (fun f hf e he slot hslot ↦ ?_) ha
    obtain ⟨json, hjson⟩ := hj e he
    rw [hjson] at hslot
    exact Slot.suits_of_check (FieldType.suits_of_accept (hs.field hf) json) hslot
  obtain ⟨json, hencode⟩ := (FieldType.exists_encode_iff _).mpr hsuits
  exact ⟨slots', hslots', rfl, hsame, json, hencode, h.encode _ json hencode⟩

/-- A looser schema takes all that a schema does, decoded or supplied by a caller, and as the same
data. -/
theorem accepted_by_looser (hs : s.Built) (hl : l.Built)
    (h : (FieldType.record s).Loosens (.record l)) :
    (∀ unknown payload r, s.decode unknown payload = .ok (some r) →
      ∃ r', l.decode unknown payload = .ok (some r') ∧ s.Transfers l r r') ∧
    ∀ inputs r, (∀ e ∈ inputs, e.2.IsJson) → s.construct inputs = .ok r →
      ∃ r', l.construct inputs = .ok r' ∧ s.Transfers l r r' := by
  constructor
  · intro unknown payload r hr
    simp only [decode_eq_some, decodeRecord_eq_ok_accept, accept_eq, Located.map_eq_ok] at hr ⊢
    obtain ⟨entries, rfl, slots, hslots, rfl⟩ := hr
    obtain ⟨slots', hslots', htransfers⟩ := transfers_of_assemble hs hl h
      (fun _ _ _ ↦ Field.isExplicit_of_check) (fun e _ ↦ ⟨e.2, fun _ ↦ rfl⟩) hslots
    exact ⟨_, ⟨entries, rfl, slots', hslots', rfl⟩, htransfers⟩
  · intro inputs r hj hr
    simp only [construct, Located.map_eq_ok] at hr ⊢
    obtain ⟨slots, hslots, rfl⟩ := hr
    obtain ⟨slots', hslots', htransfers⟩ := transfers_of_assemble hs hl h
      Field.supplies_receive (fun e he ↦ Field.receive_json (hj e he)) hslots
    exact ⟨_, ⟨slots', hslots', rfl⟩, htransfers⟩

def holder : Schema := ⟨0, "Holder", none,
  [Field.plain "name" (.str { min := some 1 }) true,
    { Field.plain "email" (.str { max := some 8 }) true with wireKey := "eMail" },
    Field.plain "age" (.int { gt := some (.ofInt 17) }) false]⟩

def looseHolder : Schema := ⟨2, "Holder", none,
  [Field.plain "name" (.str { min := some 1 }) true,
    { Field.plain "email" (.str {}) false with wireKey := "eMail", nullable := true },
    Field.plain "age" (.int { gte := some (.ofInt 17) }) false]⟩

def ticket : Schema := ⟨1, "Ticket", none,
  [Field.plain "holders" (.seq (.record holder) { max := some 2 }) true,
    Field.plain "seat" (.union [.str { max := some 2 }, .enum ⟨"Stand", ["front"]⟩]) true]⟩

def looseTicket : Schema := ⟨3, "Ticket", none,
  [Field.plain "holders" (.seq (.record looseHolder) { max := some 3 }) true,
    Field.plain "seat"
      (.union [.str { max := some 9 }, .enum ⟨"Stand", ["front", "back"]⟩, .int {}]) true]⟩

theorem ticket_built : ticket.Built := by
  refine .intro rfl fun t ht ↦ ?_
  obtain rfl := List.mem_singleton.mp ht
  exact .intro rfl nofun

theorem looseTicket_built : looseTicket.Built := by
  refine .intro rfl fun t ht ↦ ?_
  obtain rfl := List.mem_singleton.mp ht
  exact .intro rfl nofun

theorem holder_loosens : (FieldType.record holder).Loosens (.record looseHolder) := by
  refine .record rfl rfl (.cons (.refl _) (.cons ⟨rfl, rfl, nofun, nofun, rfl⟩
    (.cons ⟨rfl, rfl, id, id, rfl⟩ .nil))) fun f g hm ↦ ?_
  obtain ⟨rfl, rfl⟩ | ⟨rfl, rfl⟩ | ⟨rfl, rfl⟩ : _ ∨ _ ∨ _ := by
    simpa [holder, looseHolder] using hm
  · exact .refl _
  · exact .str ⟨nofun, nofun⟩
  · exact .int (.inclusive _)

theorem ticket_loosens : (FieldType.record ticket).Loosens (.record looseTicket) := by
  refine .record rfl rfl (.cons ⟨rfl, rfl, id, id, rfl⟩ (.cons ⟨rfl, rfl, id, id, rfl⟩ .nil))
    fun f g hm ↦ ?_
  obtain ⟨rfl, rfl⟩ | ⟨rfl, rfl⟩ : _ ∨ _ := by simpa [ticket, looseTicket] using hm
  · exact .seq (.raised (by decide)) holder_loosens
  · refine .union (by decide) fun t u hm ↦ ?_
    obtain ⟨rfl, rfl⟩ | ⟨rfl, rfl⟩ : _ ∨ _ := by simpa using hm
    · exact .str (.raised (by decide))
    · exact .enum rfl ⟨["back"], rfl⟩

/-- The seat is one of the enumeration, and a string of the first member of the union once that may
be longer. -/
theorem ticket_accepted_by_looser :
    let payload : Json := .obj [("seat", .str "front"),
      ("holders", .arr [.obj [("eMail", .str "a@b"), ("age", .int 18), ("name", .str "a")]])]
    let r : Record := ⟨ticket, [.set (.list [.record ⟨holder, [.set (.scalar (.str "a")),
      .set (.scalar (.str "a@b")), .set (.scalar (.int 18))]⟩]), .set (.scalar (.str "front"))]⟩
    let inputs : List (String × Input) :=
      [("seat", .json (.str "front")), ("holders", .json (.arr []))]
    let empty : Record := ⟨ticket, [.set (.list []), .set (.scalar (.str "front"))]⟩
    ticket.Built ∧ looseTicket.Built ∧ (FieldType.record ticket).Loosens (.record looseTicket) ∧
      ticket.decode .reject payload = .ok (some r) ∧
      (∃ r', looseTicket.decode .reject payload = .ok (some r') ∧
        ticket.Transfers looseTicket r r') ∧
      (∀ e ∈ inputs, e.2.IsJson) ∧ ticket.construct inputs = .ok empty ∧
      ∃ r', looseTicket.construct inputs = .ok r' ∧ ticket.Transfers looseTicket empty r' := by
  intro payload r inputs empty
  have hd : ticket.decode .reject payload = .ok (some r) := by
    have hsome : ((ticket.decode .reject payload).toOption.bind id).isSome = true := by
      decide +kernel
    obtain ⟨r', hr'⟩ := Option.isSome_iff_exists.mp hsome
    obtain ⟨_, ho, rfl⟩ := Option.bind_eq_some_iff.mp hr'
    have hdecode := toOption_eq_some.mp ho
    obtain ⟨_, he, -, rfl⟩ := (decodeRecord_eq_ok ticket_built).mp (decode_eq_some.mp hdecode)
    obtain rfl := Json.obj.inj he
    exact hdecode
  have hc : ticket.construct inputs = .ok empty := rfl
  have hj : ∀ e ∈ inputs, e.2.IsJson :=
    List.forall_mem_cons.mpr ⟨trivial, List.forall_mem_singleton.mpr trivial⟩
  obtain ⟨hdecode, hconstruct⟩ :=
    accepted_by_looser ticket_built looseTicket_built ticket_loosens
  exact ⟨ticket_built, looseTicket_built, ticket_loosens, hd, hdecode .reject payload r hd, hj, hc,
    hconstruct inputs empty hj hc⟩

end Schema

end TypedRecord
