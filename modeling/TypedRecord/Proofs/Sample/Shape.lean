import TypedRecord.Proofs.Record.Sampling
import TypedRecord.Proofs.Sample.Numbers

namespace TypedRecord

/-- The fields that are present are the required ones, or all fields, and none of them is null. -/
structure Record.Filled (withOptional : Bool) (r : Record) : Prop where
  length : r.slots.length = r.schema.fields.length
  explicit : ∀ f slot, (f, slot) ∈ r.fields →
    (slot.isExplicit = true ↔ withOptional = true ∨ f.required = true)
  notNull : ∀ f slot, (f, slot) ∈ r.fields → slot ≠ .null

/-- The value has the shape of a sample: records are filled at every depth, the elements of a
sequence are equal and as few as may be, but at least one, and a map has one entry. -/
inductive FieldType.SampledAs (withOptional : Bool) : FieldType → Value → Prop
  | scalar {t : FieldType} {json : Json} : t.isScalar = true → json ≠ .null →
      FieldType.SampledAs withOptional t (.scalar json)
  | record {r : Record} : r.Filled withOptional →
      (∀ f v, (f, .set v) ∈ r.fields → FieldType.SampledAs withOptional f.type v) →
      FieldType.SampledAs withOptional (.record r.schema) (.record r)
  | seq {items : FieldType} {limits : Limits} {v : Value} :
      FieldType.SampledAs withOptional items v →
      FieldType.SampledAs withOptional (.seq items limits)
        (.list (List.replicate (max (limits.min.getD 0) 1) v))
  | map {values : FieldType} {key : String} {v : Value} :
      FieldType.SampledAs withOptional values v →
      FieldType.SampledAs withOptional (.map values) (.map [(key, v)])

def FieldType.WholeBounds (t : FieldType) : Prop := ∀ r, t.range? = some r → r.Whole

theorem FieldType.WholeBounds.of_none {t : FieldType} (h : t.range? = none) : t.WholeBounds := by
  intro r hr
  rw [h] at hr
  cases hr

/-- Equal inputs have equal outcomes. -/
theorem eq_replicate_of_forall₂ {α β : Type} {f : α → Except ValidationError β} {a : α} {n : ℕ}
    {outcomes : List β} (h : List.Forall₂ (fun a b ↦ f a = .ok b) (List.replicate n a) outcomes)
    {b : β} (hb : f a = .ok b) : outcomes = List.replicate n b := by
  refine List.eq_replicate_iff.mpr ⟨by rw [← h.length_eq, List.length_replicate], fun c hc ↦ ?_⟩
  obtain ⟨a', ha, hc⟩ := exists_of_mem_outcomes h hc
  rw [List.eq_of_mem_replicate ha, hb] at hc
  cases hc
  rfl

variable {withOptional : Bool}

/-- A sample is never the null that stands in for a number without JSON form or a missing choice. -/
theorem FieldType.sample_ne_null_of_whole {t : FieldType} : t.Built →
    (∀ u, t.Reaches (fun _ ↦ True) u → u.WholeBounds) → t.sample withOptional ≠ .null := by
  induction t using FieldType.induction with
  | scalar t hs ih =>
    intro ht hw
    cases t with
    | str | int | bool | any => simp [sample, Json.wholeNumber, Json.int]
    | num range =>
      obtain ⟨x, hx⟩ := exists_sampleNum
      obtain ⟨_, ⟨y, hy, -⟩, -⟩ := (hw _ (.refl _) range rfl).pickNum_holds ⟨x, hx, rfl⟩
      rw [sample, hy]
      simp [Json.float]
    | enum e =>
      cases flaw?_eq_none_iff.mp ht.flawless with
      | enum he =>
        obtain ⟨value, rest, he⟩ := List.exists_cons_of_ne_nil he
        rw [sample, he]
        simp
    | union members =>
      cases flaw?_eq_none_iff.mp ht.flawless with
      | union hne =>
        obtain ⟨first, rest, rfl⟩ := List.exists_cons_of_ne_nil hne
        have hm : first ∈ first :: rest := List.mem_cons_self
        exact ih first hm (ht.member hm) fun u hr ↦ hw u (.member hm hr)
    | record | seq | map => simp [isScalar] at hs
  | record | seq | map => simp [sample]

namespace Schema

variable {s : Schema} {r : Record}

/-- Each field that is sampled gets its own sample, whatever the aliases of the others are. -/
theorem slots_of_accept_sampleEntries (hs : s.Built)
    (hn : ∀ f ∈ s.fields, f.type.sample withOptional ≠ .null)
    (h : s.accept .names (s.sampleEntries withOptional) = .ok r) :
    r.schema = s ∧ List.Forall₂ (fun f slot ↦
      (withOptional || f.required) = false ∧ slot = .absent ∨
        (withOptional || f.required) = true ∧
          ∃ v, f.type.check .names (f.type.sample withOptional) = .ok v ∧ slot = .set v)
      s.fields r.slots := by
  have hsupplies : ∀ f : Field, (⟨f, f.check .names⟩ : Intake Json).Supplies :=
    fun f json slot h ↦ Field.isExplicit_of_check h
  rw [accept_eq, Located.map_eq_ok] at h
  obtain ⟨slots, hslots, rfl⟩ := h
  obtain ⟨-, hsettles⟩ := (assemble_names_iff hsupplies hs slots).mp hslots
  refine ⟨rfl, ?_⟩
  rw [List.forall₂_iff_zip] at hsettles ⊢
  refine ⟨hsettles.1, fun {f slot} hm ↦ ?_⟩
  have hf := (List.of_mem_zip hm).1
  obtain ⟨e, he, hmeant, hslot⟩ | ⟨hnone, rfl⟩ := hsettles.2 hm
  · rw [sampleEntries_eq] at he
    obtain ⟨g, hg, hkey, hvalue⟩ := Entries.mem_collect.mp he
    obtain ⟨hc, hvalue⟩ := Option.ite_none_right_eq_some.mp hvalue
    -- the name of a field means that field, even if it is an alias of another
    rw [← hkey, meant?_name hs hg, Option.some.injEq] at hmeant
    subst hmeant
    rw [← Option.some.inj hvalue] at hslot
    obtain ⟨hnull, -⟩ | ⟨hj, v, hv, rfl⟩ := slotOf_eq_ok.mp hslot
    · exact absurd hnull (hn g hg)
    · exact .inr ⟨hc, v, refuseNull_eq_ok.mpr ⟨hj, hv⟩, rfl⟩
  · refine .inl ⟨Bool.eq_false_iff.mpr fun hc ↦ ?_, rfl⟩
    refine hnone (f.name, f.type.sample withOptional) ?_ (meant?_name hs hf)
    rw [sampleEntries_eq]
    exact Entries.mem_collect.mpr ⟨f, hf, rfl, if_pos hc⟩

theorem sampledAs_of_accept (hs : s.Built)
    (hn : ∀ f ∈ s.fields, f.type.sample withOptional ≠ .null)
    (hf : ∀ f ∈ s.fields, ∀ v, f.type.check .names (f.type.sample withOptional) = .ok v →
      f.type.SampledAs withOptional v)
    (h : s.accept .names (s.sampleEntries withOptional) = .ok r) :
    (FieldType.record s).SampledAs withOptional (.record r) := by
  obtain ⟨rfl, hslots⟩ := slots_of_accept_sampleEntries hs hn h
  have hslot := fun f slot (hm : (f, slot) ∈ r.fields) ↦ List.forall₂_zip hslots hm
  refine .record ⟨hslots.length_eq.symm, fun f slot hm ↦ ?_, fun f slot hm ↦ ?_⟩ fun f v hm ↦ ?_
  · rw [← Bool.or_eq_true]
    obtain ⟨hc, rfl⟩ | ⟨hc, v, -, rfl⟩ := hslot f slot hm
    · rw [hc]
      exact Iff.rfl
    · rw [hc]
      exact Iff.rfl
  · obtain ⟨-, rfl⟩ | ⟨-, v, -, rfl⟩ := hslot f slot hm
    · nofun
    · nofun
  · obtain ⟨-, h⟩ | ⟨-, w, hw, h⟩ := hslot f _ hm
    · cases h
    · cases h
      exact hf f (List.of_mem_zip hm).1 v hw

end Schema

namespace FieldType

/-- What a type makes of its own sample has the shape of a sample. -/
theorem sampledAs_of_check {t : FieldType} : t.Built →
    (∀ u, t.Reaches (fun _ ↦ True) u → u.WholeBounds) → ∀ v,
    t.check .names (t.sample withOptional) = .ok v → t.SampledAs withOptional v := by
  induction t using FieldType.induction with
  | scalar t hs =>
    intro ht hw v hv
    obtain ⟨hj, hv⟩ := refuseNull_eq_ok.mp hv
    obtain ⟨-, rfl⟩ := (accept_scalar_eq_ok hs ht hj).mp hv
    exact .scalar hs hj
  | record s ih =>
    intro ht hw v hv
    have hs := ht.record
    have hfield : ∀ f ∈ s.fields, ∀ u, f.type.Reaches (fun _ ↦ True) u → u.WholeBounds :=
      fun f hf u hr ↦ hw u (.field hf trivial hr)
    obtain ⟨-, hv⟩ := refuseNull_eq_ok.mp hv
    obtain ⟨r, hr, rfl⟩ := Located.map_eq_ok.mp hv
    exact Schema.sampledAs_of_accept hs
      (fun f hf ↦ sample_ne_null_of_whole (hs.field hf) (hfield f hf))
      (fun f hf ↦ ih f hf (hs.field hf) (hfield f hf)) hr
  | seq items limits ih =>
    intro ht hw v hv
    obtain ⟨-, hv⟩ := refuseNull_eq_ok.mp hv
    obtain ⟨-, hv⟩ := guardBreach_eq_ok.mp hv
    obtain ⟨values, hvalues, rfl⟩ := Located.map_eq_ok.mp hv
    rw [Located.traverse_eq_ok] at hvalues
    have hm : items.sample withOptional ∈
        List.replicate (max (limits.min.getD 0) 1) (items.sample withOptional) :=
      List.mem_replicate.mpr ⟨by omega, rfl⟩
    obtain ⟨w, -, hcheck⟩ := exists_of_mem_outcomes hvalues.flip hm
    rw [eq_replicate_of_forall₂ hvalues hcheck]
    exact .seq (ih ht.seq (fun u hr ↦ hw u (.items hr)) w hcheck)
  | map values ih =>
    intro ht hw v hv
    obtain ⟨-, hv⟩ := refuseNull_eq_ok.mp hv
    obtain ⟨entries, hentries, rfl⟩ := Located.map_eq_ok.mp hv
    rw [Located.traverseEntries_eq_ok, List.forall₂_cons_left_iff] at hentries
    obtain ⟨⟨key, w⟩, rest, ⟨-, hcheck⟩, hrest, rfl⟩ := hentries
    cases hrest
    exact .map (ih ht.map (fun u hr ↦ hw u (.values hr)) w hcheck)

end FieldType

namespace Schema

/-- A sample record has the shape of a sample throughout, if the bounds of its numbers are whole. -/
theorem sample_shaped {s : Schema} (hs : s.Built)
    (hw : ∀ t, (FieldType.record s).Reaches (fun _ ↦ True) t → t.WholeBounds) {r : Record}
    (h : s.sample withOptional = .ok r) :
    r.schema = s ∧ (FieldType.record s).SampledAs withOptional (.record r) := by
  rw [sample, construct_ofJson] at h
  have hcheck : (FieldType.record s).check .names ((FieldType.record s).sample withOptional) =
      .ok (.record r) := by
    rw [FieldType.sample]
    exact Located.map_eq_ok.mpr ⟨r, h, rfl⟩
  have hshape := FieldType.sampledAs_of_check (FieldType.Built.ofSchema hs) hw _ hcheck
  refine ⟨?_, hshape⟩
  cases hshape with
  | record => rfl

def sheet : Schema := ⟨10, "Sheet", none,
  [{ Field.plain "left" (.int { gt := some 0, lt := some 9 }) true with wireKey := "right" },
    { Field.plain "right" (.num { lte := some 1 }) false with
      wireKey := "left", nullable := true }]⟩

def binder : Schema := ⟨11, "Binder", none,
  [.plain "sheets" (.seq (.record sheet) { min := some 2 }) true,
    .plain "notes" (.map (.record sheet)) false]⟩

theorem binder_built : binder.Built := by
  refine .intro rfl fun t ht ↦ ?_
  simp only [nested, binder, Field.plain, FieldType.nested, List.flatMap_cons, List.flatMap_nil,
    List.append_nil, List.mem_append, List.mem_singleton, or_self] at ht
  subst ht
  exact .intro (by decide +kernel) (by simp [nested, sheet, Field.plain, FieldType.nested])

theorem binder_whole :
    ∀ t, (FieldType.record binder).Reaches (fun _ ↦ True) t → t.WholeBounds := by
  have hint : (FieldType.int { gt := some 0, lt := some 9 }).WholeBounds := by
    rintro r hr x hx
    cases hr
    have hx : x = 0 ∨ x = 9 := by simpa [Range.HasBound] using hx
    obtain hx | hx := hx <;> rw [hx]
    · exact ⟨0, by decide, Binary64.denotes_ofInt (by decide)⟩
    · exact ⟨9, by decide, Binary64.denotes_ofInt (by decide)⟩
  have hnum : (FieldType.num { lte := some 1 }).WholeBounds := by
    rintro r hr x hx
    cases hr
    have hx : x = 1 := by simpa [Range.HasBound] using hx
    rw [hx]
    exact ⟨1, by decide, Binary64.denotes_one⟩
  intro t ht
  simp +decide only [FieldType.reaches_record_iff, FieldType.reaches_seq_iff,
    FieldType.reaches_map_iff, FieldType.reaches_primitive_iff, binder, sheet, Field.plain,
    List.mem_cons, List.not_mem_nil, or_false, exists_eq_or_imp, exists_eq_left, true_and] at ht
  obtain rfl | (rfl | rfl | rfl | rfl) | (rfl | rfl | rfl | rfl) := ht
  · exact .of_none rfl
  · exact .of_none rfl
  · exact .of_none rfl
  · exact hint
  · exact hnum
  · exact .of_none rfl
  · exact .of_none rfl
  · exact hint
  · exact hnum

/-- With and without the optional fields there is a sample, and it has the shape of one. -/
theorem binder_shaped : binder.Built ∧ ∀ withOptional, ∃ r,
    binder.sample withOptional = .ok r ∧
      (FieldType.record binder).SampledAs withOptional (.record r) := by
  refine ⟨binder_built, fun withOptional ↦ ?_⟩
  have hsample : (binder.sample withOptional).isOk = true := by
    cases withOptional <;> decide +kernel
  cases h : binder.sample withOptional with
  | ok r => exact ⟨r, rfl, (sample_shaped binder_built binder_whole h).2⟩
  | error e =>
    rw [h] at hsample
    cases hsample

end Schema

end TypedRecord
