import TypedRecord.Proofs.Record.Acceptance
import TypedRecord.Proofs.Sample
import TypedRecord.Proofs.Schema.Integrity

namespace TypedRecord

namespace FieldType

def Unbounded (t : FieldType) : Prop := ∀ r, t.range? = some r → r.isUnbounded = true

/-- Not a type of sequences that have to be empty. -/
def Inhabitable : FieldType → Prop
  | .seq _ limits => limits.max ≠ some 0
  | _ => True

end FieldType

namespace Range

variable {r : Range}

theorem eq_of_isUnbounded (h : r.isUnbounded = true) : r = {} := by
  obtain ⟨gt, gte, lt, lte⟩ := r
  simp only [isUnbounded, Bool.and_eq_true, Option.isNone_iff_eq_none] at h
  simp [h]

theorem allows_of_isUnbounded (h : r.isUnbounded = true) (n : Json.Number) : r.Allows n := by
  rw [eq_of_isUnbounded h]
  exact ⟨by simp, by simp, by simp, by simp⟩

theorem pickNum_of_isUnbounded (h : r.isUnbounded = true) (x : Binary64) : r.pickNum x = x := by
  rw [eq_of_isUnbounded h]
  exact if_pos rfl

end Range

section

variable {l : Limits}

theorem Limits.Ordered.allows_least (h : l.Ordered) : l.Allows (l.min.getD 0) where
  min m hm := by
    rw [hm]
    exact Nat.le_refl m
  max m hm := by
    cases hmin : l.min with
    | none => exact Nat.zero_le m
    | some least => exact h least m hmin hm

/-- One element, where none would do, is too many only if there may be none. -/
theorem FieldType.allows_sampled_iff (h : l.Ordered) :
    l.Allows (max (l.min.getD 0) 1) ↔ l.max ≠ some 0 := by
  have hleast := h.allows_least
  constructor
  · intro hl hzero
    have hmax : max (l.min.getD 0) 1 ≤ 0 := hl.max 0 hzero
    omega
  · intro hne
    refine ⟨fun m hm ↦ ?_, fun m hm ↦ ?_⟩
    · have hmin : m ≤ l.min.getD 0 := hleast.min m hm
      omega
    · have hmax : l.min.getD 0 ≤ m := hleast.max m hm
      have hpos : m ≠ 0 := by
        rintro rfl
        exact hne hm
      omega

end

theorem Schema.keys_sampleEntries {s : Schema} {withOptional : Bool} :
    ((s.sampleEntries withOptional).map Prod.fst).Sublist (s.fields.map Field.name) := by
  rw [sampleEntries_eq, Entries.map_fst_collect]
  exact List.filter_sublist.map Field.name

theorem exists_sampleNum : ∃ x, sampleNum = .finite x := by
  have h : sampleNum.isFinite = true := by decide +kernel
  cases hx : sampleNum with
  | finite x => exact ⟨x, rfl⟩
  | nan | infinite => simp [hx, Binary64.isFinite] at h

namespace FieldType

variable {counts : Field → Prop} {t u : FieldType}

theorem Reaches.isScalar (h : t.Reaches counts u) (ht : t.Built) (hs : t.isScalar) :
    u.isScalar := by
  induction h with
  | refl => exact hs
  | member hm _ ih => exact ih (ht.member hm) (isScalar_of_isPrimitive (ht.members _ hm).1)
  | field | items | values => simp [FieldType.isScalar] at hs

variable {withOptional : Bool}

theorem admits_sample (hs : t.isScalar) : t.Built →
    (∀ u, t.Reaches (fun _ ↦ True) u → u.Unbounded) → t.Admits (t.sample withOptional) := by
  induction t using FieldType.induction with
  | scalar t _ ih =>
    intro ht hu
    have hw := flaw?_eq_none_iff.mp ht.flawless
    cases t with
    | str limits =>
      cases hw with
      | str hl =>
        rw [sample, admits_str_iff]
        refine ⟨_, rfl, ?_⟩
        rw [String.length_ofList, List.length_replicate]
        exact hl.allows_least
    | int range =>
      rw [sample, admits_int_iff]
      exact ⟨_, rfl, Range.allows_of_isUnbounded (hu _ (.refl _) range rfl) _⟩
    | num range =>
      have hr := hu _ (.refl _) range rfl
      obtain ⟨x, hx⟩ := exists_sampleNum
      rw [sample, Range.pickNum_of_isUnbounded hr, hx, admits_num_iff]
      exact ⟨_, rfl, Range.allows_of_isUnbounded hr _⟩
    | bool => exact .bool true
    | any => exact .any nofun
    | enum e =>
      cases hw with
      | enum he =>
        obtain ⟨value, rest, he⟩ := List.exists_cons_of_ne_nil he
        rw [sample, admits_enum_iff, he]
        exact ⟨value, rfl, List.mem_cons_self⟩
    | union members =>
      cases hw with
      | union hne =>
        obtain ⟨first, rest, rfl⟩ := List.exists_cons_of_ne_nil hne
        have hm : first ∈ first :: rest := List.mem_cons_self
        refine .union hm (ih first hm (isScalar_of_isPrimitive (ht.members first hm).1)
          (ht.member hm) fun u hr ↦ hu u (.member hm hr))
    | record | seq | map => simp [FieldType.isScalar] at hs
  | record | seq | map => simp [FieldType.isScalar] at hs

theorem inhabitable_of_isScalar (hs : t.isScalar) (ht : t.Built) (hr : t.Reaches counts u) :
    u.Inhabitable := by
  have hu := hr.isScalar ht hs
  cases u with
  | seq => simp [FieldType.isScalar] at hu
  | _ => trivial

theorem sample_ne_null (ht : t.Built) (hu : ∀ u, t.Reaches (fun _ ↦ True) u → u.Unbounded) :
    t.sample withOptional ≠ .null := by
  cases t with
  | record | seq | map => nofun
  | str | int | num | bool | any | enum | union => exact (admits_sample rfl ht hu).ne_null

theorem supplied_sample_iff {s : Schema} (hs : s.Built)
    (hn : ∀ f ∈ s.fields, f.type.sample withOptional ≠ .null) :
    Field.Supplied Field.Takes s.fields (s.sampleEntries withOptional) ↔
      ∀ f ∈ s.fields, (withOptional || f.required) = true →
        f.type.Takes (f.type.sample withOptional) := by
  have hmem : ∀ f ∈ s.fields, (withOptional || f.required) = true →
      (f.name, f.type.sample withOptional) ∈ s.sampleEntries withOptional := by
    intro f hf hc
    rw [Schema.sampleEntries_eq]
    exact Entries.mem_collect.mpr ⟨f, hf, rfl, if_pos hc⟩
  constructor
  · intro h f hf hc
    obtain ⟨g, hg, hname, hslot⟩ := h.values _ (hmem f hf hc)
    obtain rfl := List.inj_on_of_nodup_map hs.names hg hf hname
    exact (Field.takes_iff.mp hslot).resolve_left fun h ↦ hn g hf h.1
  · intro h
    refine ⟨?_, fun e he ↦ ?_, fun f hf hq ↦ ?_⟩
    · exact Schema.keys_sampleEntries
    · rw [Schema.sampleEntries_eq] at he
      obtain ⟨f, hf, hkey, hvalue⟩ := Entries.mem_collect.mp he
      obtain ⟨hc, hvalue⟩ := Option.ite_none_right_eq_some.mp hvalue
      have htakes := h f hf hc
      rw [Option.some.inj hvalue] at htakes
      exact ⟨f, hf, hkey, Field.takes_iff.mpr (.inr htakes)⟩
    · have hc : (withOptional || f.required) = true := by rw [hq, Bool.or_true]
      exact List.mem_map_of_mem (hmem f hf hc)

theorem takes_sample_iff : t.Built → (∀ u, t.Reaches (fun _ ↦ True) u → u.Unbounded) →
    (t.Takes (t.sample withOptional) ↔
      ∀ u, t.Reaches (fun f ↦ (withOptional || f.required) = true) u → u.Inhabitable) := by
  induction t using FieldType.induction with
  | scalar t hs =>
    intro ht hu
    rw [takes_scalar_iff hs ht]
    exact iff_of_true (admits_sample hs ht hu) fun _ ↦ inhabitable_of_isScalar hs ht
  | record s ih =>
    intro ht hu
    have hs := ht.record
    have hfield : ∀ f ∈ s.fields, ∀ u, f.type.Reaches (fun _ ↦ True) u → u.Unbounded :=
      fun f hf u hr ↦ hu u (.field hf trivial hr)
    have hn : ∀ f ∈ s.fields, f.type.sample withOptional ≠ .null :=
      fun f hf ↦ sample_ne_null (hs.field hf) (hfield f hf)
    rw [sample, takes_record_iff, Schema.accept_names_iff hs Schema.keys_sampleEntries,
      supplied_sample_iff hs hn]
    constructor
    · intro h u hr
      obtain rfl | ⟨f, hf, hc, hr⟩ := reaches_record_iff.mp hr
      · trivial
      · exact (ih f hf (hs.field hf) (hfield f hf)).mp (h f hf hc) u hr
    · intro h f hf hc
      exact (ih f hf (hs.field hf) (hfield f hf)).mpr fun u hr ↦ h u (.field hf hc hr)
  | seq items limits ih =>
    intro ht hu
    cases flaw?_eq_none_iff.mp ht.flawless with
    | seq hl =>
      have hitems := ih ht.seq fun u hr ↦ hu u (.items hr)
      rw [sample, takes_seq_iff, List.length_replicate, allows_sampled_iff hl]
      simp only [reaches_seq_iff, forall_eq_or_imp]
      rw [← hitems]
      refine and_congr_right fun _ ↦ ⟨fun h ↦ h _ ?_, fun h j hj ↦ ?_⟩
      · exact List.mem_replicate.mpr ⟨by omega, rfl⟩
      · rwa [List.eq_of_mem_replicate hj]
  | map values ih =>
    intro ht hu
    rw [sample, takes_map_iff, List.forall_mem_singleton]
    simp only [reaches_map_iff, forall_eq_or_imp, Inhabitable, true_and]
    exact ih ht.map fun u hr ↦ hu u (.values hr)

end FieldType

namespace Schema

/-- If numbers have no bounds at any depth, there is a sample record exactly if no sequence in it
has to be empty. Strings, enumerations, unions, maps and nested records never stand in the way. -/
theorem sample_succeeds_iff {s : Schema} (hs : s.Built)
    (hu : ∀ t, (FieldType.record s).Reaches (fun _ ↦ True) t → t.Unbounded) (withOptional : Bool) :
    (∃ r, s.sample withOptional = .ok r) ↔
      ∀ t, (FieldType.record s).Reaches (fun f ↦ (withOptional || f.required) = true) t →
        t.Inhabitable := by
  rw [← FieldType.takes_sample_iff (FieldType.Built.ofSchema hs) hu, FieldType.sample,
    FieldType.takes_record_iff, ← construct_ofJson]
  rfl

/-- Stickers that no one may put on: the sequence is empty if it is present. -/
def crate : Schema := ⟨4, "Crate", none,
  [.plain "number" (.int {}) true, .plain "stickers" (.seq (.str {}) { max := some 0 }) false]⟩

def pallet : Schema := ⟨5, "Pallet", none,
  [.plain "crates" (.seq (.record crate) { min := some 2 }) true,
    .plain "weight" (.union [.num {}, .enum ⟨"Guess", ["light", "heavy"]⟩]) false]⟩

theorem pallet_built : pallet.Built := by
  refine .intro rfl fun t ht ↦ ?_
  obtain rfl := List.mem_singleton.mp ht
  exact .intro rfl nofun

theorem pallet_unbounded :
    ∀ t, (FieldType.record pallet).Reaches (fun _ ↦ True) t → t.Unbounded := by
  simp +decide [FieldType.reaches_record_iff, FieldType.reaches_seq_iff,
    FieldType.reaches_union_iff, FieldType.reaches_primitive_iff, FieldType.Unbounded,
    FieldType.range?, or_imp, forall_and, pallet, crate, Field.plain]

/-- The stickers are optional, so they stand in the way only if they are asked for. -/
theorem pallet_samples : pallet.Built ∧
    (∃ r, pallet.sample false = .ok r) ∧ ¬ ∃ r, pallet.sample true = .ok r := by
  rw [sample_succeeds_iff pallet_built pallet_unbounded,
    sample_succeeds_iff pallet_built pallet_unbounded]
  refine ⟨pallet_built, ?_, fun h ↦ ?_⟩
  · simp +decide [FieldType.reaches_record_iff, FieldType.reaches_seq_iff,
      FieldType.reaches_primitive_iff, FieldType.Inhabitable, pallet, crate, Field.plain]
  · have hcrate : (FieldType.record crate).Reaches (fun f ↦ (true || f.required) = true)
        (.seq (.str {}) { max := some 0 }) :=
      .field (.tail _ (.head _)) rfl (.refl _)
    exact h _ (.field (.head _) rfl (.items hcrate)) rfl

/-- Nothing is wrong with the schema, and one record of it there is; but it has no sample. -/
theorem sealed_without_sample :
    let s : Schema := ⟨6, "R", none, [.plain "f" (.seq (.str {}) { max := some 0 }) true]⟩
    s.Built ∧ (∀ t, (FieldType.record s).Reaches (fun _ ↦ True) t → t.Unbounded) ∧
      s.construct [("f", .json (.arr []))] = .ok ⟨s, [.set (.list [])]⟩ ∧
      ∀ withOptional, s.sample withOptional =
        .error ⟨⟨[.key "f"]⟩, .outOfBounds (.tooLong .array 1 0)⟩ := by
  intro s
  refine ⟨.intro rfl nofun, ?_, rfl, fun withOptional ↦ ?_⟩
  · simp +decide [FieldType.reaches_record_iff, FieldType.reaches_seq_iff,
      FieldType.reaches_primitive_iff, FieldType.Unbounded, FieldType.range?, s, Field.plain]
  · cases withOptional <;> rfl

end Schema

end TypedRecord
