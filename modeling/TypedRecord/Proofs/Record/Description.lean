import TypedRecord.Proofs.Record.Congruence
import TypedRecord.Proofs.Schema.Keywords
import TypedRecord.Proofs.Schema.Reference

namespace TypedRecord

mutual

def FieldType.ranges : FieldType → List Range
  | .int range | .num range => [range]
  | .seq items _ => items.ranges
  | .map values => values.ranges
  | .union members => FieldType.rangesAll members
  | .str _ | .bool | .any | .enum _ | .record _ => []

def FieldType.rangesAll : List FieldType → List Range
  | [] => []
  | t :: rest => t.ranges ++ FieldType.rangesAll rest

end

def Schema.ranges (s : Schema) : List Range := s.fields.flatMap (·.type.ranges)

theorem FieldType.mem_rangesAll {members : List FieldType} {r : Range} :
    r ∈ rangesAll members ↔ ∃ t ∈ members, r ∈ t.ranges := by
  induction members with
  | nil => simp [rangesAll]
  | cons t rest ih => simp [rangesAll, ih]

/-- The keywords of a type describe its payloads, whatever comments stand beside them. -/
def FieldType.DescribedIn (document : Json) (t : FieldType) : Prop :=
  ∀ comments, (∀ e ∈ comments, Json.Keyword.ofEntry e = .comment) → ∀ value,
    Json.Validates document (.obj (t.keywords ++ comments)) value ↔ t.Conforms .ignore value

section

variable {document value : Json} {t : FieldType}

theorem FieldType.DescribedIn.validates_iff (ht : t.DescribedIn document) :
    Json.Validates document t.jsonSchema value ↔ t.Conforms .ignore value := by
  rw [← ht [] nofun value, List.append_nil]
  rfl

/-- Being of a kind, and what that entails. -/
theorem exists_and_forall_iff {α : Type} {f : α → Json} (hf : ∀ a b, f a = f b → a = b)
    {p : α → Prop} :
    ((∃ a, value = f a) ∧ ∀ a, value = f a → p a) ↔ ∃ a, value = f a ∧ p a := by
  constructor
  · intro h
    obtain ⟨⟨a, ha⟩, hp⟩ := h
    exact ⟨a, ha, hp a ha⟩
  · intro h
    obtain ⟨a, rfl, hp⟩ := h
    exact ⟨⟨a, rfl⟩, fun b hb ↦ hf a b hb ▸ hp⟩

namespace FieldType

theorem described_primitive (ht : t.isPrimitive) (hf : ∀ r ∈ t.ranges, r.isFinite = true) :
    t.DescribedIn document := by
  intro comments hc value
  rw [Json.validates_append_iff hc]
  generalize (t.keywords ++ comments).map Json.Keyword.ofEntry = keywords
  cases t with
  | str limits =>
    rw [conforms_scalar_iff rfl, admits_str_iff, FieldType.keywords, List.map_cons,
      List.forall_mem_cons, Json.meets_type_iff, Json.hasType_string_iff,
      Json.meets_stringLimits_iff]
    exact exists_and_forall_iff fun _ _ ↦ Json.str.inj
  | int range =>
    have hr : range.isFinite = true := hf range (List.mem_singleton_self range)
    rw [conforms_scalar_iff rfl, admits_int_iff, FieldType.keywords, List.map_cons,
      List.forall_mem_cons, Json.meets_type_iff, Json.hasType_integer_iff, Json.meets_range_iff hr]
    constructor
    · intro h
      obtain ⟨⟨n, hn⟩, ha⟩ := h
      exact ⟨n, hn, ha _ hn⟩
    · intro h
      obtain ⟨n, rfl, ha⟩ := h
      exact ⟨⟨n, rfl⟩, fun m hm ↦ Json.num.inj hm ▸ ha⟩
  | num range =>
    have hr : range.isFinite = true := hf range (List.mem_singleton_self range)
    rw [conforms_scalar_iff rfl, admits_num_iff, FieldType.keywords, List.map_cons,
      List.forall_mem_cons, Json.meets_type_iff, Json.hasType_number_iff, Json.meets_range_iff hr]
    exact exists_and_forall_iff fun _ _ ↦ Json.num.inj
  | bool =>
    rw [conforms_scalar_iff rfl, admits_bool_iff, FieldType.keywords, List.map_cons, List.map_nil,
      List.forall_mem_singleton, Json.meets_type_iff, Json.hasType_boolean_iff]
  | enum e =>
    have henum : Json.Meets document keywords
        (Json.Keyword.ofEntry ("enum", Json.texts e.values)) value ↔
        ∃ s ∈ e.values, value.equal (.str s) = true :=
      Json.meets_assertion_iff.trans (by simp [Json.Assertion.Holds])
    have htitle : Json.Meets document keywords
        (Json.Keyword.ofEntry ("title", .str e.name)) value := .comment
    rw [conforms_scalar_iff rfl, admits_enum_iff, FieldType.keywords]
    simp only [List.map_cons, List.map_nil, List.forall_mem_cons, List.not_mem_nil, htitle,
      Json.meets_type_iff, Json.hasType_string_iff, henum, true_and, false_implies, implies_true,
      and_true]
    constructor
    · intro h
      obtain ⟨⟨s, rfl⟩, other, hm, he⟩ := h
      simp only [Json.equal, decide_eq_true_eq] at he
      exact ⟨s, rfl, he ▸ hm⟩
    · intro h
      obtain ⟨s, rfl, hm⟩ := h
      exact ⟨⟨s, rfl⟩, s, hm, by simp [Json.equal]⟩
  | any | union | record | seq | map => simp [isPrimitive] at ht

theorem described_scalar (hs : t.isScalar) (ht : t.Built) (hf : ∀ r ∈ t.ranges, r.isFinite = true) :
    t.DescribedIn document := by
  cases t with
  | str | int | num | bool | enum => exact described_primitive rfl hf
  | any =>
    intro comments hc value
    have htypes : ∀ {keywords : List Json.Keyword}, Json.Meets document keywords
        (Json.Keyword.ofEntry
          ("type", Json.texts ["string", "number", "boolean", "array", "object"])) value ↔
        value ≠ .null := by
      intro keywords
      refine Json.meets_assertion_iff.trans ?_
      rw [Json.Assertion.Holds, Json.filterMap_string?_map]
      cases value <;> simp [Json.HasType, Json.kind, Json.Kind.name]
    rw [Json.validates_append_iff hc, conforms_scalar_iff rfl, FieldType.keywords, List.map_cons,
      List.map_nil, List.forall_mem_singleton, htypes]
    exact ⟨.any, Admits.ne_null⟩
  | union members =>
    intro comments hc value
    have hmember : ∀ t ∈ members, (Json.Validates document t.jsonSchema value ↔ t.Admits value) := by
      intro t hm
      have hp := (ht.members t hm).1
      have hd : t.DescribedIn document :=
        described_primitive hp fun r hr ↦ hf r (mem_rangesAll.mpr ⟨t, hm, hr⟩)
      rw [hd.validates_iff, conforms_scalar_iff (isScalar_of_isPrimitive hp)]
    rw [Json.validates_append_iff hc, conforms_scalar_iff rfl, admits_union_iff, FieldType.keywords,
      List.map_cons, List.map_nil, List.forall_mem_singleton, documents_eq_map]
    refine Json.meets_anyOf_iff.trans ?_
    constructor
    · intro h
      obtain ⟨schema, hm, h⟩ := h
      obtain ⟨t, ht, rfl⟩ := List.mem_map.mp hm
      exact ⟨t, ht, (hmember t ht).mp h⟩
    · intro h
      obtain ⟨t, ht, h⟩ := h
      exact ⟨t.jsonSchema, List.mem_map_of_mem ht, (hmember t ht).mpr h⟩
  | record | seq | map => simp [isScalar] at hs

theorem described_seq {items : FieldType} {limits : Limits} (hi : items.DescribedIn document) :
    (seq items limits).DescribedIn document := by
  intro comments hc value
  rw [Json.validates_append_iff hc]
  generalize ((seq items limits).keywords ++ comments).map Json.Keyword.ofEntry = keywords
  have hitems : Json.Meets document keywords
      (Json.Keyword.ofEntry ("items", .obj items.keywords)) value ↔
      ∀ elements, value = .arr elements → ∀ json ∈ elements, items.Conforms .ignore json := by
    refine Json.meets_items_iff.trans ?_
    exact forall₂_congr fun elements _ ↦ forall₂_congr fun json _ ↦ hi.validates_iff
  rw [conforms_seq_iff, FieldType.keywords, List.map_cons, List.map_cons, List.forall_mem_cons,
    List.forall_mem_cons, Json.meets_type_iff, Json.hasType_array_iff, hitems,
    Json.meets_arrayLimits_iff]
  rw [← exists_and_forall_iff fun _ _ ↦ Json.arr.inj]
  refine and_congr_right fun _ ↦ ?_
  constructor
  · intro h elements he
    exact ⟨h.2 elements he, h.1 elements he⟩
  · intro h
    exact ⟨fun elements he ↦ (h elements he).2, fun elements he ↦ (h elements he).1⟩

theorem described_map {values : FieldType} (hv : values.DescribedIn document) :
    (map values).DescribedIn document := by
  intro comments hc value
  rw [Json.validates_append_iff hc]
  have hproperties : ∀ schemas, Json.Keyword.properties schemas ∉
      ((map values).keywords ++ comments).map Json.Keyword.ofEntry := by
    intro schemas hm
    rw [List.map_append, List.mem_append] at hm
    obtain hm | hm := hm
    · simp [FieldType.keywords, Json.Keyword.ofEntry] at hm
    · obtain ⟨e, he, hk⟩ := List.mem_map.mp hm
      rw [hc e he] at hk
      cases hk
  generalize ((map values).keywords ++ comments).map Json.Keyword.ofEntry = keywords
    at hproperties ⊢
  have hvalues : Json.Meets document keywords
      (Json.Keyword.ofEntry ("additionalProperties", .obj values.keywords)) value ↔
      ∀ entries, value = .obj entries → ∀ e ∈ entries, values.Conforms .ignore e.2 := by
    refine Json.meets_additionalProperties_iff.trans ?_
    refine forall₂_congr fun entries _ ↦ forall₂_congr fun e _ ↦ ?_
    rw [← hv.validates_iff]
    exact ⟨fun h ↦ h fun schemas hs ↦ absurd hs (hproperties schemas), fun h _ ↦ h⟩
  rw [conforms_map_iff, FieldType.keywords, List.map_cons, List.map_cons, List.map_nil,
    List.forall_mem_cons, List.forall_mem_singleton, Json.meets_type_iff, Json.hasType_object_iff,
    hvalues]
  exact exists_and_forall_iff fun _ _ ↦ Json.obj.inj

end FieldType

theorem Field.validates_iff {f : Field} (ht : f.type.DescribedIn document) :
    Json.Validates document f.jsonSchema value ↔
      value = .null ∧ f.nullable = true ∨ f.type.Conforms .ignore value := by
  have hdescription : ∀ e ∈ Json.optionalEntry "description" (f.description.map .str),
      Json.Keyword.ofEntry e = .comment := by
    intro e he
    cases hd : f.description with
    | none =>
      rw [hd] at he
      cases he
    | some text =>
      rw [hd] at he
      rw [List.mem_singleton.mp he]
      rfl
  rw [Field.jsonSchema]
  cases hn : f.nullable with
  | false =>
    refine (ht _ hdescription value).trans ?_
    simp
  | true =>
    refine (Json.validates_append_iff hdescription).trans ?_
    rw [if_pos rfl, List.map_cons, List.map_nil, List.forall_mem_singleton]
    refine Json.meets_anyOf_iff.trans ?_
    have hnull : Json.Validates document (.obj [("type", .str "null")]) value ↔ value = .null := by
      rw [Json.validates_obj_iff, List.map_cons, List.map_nil, List.forall_mem_singleton,
        Json.meets_type_iff, Json.hasType_null_iff]
    simp [ht.validates_iff, hnull, or_comm]

theorem Schema.validates_iff {s : Schema} (hf : ∀ f ∈ s.fields, f.type.DescribedIn document)
    {comments : List (String × Json)}
    (hc : ∀ e ∈ comments, Json.Keyword.ofEntry e = .comment) :
    Json.Validates document (.obj (s.keywords ++ comments)) value ↔
      (FieldType.record s).Conforms .ignore value := by
  rw [Json.validates_append_iff hc, FieldType.conforms_record_iff]
  generalize (s.keywords ++ comments).map Json.Keyword.ofEntry = siblings
  have hdescription : ∀ x, s.description.map Json.str = some x →
      Json.Meets document siblings (Json.Keyword.ofEntry ("description", x)) value :=
    fun _ _ ↦ .comment
  have hproperties : Json.Meets document siblings (Json.Keyword.ofEntry
      ("properties", .obj (s.fields.map fun f ↦ (f.wireKey, f.jsonSchema)))) value ↔
      ∀ entries, value = .obj entries → ∀ f ∈ s.fields, ∀ inner,
        Entries.get? f.wireKey entries = some inner →
        inner = .null ∧ f.nullable = true ∨ f.type.Conforms .ignore inner := by
    refine Json.meets_properties_iff.trans (forall₂_congr fun entries _ ↦ ?_)
    rw [List.forall_mem_map]
    exact forall₂_congr fun f hm ↦ forall₂_congr fun inner _ ↦ Field.validates_iff (hf f hm)
  have hrequired : Json.Meets document siblings (Json.Keyword.ofEntry
      ("required", Json.texts (s.requiredFields.map (·.wireKey)))) value ↔
      ∀ entries, value = .obj entries → ∀ f ∈ s.fields, f.required = true →
        f.wireKey ∈ entries.map Prod.fst := by
    refine Json.meets_assertion_iff.trans (forall₂_congr fun entries _ ↦ ?_)
    rw [Json.filterMap_string?_map, List.forall_mem_map]
    simp only [requiredFields, List.mem_filter, and_imp]
  have htitle : Json.Meets document siblings
      (Json.Keyword.ofEntry ("title", .str s.name)) value := .comment
  simp only [Schema.keywords, List.map_append, List.map_cons, List.map_nil, List.forall_mem_append,
    List.forall_mem_cons, List.not_mem_nil, false_implies, implies_true, and_true, htitle,
    Json.forall_optionalEntry_iff, true_and, Json.meets_type_iff]
  -- a keyword with an empty list is left out, and would hold anyway
  rw [Json.forall_listed_iff fun h ↦ ?_, Json.forall_listed_iff fun h ↦ ?_, hproperties, hrequired,
    Json.hasType_object_iff]
  · constructor
    · intro h
      obtain ⟨⟨⟨-, entries, rfl⟩, hp⟩, hr⟩ := h
      refine ⟨entries, rfl, fun f hm ↦ ⟨hr entries rfl f hm, ?_, ?_⟩, fun hu ↦ by cases hu⟩
      · intro hn
        exact (hp entries rfl f hm .null hn).elim And.right fun hc ↦ absurd rfl hc.ne_null
      · intro json hj hg
        exact (hp entries rfl f hm json hg).resolve_left fun hn ↦ hj hn.1
    · intro h
      obtain ⟨entries, rfl, hf, -⟩ := h
      refine ⟨⟨⟨hdescription, entries, rfl⟩, ?_⟩, ?_⟩
      · intro entries' he f hm inner hg
        cases he
        by_cases hj : inner = .null
        · exact .inl ⟨hj, (hf f hm).null (hj ▸ hg)⟩
        · exact .inr ((hf f hm).value inner hj hg)
      · intro entries' he f hm hq
        cases he
        exact (hf f hm).required hq
  · rw [h]
    exact .assertion fun _ _ _ hm ↦ absurd hm List.not_mem_nil
  · rw [h]
    exact .properties fun _ _ _ hm ↦ absurd hm List.not_mem_nil

end

structure FieldType.Exportable (root : Schema) (t : FieldType) : Prop where
  built : t.Built
  referenced : ∀ s ∈ t.nested, s ∈ root.referenced
  finite : ∀ r ∈ t.ranges, r.isFinite = true

/-- Every name leads to a definition that does for all records of the name. -/
structure Schema.Exportable (root : Schema) : Prop where
  plain : ∀ s ∈ root.referenced, Pointer.Plain s.name
  alike : ∀ s ∈ root.referenced, ∀ t ∈ root.referenced, s.name = t.name → s.Alike t
  field : ∀ s ∈ root.reachable, ∀ f ∈ s.fields, f.type.Exportable root

/-- The definition found under a name may be another schema that is alike, and its fields are not
those of the record at hand. So the induction is about all types that are alike to one. -/
theorem FieldType.described {root : Schema} (hroot : root.Exportable) {t : FieldType} :
    ∀ u, t.Alike u → u.Exportable root → u.DescribedIn root.jsonSchema := by
  induction t using FieldType.induction with
  | scalar t hs =>
    intro u htu hu
    exact described_scalar (htu.isScalar.trans hs) hu.built hu.finite
  | record s ih =>
    intro u htu hu comments hc value
    obtain ⟨s', hs, rfl⟩ := alike_record_iff.mp htu
    have hm : s' ∈ root.referenced := hu.referenced s' (List.mem_singleton_self s')
    obtain ⟨last, hlast⟩ := Schema.exists_lastNamed? hm
    obtain ⟨hl, hn⟩ := Schema.mem_of_lastNamed? hlast
    have hsl : s'.Alike last := hroot.alike s' hm last hl hn.symm
    have hfields : ∀ g ∈ last.fields, g.type.DescribedIn root.jsonSchema := by
      intro g hg
      obtain ⟨f, hf, hfg⟩ := exists_of_mem_outcomes (hs.trans hsl).fields hg
      exact ih f hf g.type hfg.type (hroot.field last (Schema.mem_referenced.mp hl).1 g hg)
    have hlastIff : Json.Validates root.jsonSchema (.obj last.keywords) value ↔
        (record last).Conforms .ignore value := by
      rw [← List.append_nil last.keywords]
      exact Schema.validates_iff hfields nofun
    have halike : (record s').Alike (record last) := alike_record_iff.mpr ⟨last, hsl, rfl⟩
    rw [Json.validates_append_iff hc, FieldType.keywords, List.map_cons, List.map_nil,
      List.forall_mem_singleton]
    refine Json.meets_reference_iff.trans ?_
    rw [Schema.reference?_jsonSchema hm (hroot.plain s' hm), hlast]
    simp only [Option.map_some, Option.some.injEq, exists_eq_left', hlastIff]
    exact ⟨conforms_of_alike _ _ halike, conforms_of_alike _ _ halike.symm⟩
  | seq items limits ih =>
    intro u htu hu
    obtain ⟨items', hi, rfl⟩ := alike_seq_iff.mp htu
    exact described_seq (ih items' hi ⟨hu.built.seq, hu.referenced, hu.finite⟩)
  | map values ih =>
    intro u htu hu
    obtain ⟨values', hv, rfl⟩ := alike_map_iff.mp htu
    exact described_map (ih values' hv ⟨hu.built.map, hu.referenced, hu.finite⟩)

theorem Schema.Exportable.validates_iff {root : Schema} (hroot : root.Exportable)
    (hm : root ∈ root.reachable) {value : Json} :
    Json.Validates root.jsonSchema root.jsonSchema value ↔
      (FieldType.record root).Conforms .ignore value := by
  have hfields : ∀ f ∈ root.fields, f.type.DescribedIn root.jsonSchema :=
    fun f hf ↦ FieldType.described hroot f.type (.inl rfl) (hroot.field root hm f hf)
  refine Schema.validates_iff hfields ?_
  intro e he
  split at he
  · cases he
  · rw [List.mem_singleton.mp he]
    rfl

namespace World

theorem Sound.exportable {w : World} (hw : w.Sound) {root : Schema} (hroot : root ∈ w.schemas)
    (hfinite : ∀ s ∈ root.reachable, ∀ r ∈ s.ranges, r.isFinite = true)
    (hplain : ∀ s ∈ root.referenced, Pointer.Plain s.name)
    (halike : ∀ s ∈ root.referenced, ∀ t ∈ root.referenced, s.name = t.name → s.Alike t) :
    root.Exportable where
  plain := hplain
  alike := halike
  field s hs f hf := by
    have hk := hw.registered
    refine ⟨(hw.built s (hk.reachable_known hroot hs)).field hf, fun t ht ↦ ?_, fun r hr ↦ ?_⟩
    · have hn : t ∈ s.nested := Schema.mem_nested.mpr ⟨f, hf, ht⟩
      exact Schema.mem_referenced.mpr (hk.nested_reachable hroot hs hn)
    · exact hfinite s hs r (List.mem_flatMap.mpr ⟨f, hf, hr⟩)

/-- Where unknown keys are ignored, a payload decodes exactly if it validates against the exported
document. -/
theorem Reachable.decodes_iff_validates {w : World} (hw : w.Reachable) {root : Schema}
    (hroot : root ∈ w.schemas)
    (hfinite : ∀ s ∈ root.reachable, ∀ r ∈ s.ranges, r.isFinite = true)
    (hplain : ∀ s ∈ root.referenced, Pointer.Plain s.name)
    (halike : ∀ s ∈ root.referenced, ∀ t ∈ root.referenced, s.name = t.name → s.Alike t)
    (json : Json) : (∃ r, root.decodeRecord .ignore json = .ok r) ↔
      Json.Validates root.jsonSchema root.jsonSchema json := by
  have hs := hw.sound
  have hm : root ∈ root.reachable :=
    (hs.registered.mem_reachable hroot).mpr root.mem_preorder_self
  rw [(hs.exportable hroot hfinite hplain halike).validates_iff hm]
  constructor
  · intro h
    obtain ⟨r, hr⟩ := h
    obtain ⟨_, -, hc, -⟩ := (Schema.decodeRecord_eq_ok (hs.built root hroot)).mp hr
    exact hc
  · intro hc
    obtain ⟨entries, he, -⟩ := FieldType.conforms_record_iff.mp hc
    exact ⟨_, (Schema.decodeRecord_eq_ok (hs.built root hroot)).mpr ⟨entries, he, hc, rfl⟩⟩

/-- A payload that decodes, through a reference and past a key that is unknown, and one that does
not. -/
theorem condition_decodes_iff_validates :
    let accepted : Json := .obj [("field", .str "x"), ("extra", .bool true),
      ("range", .obj [("gt", .int 1), ("lt", .null)])]
    let refused : Json := .obj [("field", .str "x"), ("range", .obj [("gt", .str "1")])]
    ∃ w : World, w.Reachable ∧ Catalog.fieldCondition ∈ w.schemas ∧
      (∀ s ∈ Catalog.fieldCondition.reachable, ∀ r ∈ s.ranges, r.isFinite = true) ∧
      (∀ s ∈ Catalog.fieldCondition.referenced, Pointer.Plain s.name) ∧
      (∀ s ∈ Catalog.fieldCondition.referenced, ∀ t ∈ Catalog.fieldCondition.referenced,
        s.name = t.name → s.Alike t) ∧
      Json.Validates Catalog.fieldCondition.jsonSchema Catalog.fieldCondition.jsonSchema accepted ∧
      ¬ Json.Validates Catalog.fieldCondition.jsonSchema Catalog.fieldCondition.jsonSchema
        refused := by
  intro accepted refused
  obtain ⟨w, hw, hs, -⟩ := condition_reachable
  have hfinite : ∀ s ∈ Catalog.fieldCondition.reachable, ∀ r ∈ s.ranges, r.isFinite = true := by
    decide
  have hplain : ∀ s ∈ Catalog.fieldCondition.referenced, Pointer.Plain s.name := by decide
  have halike : ∀ s ∈ Catalog.fieldCondition.referenced, ∀ t ∈ Catalog.fieldCondition.referenced,
      s.name = t.name → s.Alike t := by
    intro s hs t ht _
    exact .inl ((List.mem_singleton.mp hs).trans (List.mem_singleton.mp ht).symm)
  have hiff := hw.decodes_iff_validates hs hfinite hplain halike
  refine ⟨w, hw, hs, hfinite, hplain, halike, (hiff accepted).mp ⟨_, rfl⟩, fun hv ↦ ?_⟩
  obtain ⟨r, hr⟩ := (hiff refused).mpr hv
  cases hr

end World

end TypedRecord
