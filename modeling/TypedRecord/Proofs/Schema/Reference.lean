import TypedRecord.Proofs.Pointer
import TypedRecord.Proofs.World
import TypedRecord.Schema.Export

namespace TypedRecord

namespace Pointer

/-- A text that neither a pointer nor the fragment of a reference gives a meaning of its own. -/
def Plain (text : String) : Prop := ∀ c ∈ text.toList, c ≠ '/' ∧ c ≠ '~' ∧ c ≠ '%'

instance (text : String) : Decidable (Plain text) :=
  List.decidableBAll (fun c ↦ c ≠ '/' ∧ c ≠ '~' ∧ c ≠ '%') text.toList

theorem Plain.token {text : String} (h : Plain text) : (Path.Step.key text).token = text.toList := by
  have hc : ∀ c ∈ text.toList, Path.escape c = [c] := by
    intro c hm
    obtain ⟨hs, ht, -⟩ := h c hm
    exact Path.escape_of_ne ht hs
  rw [Path.Step.token, Path.Step.name, List.flatMap_congr hc, List.flatMap_singleton']

end Pointer

namespace Schema

def referenced (s : Schema) : List Schema := s.reachable.filter (·.serial ≠ s.serial)

def lastNamed? (s : Schema) (name : String) : Option Schema :=
  s.referenced.reverse.find? (·.name = name)

variable {s t : Schema} {name : String}

theorem mem_referenced : t ∈ s.referenced ↔ t ∈ s.reachable ∧ t.serial ≠ s.serial := by
  simp [referenced]

theorem mem_of_lastNamed? (h : s.lastNamed? name = some t) : t ∈ s.referenced ∧ t.name = name := by
  refine ⟨List.mem_reverse.mp (List.mem_of_find?_eq_some h), ?_⟩
  simpa using List.find?_some h

theorem exists_lastNamed? (ht : t ∈ s.referenced) : ∃ u, s.lastNamed? t.name = some u := by
  apply Option.isSome_iff_exists.mp
  exact List.find?_isSome.mpr ⟨t, List.mem_reverse.mpr ht, decide_eq_true rfl⟩

theorem get?_definitions (s : Schema) (name : String) :
    Entries.get? name s.definitions = (s.lastNamed? name).map fun t ↦ .obj t.keywords := by
  rw [definitions, Entries.get?_ofList, ← List.map_reverse, List.find?_map, Option.map_map]
  rfl

theorem get?_defs_keywords (s : Schema) : Entries.get? "$defs" s.keywords = none := by
  have hoptional : ∀ {key : String} {value : Option Json}, key ≠ "$defs" →
      Entries.get? "$defs" (Json.optionalEntry key value) = none := by
    intro key value hk
    cases value with
    | none => rfl
    | some value => exact if_neg hk
  have hlisted : ∀ {key : String} {value : Json} {empty : Bool}, key ≠ "$defs" →
      Entries.get? "$defs" (if empty then [] else [(key, value)]) = none := by
    intro key value empty hk
    cases empty with
    | true => rfl
    | false => exact if_neg hk
  simp only [keywords, List.cons_append]
  rw [Entries.get?, if_neg (by decide), Entries.get?_append, Entries.get?_append,
    Entries.get?_append, hoptional (by decide), hlisted (by decide), hlisted (by decide)]
  rfl

/-- The path that a plain name's reference stands for. -/
theorem reference_toList (hn : Pointer.Plain t.name) : t.reference.toList =
    '#' :: (Path.mk [.key "$defs", .key t.name]).pointer.toList := by
  have hdefs : (Path.Step.key "$defs").token = "$defs".toList := Pointer.Plain.token (by decide)
  simp only [reference, String.toList_append, Path.pointer, String.toList_ofList,
    List.flatMap_cons, List.flatMap_nil, List.append_nil, hdefs, hn.token]
  rfl

theorem percent_notMem_pointer (hn : Pointer.Plain t.name) :
    '%' ∉ (Path.mk [.key "$defs", .key t.name]).pointer.toList := by
  intro h
  have hr : '%' ∈ t.reference.toList := by
    rw [reference_toList hn]
    exact List.mem_cons_of_mem _ h
  rw [reference, String.toList_append, List.mem_append] at hr
  obtain hr | hr := hr
  · exact absurd hr (by decide)
  · exact (hn _ hr).2.2 rfl

/-- What a reference with a plain name leads to. -/
theorem reference?_jsonSchema (ht : t ∈ s.referenced) (hn : Pointer.Plain t.name) :
    s.jsonSchema.reference? t.reference =
      (s.lastNamed? t.name).map fun u ↦ .obj u.keywords := by
  have hdefinitions : s.definitions.isEmpty = false := by
    rw [Bool.eq_false_iff, ne_eq, List.isEmpty_iff]
    intro he
    obtain ⟨u, hu⟩ := exists_lastNamed? ht
    have hg := s.get?_definitions t.name
    rw [he, hu] at hg
    cases hg
  have hdefs : s.jsonSchema.part? "$defs" = some (.obj s.definitions) := by
    rw [jsonSchema, Json.part?, Entries.get?_append, get?_defs_keywords, hdefinitions]
    rfl
  rw [Json.reference?, reference_toList hn]
  change (Pointer.decodePercent? [] _).bind _ = _
  rw [Pointer.decodePercent?_of_notMem (percent_notMem_pointer hn), Option.bind_some,
    String.ofList_toList, Json.pointer?_pointer, List.map_cons, List.map_cons, List.map_nil,
    Path.Step.name, Path.Step.name, List.foldlM_cons, hdefs, ← get?_definitions]
  exact bind_pure (Entries.get? t.name s.definitions)

end Schema

namespace World

/-- The reference that a field emits for a record of a plain name leads to the definition of that
very record, unless another one of the name, with other keywords, was visited after it. -/
theorem Reachable.reference_resolves_iff {w : World} (hw : w.Reachable) {root s t : Schema}
    {reference : String} (hroot : root ∈ w.schemas) (hs : s ∈ root.reachable) (ht : t ∈ s.nested)
    (hr : ("$ref", Json.str reference) ∈ (FieldType.record t).keywords)
    (hn : Pointer.Plain t.name) :
    root.jsonSchema.reference? reference = some (.obj t.keywords) ↔
      ∀ u, root.lastNamed? t.name = some u → u.keywords = t.keywords := by
  have hreached := hw.sound.registered.nested_reachable hroot hs ht
  have hm : t ∈ root.referenced := Schema.mem_referenced.mpr hreached
  obtain ⟨last, hlast⟩ := Schema.exists_lastNamed? hm
  have he : reference = t.reference := by
    rw [FieldType.keywords, List.mem_singleton, Prod.mk.injEq, Json.str.injEq] at hr
    exact hr.2
  rw [he, Schema.reference?_jsonSchema hm hn, hlast]
  simp [eq_comm]

/-- Of two records with one name the later one is found for both. -/
example :
    let first : Schema := ⟨0, "N", none, [.plain "x" .bool false]⟩
    let second : Schema := ⟨1, "N", none, []⟩
    let root : Schema :=
      ⟨2, "R", none, [.plain "f" (.record first) true, .plain "g" (.record second) true]⟩
    root.jsonSchema.reference? first.reference = some (.obj second.keywords) := rfl

theorem condition_reference_resolves : ∃ w : World, w.Reachable ∧
    Catalog.fieldCondition ∈ w.schemas ∧
    Catalog.fieldCondition ∈ Catalog.fieldCondition.reachable ∧
    Catalog.range ∈ Catalog.fieldCondition.nested ∧
    ("$ref", Json.str "#/$defs/Range") ∈ (FieldType.record Catalog.range).keywords ∧
    Pointer.Plain Catalog.range.name ∧ Catalog.fieldCondition.jsonSchema.reference? "#/$defs/Range" =
      some (.obj Catalog.range.keywords) := by
  obtain ⟨w, hw, hs, -⟩ := condition_reachable
  have hroot : Catalog.fieldCondition ∈ Catalog.fieldCondition.reachable := .head _
  have hrange : Catalog.range ∈ Catalog.fieldCondition.nested := .head _
  have hr : ("$ref", Json.str "#/$defs/Range") ∈ (FieldType.record Catalog.range).keywords :=
    .head _
  have hn : Pointer.Plain Catalog.range.name := by decide
  refine ⟨w, hw, hs, hroot, hrange, hr, hn, ?_⟩
  refine (hw.reference_resolves_iff hs hroot hrange hr hn).mpr fun u hu ↦ ?_
  have hl : Catalog.fieldCondition.lastNamed? Catalog.range.name = some Catalog.range := rfl
  rw [hl] at hu
  cases hu
  rfl

def slashed : Schema := ⟨0, "a/b", none, [.plain "x" .bool false]⟩

def aroundSlashed : Schema := ⟨1, "R", none, [.plain "f" (.record slashed) true]⟩

/-- The slash of the name divides the reference, which leads nowhere. -/
theorem slashed_reference_dangles : (∃ w : World, w.Reachable ∧ aroundSlashed ∈ w.schemas) ∧
    slashed ∈ aroundSlashed.nested ∧
    ("$ref", Json.str "#/$defs/a/b") ∈ (FieldType.record slashed).keywords ∧
    aroundSlashed.jsonSchema.reference? "#/$defs/a/b" = none := by
  have h₁ : Reachable ⟨⟨1⟩, [slashed], []⟩ :=
    (Reachable.start ⟨0⟩).step (permitted_declare (s := slashed) nofun)
  have h₂ : Reachable ⟨⟨2⟩, [aroundSlashed, slashed], []⟩ :=
    h₁.step (permitted_declare (s := aroundSlashed) fun _ ht ↦ ht)
  exact ⟨⟨_, h₂, .head _⟩, .head _, .head _, rfl⟩

end World

end TypedRecord
