import TypedRecord.Proofs.Schema.Keywords
import TypedRecord.Proofs.Schema.Reference
import TypedRecord.Proofs.Schema.Visits

namespace TypedRecord

inductive Json.Refers (text : String) : Json → Prop
  | here {entries : List (String × Json)} :
      ("$ref", .str text) ∈ entries → Json.Refers text (.obj entries)
  | entry {entries : List (String × Json)} {key : String} {value : Json} :
      (key, value) ∈ entries → Json.Refers text value → Json.Refers text (.obj entries)
  | element {items : List Json} {value : Json} :
      value ∈ items → Json.Refers text value → Json.Refers text (.arr items)

namespace Json

variable {text : String}

@[simp]
theorem not_refers_str (s : String) : ¬(Json.str s).Refers text := nofun

@[simp]
theorem not_refers_int (n : Int) : ¬(Json.int n).Refers text := nofun

@[simp]
theorem not_refers_float (x : Binary64) : ¬(Json.float x).Refers text := by
  cases x <;> exact nofun

@[simp]
theorem refers_arr {items : List Json} :
    (Json.arr items).Refers text ↔ ∃ value ∈ items, value.Refers text := by
  constructor
  · intro h
    cases h with
    | element hm h => exact ⟨_, hm, h⟩
  · exact fun ⟨_, hm, h⟩ ↦ .element hm h

theorem refers_obj {entries : List (String × Json)} : (Json.obj entries).Refers text ↔
    ∃ e ∈ entries, e = ("$ref", .str text) ∨ e.2.Refers text := by
  constructor
  · intro h
    cases h with
    | here hm => exact ⟨_, hm, .inl rfl⟩
    | entry hm h => exact ⟨_, hm, .inr h⟩
  · intro h
    obtain ⟨e, hm, rfl | h⟩ := h
    · exact .here hm
    · exact .entry hm h

@[simp]
theorem not_refers_empty : ¬(Json.obj []).Refers text := by simp [refers_obj]

@[simp]
theorem refers_cons {key : String} {value : Json} {rest : List (String × Json)} :
    (Json.obj ((key, value) :: rest)).Refers text ↔
      (key = "$ref" ∧ value = .str text) ∨ value.Refers text ∨ (Json.obj rest).Refers text := by
  simp [refers_obj, or_assoc]

@[simp]
theorem refers_append {xs ys : List (String × Json)} :
    (Json.obj (xs ++ ys)).Refers text ↔ (Json.obj xs).Refers text ∨ (Json.obj ys).Refers text := by
  simp [refers_obj, or_and_right, exists_or]

@[simp]
theorem refers_ite {p : Prop} [Decidable p] {entries : List (String × Json)} :
    (Json.obj (if p then [] else entries)).Refers text ↔ ¬p ∧ (Json.obj entries).Refers text := by
  split <;> simp [*]

@[simp]
theorem not_refers_texts (values : List String) : ¬(Json.texts values).Refers text := by
  simp [texts]

@[simp]
theorem refers_optionalEntry {key : String} {value : Option Json} :
    (Json.obj (optionalEntry key value)).Refers text ↔
      ∃ v, value = some v ∧ (key = "$ref" ∧ v = .str text ∨ v.Refers text) := by
  cases value <;> simp [optionalEntry]

end Json

section

variable {text : String}

@[simp]
theorem Range.not_refers_keywords (r : Range) : ¬(Json.obj r.keywords).Refers text := by
  simp [keywords]

theorem Limits.not_refers_keywords (l : Limits) {minKey maxKey : String} (hmin : minKey ≠ "$ref")
    (hmax : maxKey ≠ "$ref") : ¬(Json.obj (l.keywords minKey maxKey)).Refers text := by
  simp [keywords, hmin, hmax, Option.bind_eq_some_iff]

/-- The references of a type are to the schemas that it names. -/
@[simp]
theorem FieldType.refers_keywords {t : FieldType} :
    (Json.obj t.keywords).Refers text ↔ ∃ s ∈ t.nested, text = s.reference := by
  induction t using FieldType.induction with
  | scalar t hs ih =>
    cases t with
    | union members =>
      replace ih : ∀ t ∈ members, (Json.obj t.keywords).Refers text ↔ _ := ih
      simp only [keywords, Json.refers_cons, Json.refers_arr, documents_eq_map, List.mem_map,
        nested, mem_nestedAll, Json.not_refers_empty, reduceCtorEq, and_false, false_or, or_false]
      constructor
      · intro h
        obtain ⟨_, ⟨t, ht, rfl⟩, h⟩ := h
        obtain ⟨s, hs, he⟩ := (ih t ht).mp h
        exact ⟨s, ⟨t, ht, hs⟩, he⟩
      · intro h
        obtain ⟨s, ⟨t, ht, hs⟩, he⟩ := h
        exact ⟨t.jsonSchema, ⟨t, ht, rfl⟩, (ih t ht).mpr ⟨s, hs, he⟩⟩
    | record | seq | map => simp [isScalar] at hs
    | str limits => simp [keywords, nested, Limits.not_refers_keywords]
    | int | num | bool | any | enum => simp [keywords, nested]
  | record s => simp [keywords, nested, eq_comm]
  | seq items limits ih => simp [keywords, nested, Limits.not_refers_keywords, ih]
  | map values ih => simp [keywords, nested, ih]

@[simp]
theorem Field.refers_jsonSchema {f : Field} :
    f.jsonSchema.Refers text ↔ ∃ s ∈ f.type.nested, text = s.reference := by
  cases hn : f.nullable <;> simp [jsonSchema, hn, FieldType.jsonSchema]

/-- The references of a record's definition are to the declarations that its fields name. -/
theorem Schema.refers_keywords {s : Schema} :
    (Json.obj s.keywords).Refers text ↔ ∃ t ∈ s.nested, text = t.reference := by
  have hobj : ∀ f : Field, f.jsonSchema ≠ .str text := fun _ ↦ nofun
  have hproperties : (Json.obj (s.fields.map fun f ↦ (f.wireKey, f.jsonSchema))).Refers text ↔
      ∃ f ∈ s.fields, ∃ t ∈ f.type.nested, text = t.reference := by
    simp [Json.refers_obj, hobj]
  have hnested : (∃ t ∈ s.nested, text = t.reference) ↔
      ∃ f ∈ s.fields, ∃ t ∈ f.type.nested, text = t.reference := by
    simp only [mem_nested]
    constructor
    · exact fun ⟨t, ⟨f, hf, ht⟩, he⟩ ↦ ⟨f, hf, t, ht, he⟩
    · exact fun ⟨f, hf, t, ht, he⟩ ↦ ⟨t, ⟨f, hf, ht⟩, he⟩
  -- without fields there is no group of properties, and nothing is named
  have hempty : (∃ f ∈ s.fields, ∃ t ∈ f.type.nested, text = t.reference) → s.fields ≠ [] := by
    intro h
    obtain ⟨f, hf, -⟩ := h
    exact List.ne_nil_of_mem hf
  rw [hnested, ← and_iff_right_of_imp hempty, ← hproperties]
  simp [keywords]

end

namespace Schema

/-- Of the declarations of the name that a walk from the root comes to, it comes to this one last. -/
def LastVisited (root : Schema) (name : String) (t : Schema) : Prop :=
  ∃ before after, root.reachable = before ++ t :: after ∧ t.name = name ∧
    ∀ u ∈ after, u.name ≠ name

/-- The table defines each name that the root reaches beyond itself, once and in the order of the
first visits, as the declaration of that name that is visited last. -/
structure Tabulates (root : Schema) (table : List (String × Json)) : Prop where
  order : table.map Prod.fst = (root.referenced.map name).eraseDups
  nodup : (table.map Prod.fst).Nodup
  key_iff : ∀ name, name ∈ table.map Prod.fst ↔
    ∃ t, root.Reaches t ∧ t.serial ≠ root.serial ∧ t.name = name
  entry : ∀ name value, (name, value) ∈ table →
    ∃ t, root.LastVisited name t ∧ value = .obj t.keywords

variable {root t : Schema} {name : String}

theorem map_fst_definitions (s : Schema) :
    s.definitions.map Prod.fst = (s.referenced.map Schema.name).eraseDups := by
  rw [definitions, Entries.map_fst_ofList, List.map_map]
  rfl

namespace Consistent

variable (hs : root.Consistent)

include hs

theorem mem_referenced : t ∈ root.referenced ↔ root.Reaches t ∧ t.serial ≠ root.serial := by
  rw [Schema.mem_referenced, hs.mem_reachable]

theorem reachable_eq_cons : root.reachable = root :: root.referenced := by
  have hcons : ∃ rest, root.reachable = root :: rest := by
    rw [hs.reachable_eq, preorder_eq, List.foldl_cons, foldl_addNew_eq]
    exact ⟨_, rfl⟩
  obtain ⟨rest, hr⟩ := hcons
  have hn := hs.nodup_serials
  rw [hr, List.map_cons, List.nodup_cons] at hn
  have hrest : ∀ t ∈ rest, decide (t.serial ≠ root.serial) = true := fun t ht ↦
    decide_eq_true fun he ↦ hn.1 (List.mem_map.mpr ⟨t, ht, he⟩)
  rw [referenced, hr, List.filter_cons_of_neg (by simp), List.filter_eq_self.mpr hrest]

theorem lastVisited_of_lastNamed? (h : root.lastNamed? name = some t) :
    root.LastVisited name t := by
  obtain ⟨ht, after, before, he, hafter⟩ := List.find?_eq_some_iff_append.mp h
  have hr : root.referenced = before.reverse ++ t :: after.reverse := by
    rw [← List.reverse_inj, he]
    simp
  refine ⟨root :: before.reverse, after.reverse, ?_, of_decide_eq_true ht, fun u hu ↦ ?_⟩
  · rw [hs.reachable_eq_cons, hr, List.cons_append]
  · simpa using hafter u (List.mem_reverse.mp hu)

theorem tabulates_definitions : root.Tabulates root.definitions where
  order := root.map_fst_definitions
  nodup := Entries.nodup_ofList _
  key_iff name := by
    rw [map_fst_definitions, List.mem_eraseDups, List.mem_map]
    simp only [hs.mem_referenced, and_assoc]
  entry name value hm := by
    have h : Entries.get? name root.definitions = some value :=
      Entries.get?_of_mem (Entries.nodup_ofList _) hm
    rw [get?_definitions] at h
    obtain ⟨t, ht, rfl⟩ := Option.map_eq_some_iff.mp h
    exact ⟨t, hs.lastVisited_of_lastNamed? ht, rfl⟩

theorem exists_of_refers_definitions {text : String} (h : (Json.obj root.definitions).Refers text) :
    ∃ s ∈ root.reachable, ∃ t ∈ s.nested, text = t.reference := by
  obtain ⟨⟨name, value⟩, hm, h⟩ := Json.refers_obj.mp h
  obtain ⟨s, ⟨before, after, hr, -⟩, rfl⟩ := hs.tabulates_definitions.entry name value hm
  obtain he | h := h
  · cases he
  · exact ⟨s, by simp [hr], refers_keywords.mp h⟩

/-- A reference anywhere in the document, in the root or in a definition, is to a declaration that
the root reaches beyond itself. -/
theorem exists_of_refers_jsonSchema {text : String} (h : root.jsonSchema.Refers text) :
    ∃ t ∈ root.referenced, text = t.reference := by
  have hnamed : ∃ s ∈ root.reachable, ∃ t ∈ s.nested, text = t.reference := by
    rw [jsonSchema, Json.refers_append, refers_keywords, Json.refers_ite, Json.refers_cons] at h
    obtain h | ⟨-, ⟨hk, -⟩ | h | h⟩ := h
    · exact ⟨root, hs.mem_reachable.mpr .refl, h⟩
    · exact absurd hk (by decide)
    · exact hs.exists_of_refers_definitions h
    · exact absurd h Json.not_refers_empty
  obtain ⟨s, hr, t, ht, he⟩ := hnamed
  exact ⟨t, Schema.mem_referenced.mpr (hs.registered.nested_reachable .refl hr ht), he⟩

end Consistent

end Schema

/-- The definitions of an exported document are closed and minimal. -/
theorem World.Reachable.definitions_closed {w : World} (hw : w.Reachable) {root : Schema}
    (hroot : root ∈ w.schemas) : ∃ table : List (String × Json), root.Tabulates table ∧
      root.jsonSchema.part? "$defs" = (if table.isEmpty then none else some (.obj table)) ∧
      (table = [] ↔ ∀ t, root.Reaches t → t.serial = root.serial) ∧
      ∀ text, root.jsonSchema.Refers text →
        ∃ name ∈ table.map Prod.fst, text = "#/$defs/" ++ name := by
  have hs : root.Consistent := hw.sound.registered.consistent hroot
  have hkeys := hs.tabulates_definitions.key_iff
  refine ⟨root.definitions, hs.tabulates_definitions, ?_, ?_, fun text h ↦ ?_⟩
  · rw [Schema.jsonSchema, Json.part?, Entries.get?_append, Schema.get?_defs_keywords]
    split
    next => rfl
    next => rfl
  · rw [← List.map_eq_nil_iff (f := Prod.fst), List.eq_nil_iff_forall_not_mem]
    simp only [hkeys]
    constructor
    · intro h t ht
      by_contra hne
      exact h t.name ⟨t, ht, hne, rfl⟩
    · intro h name hname
      obtain ⟨t, ht, hne, -⟩ := hname
      exact hne (h t ht)
  · obtain ⟨t, ht, rfl⟩ := hs.exists_of_refers_jsonSchema h
    obtain ⟨hr, hne⟩ := hs.mem_referenced.mp ht
    exact ⟨t.name, (hkeys t.name).mpr ⟨t, hr, hne, rfl⟩, rfl⟩

namespace World

def outer : Schema := ⟨1, "N", none, [.plain "leaf" (.map (.record Schema.leaf)) true]⟩

def namesake : Schema := ⟨2, "N", none, []⟩

/-- It comes to two records of one name, to the second one after a leaf below the first. -/
def doubled : Schema := ⟨3, "Root", none,
  [{ Field.plain "first" (.record outer) true with nullable := true },
    .plain "second" (.seq (.record namesake) {}) true]⟩

theorem doubled_definitions : (∃ w : World, w.Reachable ∧ doubled ∈ w.schemas) ∧
    doubled.reachable = [doubled, outer, Schema.leaf, namesake] ∧
    doubled.definitions =
      [("N", .obj namesake.keywords), ("Leaf", .obj Schema.leaf.keywords)] ∧
    doubled.jsonSchema.Refers "#/$defs/N" ∧
    ∃ table : List (String × Json), doubled.Tabulates table ∧
      doubled.jsonSchema.part? "$defs" = (if table.isEmpty then none else some (.obj table)) ∧
      (table = [] ↔ ∀ t, doubled.Reaches t → t.serial = doubled.serial) ∧
      ∀ text, doubled.jsonSchema.Refers text →
        ∃ name ∈ table.map Prod.fst, text = "#/$defs/" ++ name := by
  have h₁ : Reachable ⟨⟨1⟩, [Schema.leaf], []⟩ :=
    (Reachable.start ⟨0⟩).step (permitted_declare (s := Schema.leaf) nofun)
  have h₂ : Reachable ⟨⟨2⟩, [outer, Schema.leaf], []⟩ :=
    h₁.step (permitted_declare (s := outer) fun _ ht ↦ ht)
  have h₃ : Reachable ⟨⟨3⟩, [namesake, outer, Schema.leaf], []⟩ :=
    h₂.step (permitted_declare (s := namesake) nofun)
  have hn : ∀ t ∈ doubled.nested, t ∈ [namesake, outer, Schema.leaf] := by
    change ∀ t ∈ [outer, namesake], _
    simp
  have h₄ : Reachable ⟨⟨4⟩, [doubled, namesake, outer, Schema.leaf], []⟩ :=
    h₃.step (permitted_declare (s := doubled) hn)
  have hroot : doubled ∈ [doubled, namesake, outer, Schema.leaf] := .head _
  have hrefers : doubled.jsonSchema.Refers "#/$defs/N" := by
    rw [Schema.jsonSchema, Json.refers_append, Schema.refers_keywords]
    exact .inl ⟨outer, .head _, rfl⟩
  exact ⟨⟨_, h₄, hroot⟩, rfl, rfl, hrefers, h₄.definitions_closed hroot⟩

end World

end TypedRecord
