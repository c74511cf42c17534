import Mathlib.Data.List.Nodup
import TypedRecord.Record.Access

namespace TypedRecord

/-- Where labels are distinct, each finds its own item. -/
theorem find?_of_nodup {α : Type} {label : α → String} {items : List α}
    (hn : (items.map label).Nodup) {a : α} (ha : a ∈ items) :
    items.find? (label · = label a) = some a := by
  obtain ⟨b, hb⟩ : ∃ b, items.find? (label · = label a) = some b :=
    Option.isSome_iff_exists.mp (List.find?_isSome.mpr ⟨a, ha, by simp⟩)
  have hl := List.find?_some hb
  rw [hb, List.inj_on_of_nodup_map hn (List.mem_of_find?_eq_some hb) ha (of_decide_eq_true hl)]

/-- Where labels are distinct, equal ones stand at the same place. -/
theorem place_eq_of_nodup {α : Type} {label : α → String} {items : List α}
    (hn : (items.map label).Nodup) {i j : Nat} {a b : α} (ha : items[i]? = some a)
    (hb : items[j]? = some b) (hl : label a = label b) : i = j := by
  have hi := (List.getElem?_eq_some_iff.mp ha).1
  refine (List.getElem?_inj (by simpa using hi) hn).mp ?_
  rw [List.getElem?_map, List.getElem?_map, ha, hb, Option.map_some, Option.map_some, hl]

namespace Schema

variable {s : Schema} {name : String} {f : Field} {i : Nat}

theorem getElem?_of_locate? (h : s.locate? name = some (f, i)) :
    s.fields[i]? = some f ∧ f.name = name := by
  have hn := List.find?_some h
  exact ⟨List.mem_zipIdx_iff_getElem?.mp (List.mem_of_find?_eq_some h), by simpa using hn⟩

theorem locate?_of_getElem? (hn : (s.fields.map Field.name).Nodup) (h : s.fields[i]? = some f) :
    s.locate? f.name = some (f, i) := by
  have hm : (f, i) ∈ s.fields.zipIdx := List.mem_zipIdx_iff_getElem?.mpr h
  obtain ⟨found, hf⟩ : ∃ found, s.locate? f.name = some found :=
    Option.isSome_iff_exists.mp (List.find?_isSome.mpr ⟨(f, i), hm, by simp⟩)
  obtain ⟨g, j⟩ := found
  obtain ⟨hg, he⟩ := getElem?_of_locate? hf
  obtain rfl := place_eq_of_nodup hn hg h he
  rw [hg] at h
  cases h
  exact hf

end Schema

namespace Record

variable {r : Record} {name : String} {f : Field} {slot : Slot}

theorem slot?_eq_bind : r.slot? name = (r.schema.locate? name).bind fun p ↦ r.slots[p.2]? := by
  unfold slot? Schema.position?
  cases r.schema.locate? name <;> rfl

/-- The slot beside a field is the one that its name finds. -/
theorem slot?_of_mem (hn : (r.schema.fields.map Field.name).Nodup) (h : (f, slot) ∈ r.fields) :
    r.slot? f.name = some slot := by
  obtain ⟨i, hi⟩ := List.mem_iff_getElem?.mp h
  obtain ⟨hf, hs⟩ := List.getElem?_zip_eq_some.mp hi
  rw [slot?_eq_bind, Schema.locate?_of_getElem? hn hf]
  exact hs

theorem mem_fields_of_slot? (h : r.slot? name = some slot) :
    ∃ f, (f, slot) ∈ r.fields ∧ f.name = name := by
  rw [slot?_eq_bind, Option.bind_eq_some_iff] at h
  obtain ⟨⟨f, i⟩, hl, hs⟩ := h
  obtain ⟨hf, hname⟩ := Schema.getElem?_of_locate? hl
  exact ⟨f, List.mem_of_getElem? (List.getElem?_zip_eq_some.mpr ⟨hf, hs⟩), hname⟩

end Record

end TypedRecord
