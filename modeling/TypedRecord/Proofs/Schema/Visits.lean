import Mathlib.Logic.Relation
import TypedRecord.Proofs.Schema.Reach

namespace TypedRecord

/-- The type names the schema: as its own, for the elements or the values that it holds, or in a
member of a union. -/
inductive FieldType.Names : FieldType → Schema → Prop
  | record (s : Schema) : FieldType.Names (.record s) s
  | element {items : FieldType} {limits : Limits} {s : Schema} :
      FieldType.Names items s → FieldType.Names (.seq items limits) s
  | value {values : FieldType} {s : Schema} :
      FieldType.Names values s → FieldType.Names (.map values) s
  | member {members : List FieldType} {t : FieldType} {s : Schema} :
      t ∈ members → FieldType.Names t s → FieldType.Names (.union members) s

def Schema.Names (s t : Schema) : Prop := ∃ f ∈ s.fields, f.type.Names t

def Schema.Reaches : Schema → Schema → Prop := Relation.ReflTransGen Schema.Names

/-- What the schema reaches makes up a graph, in which a serial number stands for one declaration,
however often it is named. -/
def Schema.Consistent (s : Schema) : Prop :=
  ∀ t u, s.Reaches t → s.Reaches u → t.serial = u.serial → t = u

theorem FieldType.names_iff {t : FieldType} {s : Schema} : t.Names s ↔ s ∈ t.nested := by
  induction t using FieldType.induction with
  | scalar t hs ih =>
    cases t with
    | union members =>
      rw [nested, mem_nestedAll]
      constructor
      · intro h
        cases h with
        | member ht h => exact ⟨_, ht, (ih _ ht).mp h⟩
      · intro h
        obtain ⟨t, ht, h⟩ := h
        exact .member ht ((ih t ht).mpr h)
    | record | seq | map => simp [isScalar] at hs
    | str | int | num | bool | any | enum =>
      refine iff_of_false (fun h ↦ ?_) List.not_mem_nil
      cases h
  | record t =>
    rw [nested, List.mem_singleton]
    constructor
    · intro h
      cases h
      rfl
    · rintro rfl
      exact .record _
  | seq items limits ih =>
    rw [nested, ← ih]
    constructor
    · intro h
      cases h with
      | element h => exact h
    · exact .element
  | map values ih =>
    rw [nested, ← ih]
    constructor
    · intro h
      cases h with
      | value h => exact h
    · exact .value

namespace Schema

variable {s t : Schema}

theorem names_iff : s.Names t ↔ t ∈ s.nested := by
  simp only [Names, FieldType.names_iff, mem_nested]

theorem reaches_iff : s.Reaches t ↔ t ∈ s.preorder := by
  induction s using Schema.induction with
  | nested s ih =>
    rw [mem_preorder]
    constructor
    · intro h
      obtain rfl | ⟨u, hu, h⟩ := Relation.ReflTransGen.cases_head h
      · exact .inl rfl
      · exact .inr ⟨u, names_iff.mp hu, (ih u (names_iff.mp hu)).mp h⟩
    · intro h
      obtain rfl | ⟨u, hu, h⟩ := h
      · exact .refl
      · exact .head (names_iff.mpr hu) ((ih u hu).mpr h)

theorem Consistent.registered (hs : s.Consistent) : Registered s.Reaches where
  nested _ ht _ hu := ht.tail (names_iff.mpr hu)
  serial t ht u hu := hs t u ht hu

theorem Registered.consistent {known : Schema → Prop} (hk : Registered known) (hs : known s) :
    s.Consistent :=
  fun t u ht hu ↦ hk.serial t (hk.preorder hs t (reaches_iff.mp ht)) u
    (hk.preorder hs u (reaches_iff.mp hu))

/-- What is added to the declarations seen are the first occurrences of those that were not. -/
theorem foldl_addNew_eq (seen pending : List Schema) : pending.foldl addNew seen =
    seen ++ (pending.filter fun t ↦ !seen.any (·.serial = t.serial)).eraseDupsBy
      (fun t u ↦ t.serial == u.serial) := by
  induction pending generalizing seen with
  | nil => simp [List.eraseDupsBy_nil]
  | cons t rest ih =>
    rw [List.foldl_cons, ih, addNew]
    cases hany : seen.any (·.serial = t.serial) with
    | true => simp [hany]
    | false =>
      have hfilter : rest.filter (fun u ↦ !(seen ++ [t]).any (·.serial = u.serial)) =
          (rest.filter fun u ↦ !seen.any (·.serial = u.serial)).filter
            fun u ↦ (u.serial == t.serial) = false := by
        rw [List.filter_filter]
        refine List.filter_congr fun u _ ↦ ?_
        by_cases he : u.serial = t.serial
        · simp [he]
        · simp [he, Ne.symm he]
      rw [if_neg (by simp), List.filter_cons_of_pos (by rw [hany]; rfl), List.eraseDupsBy_cons,
        hfilter, List.append_assoc, List.singleton_append]

theorem nodup_foldl_addNew {seen : List Schema} (h : (seen.map serial).Nodup)
    (pending : List Schema) : ((pending.foldl addNew seen).map serial).Nodup := by
  induction pending generalizing seen with
  | nil => exact h
  | cons t rest ih =>
    refine ih ?_
    unfold addNew
    split
    next => exact h
    next hany =>
      rw [List.map_append, List.map_singleton, ← List.concat_eq_append]
      refine h.concat fun hm ↦ hany ?_
      obtain ⟨u, hu, he⟩ := List.mem_map.mp hm
      exact List.any_eq_true.mpr ⟨u, hu, decide_eq_true he⟩

namespace Consistent

variable (hs : s.Consistent)

include hs

theorem reachable_eq : s.reachable = s.preorder.foldl addNew [] :=
  hs.registered.reachable_eq .refl

theorem mem_reachable : t ∈ s.reachable ↔ s.Reaches t := by
  rw [hs.registered.mem_reachable .refl, reaches_iff]

theorem nodup_serials : (s.reachable.map serial).Nodup := by
  have hnil : (([] : List Schema).map serial).Nodup := List.nodup_nil
  rw [hs.reachable_eq]
  exact nodup_foldl_addNew hnil s.preorder

/-- The walk comes to the declarations that the root reaches, to each of them once, and in the order
of their first occurrences in the plain walk. -/
theorem walk_first_occurrences :
    (∀ t, t ∈ s.reachable ↔ s.Reaches t) ∧ (s.reachable.map serial).Nodup ∧
      s.reachable = s.preorder.eraseDupsBy fun t u ↦ t.serial == u.serial := by
  refine ⟨fun t ↦ hs.mem_reachable, hs.nodup_serials, ?_⟩
  rw [hs.reachable_eq, foldl_addNew_eq]
  simp

end Consistent

def leaf : Schema := ⟨0, "Leaf", none, [.plain "x" .bool false]⟩

def branch : Schema := ⟨1, "Branch", none,
  [.plain "first" (.record leaf) true, .plain "others" (.map (.record leaf)) false]⟩

def tree : Schema := ⟨2, "Tree", none,
  [.plain "leaves" (.seq (.record leaf) {}) true,
    .plain "below" (.union [.record branch, .record leaf]) true]⟩

theorem tree_first_occurrences : tree.Consistent ∧
    tree.preorder = [tree, leaf, branch, leaf, leaf, leaf] ∧ tree.reachable = [tree, leaf, branch] ∧
    (∀ t, t ∈ tree.reachable ↔ tree.Reaches t) ∧ (tree.reachable.map serial).Nodup ∧
    tree.reachable = tree.preorder.eraseDupsBy fun t u ↦ t.serial == u.serial := by
  have hpreorder : tree.preorder = [tree, leaf, branch, leaf, leaf, leaf] := rfl
  have hs : tree.Consistent := by
    intro t u ht hu he
    rw [reaches_iff, hpreorder] at ht hu
    simp only [List.mem_cons, List.not_mem_nil, or_false] at ht hu
    rcases ht with rfl | rfl | rfl | rfl | rfl | rfl <;>
      rcases hu with rfl | rfl | rfl | rfl | rfl | rfl <;> first | rfl | cases he
  exact ⟨hs, hpreorder, rfl, hs.walk_first_occurrences⟩

end Schema

end TypedRecord
