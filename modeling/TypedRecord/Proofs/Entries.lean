import Mathlib.Data.List.Forall2
import Mathlib.Data.List.Induction
import Mathlib.Data.List.Nodup
import Mathlib.Data.List.Perm.Basic
import TypedRecord.Entries

namespace TypedRecord.Entries

variable {α β : Type}

theorem get?_eq_none_iff {key : String} {entries : List (String × α)} :
    get? key entries = none ↔ key ∉ entries.map Prod.fst := by
  rw [← get?_isSome_iff, Bool.not_eq_true, Option.isSome_eq_false_iff, Option.isNone_iff_eq_none]

theorem mem_of_get?_eq_some {key : String} {value : α} {entries : List (String × α)}
    (h : get? key entries = some value) : (key, value) ∈ entries := by
  induction entries with
  | nil => simp [get?] at h
  | cons entry rest ih =>
    obtain ⟨k, v⟩ := entry
    by_cases hk : k = key
    · subst hk
      simp only [get?, if_true, Option.some.injEq] at h
      simp [h]
    · rw [get?, if_neg hk] at h
      exact List.mem_cons_of_mem _ (ih h)

theorem get?_of_mem {key : String} {value : α} {entries : List (String × α)}
    (hn : (entries.map Prod.fst).Nodup) (h : (key, value) ∈ entries) :
    get? key entries = some value := by
  induction entries with
  | nil => simp at h
  | cons entry rest ih =>
    obtain ⟨k, v⟩ := entry
    obtain ⟨hk, hn⟩ := List.nodup_cons.mp hn
    obtain he | hr := List.mem_cons.mp h
    · cases he
      simp [get?]
    · have hne : k ≠ key := fun he ↦ hk (List.mem_map.mpr ⟨_, hr, he.symm⟩)
      rw [get?, if_neg hne, ih hn hr]

theorem get?_eq_some_iff {key : String} {value : α} {entries : List (String × α)}
    (hn : (entries.map Prod.fst).Nodup) :
    get? key entries = some value ↔ (key, value) ∈ entries :=
  ⟨mem_of_get?_eq_some, get?_of_mem hn⟩

/-- Where keys are distinct, their order does not matter. -/
theorem get?_perm {xs ys : List (String × α)} (hn : (xs.map Prod.fst).Nodup) (hp : xs.Perm ys)
    (key : String) : get? key xs = get? key ys := by
  have hn' : (ys.map Prod.fst).Nodup := (hp.map Prod.fst).nodup_iff.mp hn
  ext value
  rw [get?_eq_some_iff hn, get?_eq_some_iff hn', hp.mem_iff]

theorem mem_put {key : String} {value : α} {entries : List (String × α)} {entry : String × α}
    (h : entry ∈ put key value entries) : entry = (key, value) ∨ entry ∈ entries := by
  induction entries with
  | nil => exact .inl (List.mem_singleton.mp h)
  | cons first rest ih =>
    obtain ⟨k, v⟩ := first
    rw [put] at h
    split at h
    next =>
      obtain he | hr := List.mem_cons.mp h
      · exact .inl he
      · exact .inr (List.mem_cons_of_mem _ hr)
    next =>
      obtain he | hr := List.mem_cons.mp h
      · exact .inr (he ▸ List.mem_cons_self)
      · exact (ih hr).imp_right (List.mem_cons_of_mem _)

theorem get?_append (key : String) (xs ys : List (String × α)) :
    get? key (xs ++ ys) = (get? key xs).or (get? key ys) := by
  induction xs with
  | nil => rfl
  | cons entry rest ih =>
    obtain ⟨k, v⟩ := entry
    rw [List.cons_append, get?, get?]
    split
    · rfl
    · exact ih

theorem get?_append_cons {key : String} {entries : List (String × α)}
    (h : get? key entries = none) (value : α) (rest : List (String × α)) :
    get? key (entries ++ (key, value) :: rest) = some value := by
  rw [get?_append, h, get?, if_pos rfl]
  rfl

theorem get?_append_cons_of_ne {key k : String} (h : key ≠ k) (value : α)
    (before after : List (String × α)) :
    get? key (before ++ (k, value) :: after) = get? key (before ++ after) := by
  rw [get?_append, get?_append, get?, if_neg h.symm]

theorem get?_map (f : α → β) (key : String) (entries : List (String × α)) :
    get? key (entries.map fun e ↦ (e.1, f e.2)) = (get? key entries).map f := by
  induction entries with
  | nil => rfl
  | cons entry rest ih =>
    obtain ⟨k, v⟩ := entry
    rw [List.map_cons, get?, get?, ih]
    split <;> rfl

theorem rel_get? {r : α → β → Prop} {xs : List (String × α)}
    {ys : List (String × β)} (h : List.Forall₂ (fun x y ↦ y.1 = x.1 ∧ r x.2 y.2) xs ys)
    (key : String) : Option.Rel r (get? key xs) (get? key ys) := by
  induction h with
  | nil => exact .none
  | @cons x y _ _ hxy _ ih =>
    rw [get?, get?, hxy.1]
    split
    · exact .some hxy.2
    · exact ih

theorem nodup_append_singleton_iff {key : String} {value : α} {entries : List (String × α)} :
    ((entries ++ [(key, value)]).map Prod.fst).Nodup ↔
      (entries.map Prod.fst).Nodup ∧ get? key entries = none := by
  rw [get?_eq_none_iff, List.map_append, List.map_singleton, ← List.concat_eq_append,
    List.nodup_concat]
  exact and_comm

theorem ofList_append_singleton (pairs : List (String × α)) (pair : String × α) :
    ofList (pairs ++ [pair]) = put pair.1 pair.2 (ofList pairs) := by
  rw [ofList, List.foldl_append]
  rfl

/-- Of the pairs with one key the last counts. -/
theorem get?_ofList (key : String) (pairs : List (String × α)) :
    get? key (ofList pairs) = (pairs.reverse.find? (·.1 = key)).map Prod.snd := by
  induction pairs using List.reverseRecOn with
  | nil => rfl
  | append_singleton rest pair ih =>
    rw [ofList_append_singleton, get?_put, List.reverse_append, List.reverse_singleton,
      List.singleton_append, List.find?_cons, ih]
    by_cases hk : pair.1 = key
    · simp [hk]
    · simp [hk]

theorem nodup_put {key : String} {value : α} {entries : List (String × α)}
    (h : (entries.map Prod.fst).Nodup) : ((put key value entries).map Prod.fst).Nodup := by
  rw [map_fst_put]
  split
  next => exact h
  next hk =>
    rw [← List.concat_eq_append]
    exact h.concat hk

/-- The keys stand in the order in which they first came. -/
theorem map_fst_ofList (pairs : List (String × α)) :
    (ofList pairs).map Prod.fst = (pairs.map Prod.fst).eraseDups := by
  induction pairs using List.reverseRecOn with
  | nil => rfl
  | append_singleton rest pair ih =>
    rw [ofList_append_singleton, map_fst_put, ih, List.map_append, List.eraseDups_append]
    by_cases hk : pair.1 ∈ rest.map Prod.fst
    · rw [if_pos (List.mem_eraseDups.mpr hk)]
      simp [List.removeAll, hk]
    · rw [if_neg (mt List.mem_eraseDups.mp hk)]
      simp [List.removeAll, hk, List.eraseDups_cons]

theorem nodup_ofList (pairs : List (String × α)) : ((ofList pairs).map Prod.fst).Nodup := by
  induction pairs using List.reverseRecOn with
  | nil => exact List.nodup_nil
  | append_singleton rest pair ih =>
    rw [ofList_append_singleton]
    exact nodup_put ih

/-- The values of those items that have one, each under the key of its item. -/
def collect (key : β → String) (value? : β → Option α) (items : List β) : List (String × α) :=
  items.filterMap fun b ↦ (value? b).map fun a ↦ (key b, a)

variable {key : β → String} {value? : β → Option α} {items : List β}

theorem collect_cons (b : β) : collect key value? (b :: items) =
    ((value? b).map (key b, ·)).toList ++ collect key value? items := by
  rw [collect, List.filterMap_cons]
  cases value? b <;> rfl

theorem mem_collect {entry : String × α} :
    entry ∈ collect key value? items ↔ ∃ b ∈ items, key b = entry.1 ∧ value? b = some entry.2 := by
  obtain ⟨k, a⟩ := entry
  simp only [collect, List.mem_filterMap, Option.map_eq_some_iff, Prod.mk.injEq]
  constructor
  · intro h
    rcases h with ⟨b, hb, a, ha, rfl, rfl⟩
    exact ⟨b, hb, rfl, ha⟩
  · intro h
    rcases h with ⟨b, hb, rfl, ha⟩
    exact ⟨b, hb, a, ha, rfl, rfl⟩

theorem map_fst_collect : (collect key value? items).map Prod.fst =
    (items.filter fun b ↦ (value? b).isSome).map key := by
  induction items with
  | nil => rfl
  | cons b rest ih =>
    unfold collect at ih ⊢
    cases h : value? b with
    | none => simp [h, ih]
    | some a => simp [h, ih]

theorem exists_of_mem_collect_keys {k : String}
    (hk : k ∈ (collect key value? items).map Prod.fst) : ∃ b ∈ items, key b = k := by
  rw [map_fst_collect] at hk
  obtain ⟨b, hb, he⟩ := List.mem_map.mp hk
  exact ⟨b, List.mem_of_mem_filter hb, he⟩

theorem nodup_collect (hn : (items.map key).Nodup) :
    ((collect key value? items).map Prod.fst).Nodup := by
  rw [map_fst_collect]
  exact hn.sublist (List.Sublist.map key List.filter_sublist)

theorem get?_collect (hn : (items.map key).Nodup) {b : β} (hb : b ∈ items) :
    get? (key b) (collect key value? items) = value? b := by
  cases h : value? b with
  | some a => exact get?_of_mem (nodup_collect hn) (mem_collect.mpr ⟨b, hb, rfl, h⟩)
  | none =>
    rw [get?_eq_none_iff, List.mem_map]
    intro h
    rcases h with ⟨⟨k, a⟩, hm, rfl⟩
    obtain ⟨c, hc, hk, ha⟩ := mem_collect.mp hm
    rw [List.inj_on_of_nodup_map hn hc hb hk, h] at ha
    cases ha

end TypedRecord.Entries
