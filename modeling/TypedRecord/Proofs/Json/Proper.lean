import Mathlib.Data.List.Forall2
import TypedRecord.Json.Basic
import TypedRecord.Proofs.Entries

namespace TypedRecord.Json

/-- No object within the value repeats a key, as in a program, where objects are maps. -/
inductive Proper : Json → Prop
  | null : Proper .null
  | bool (b : Bool) : Proper (.bool b)
  | num (n : Number) : Proper (.num n)
  | str (s : String) : Proper (.str s)
  | arr {items : List Json} : (∀ j ∈ items, Proper j) → Proper (.arr items)
  | obj {entries : List (String × Json)} :
      (entries.map Prod.fst).Nodup → (∀ e ∈ entries, Proper e.2) → Proper (.obj entries)

theorem Proper.items {items : List Json} (h : Proper (.arr items)) : ∀ j ∈ items, j.Proper := by
  cases h with
  | arr h => exact h

theorem Proper.keys {entries : List (String × Json)} (h : Proper (.obj entries)) :
    (entries.map Prod.fst).Nodup := by
  cases h with
  | obj h _ => exact h

theorem Proper.entries {entries : List (String × Json)} (h : Proper (.obj entries)) :
    ∀ e ∈ entries, e.2.Proper := by
  cases h with
  | obj _ h => exact h

mutual

def isProper : Json → Bool
  | .arr items => isProperItems items
  | .obj entries => decide (entries.map Prod.fst).Nodup && isProperEntries entries
  | _ => true

def isProperItems : List Json → Bool
  | [] => true
  | j :: rest => j.isProper && isProperItems rest

def isProperEntries : List (String × Json) → Bool
  | [] => true
  | (_, j) :: rest => j.isProper && isProperEntries rest

end

theorem isProperItems_eq (items : List Json) : isProperItems items = items.all isProper := by
  induction items with
  | nil => rfl
  | cons j rest ih => rw [isProperItems, ih, List.all_cons]

theorem isProperEntries_eq (entries : List (String × Json)) :
    isProperEntries entries = entries.all fun e ↦ e.2.isProper := by
  induction entries with
  | nil => rfl
  | cons e rest ih => rw [isProperEntries, ih, List.all_cons]

theorem Proper.isProper {j : Json} (h : j.Proper) : j.isProper = true := by
  induction h with
  | null | bool | num | str => rfl
  | arr _ ih => rw [Json.isProper, isProperItems_eq, List.all_eq_true]; exact ih
  | obj hn _ ih =>
    rw [Json.isProper, isProperEntries_eq, Bool.and_eq_true, List.all_eq_true]
    exact ⟨decide_eq_true hn, ih⟩

mutual

theorem proper_of_isProper : (j : Json) → j.isProper = true → j.Proper
  | .null, _ => .null
  | .bool b, _ => .bool b
  | .num n, _ => .num n
  | .str s, _ => .str s
  | .arr items, h => .arr (properItems_of_isProper items h)
  | .obj entries, h =>
    have h := (Bool.and_eq_true _ _).mp h
    .obj (of_decide_eq_true h.1) (properEntries_of_isProper entries h.2)

theorem properItems_of_isProper :
    (items : List Json) → isProperItems items = true → ∀ j ∈ items, j.Proper
  | [], _ => List.forall_mem_nil _
  | j :: rest, h =>
    have h := (Bool.and_eq_true _ _).mp h
    List.forall_mem_cons.mpr ⟨proper_of_isProper j h.1, properItems_of_isProper rest h.2⟩

theorem properEntries_of_isProper :
    (entries : List (String × Json)) → isProperEntries entries = true → ∀ e ∈ entries, e.2.Proper
  | [], _ => List.forall_mem_nil _
  | (_, j) :: rest, h =>
    have h := (Bool.and_eq_true _ _).mp h
    List.forall_mem_cons.mpr ⟨proper_of_isProper j h.1, properEntries_of_isProper rest h.2⟩

end

instance : DecidablePred Proper :=
  fun j ↦ decidable_of_iff (j.isProper = true) ⟨proper_of_isProper j, Proper.isProper⟩

theorem equalItems_iff {xs ys : List Json} :
    equalItems xs ys = true ↔ List.Forall₂ (fun x y ↦ x.equal y = true) xs ys := by
  induction xs generalizing ys with
  | nil => cases ys <;> simp [equalItems]
  | cons x xs ih => cases ys <;> simp [equalItems, ih]

theorem equalEntries_iff {xs ys : List (String × Json)} : equalEntries xs ys = true ↔
    ∀ e ∈ xs, ∃ y, Entries.get? e.1 ys = some y ∧ e.2.equal y = true := by
  induction xs with
  | nil => simp [equalEntries]
  | cons e rest ih =>
    rw [equalEntries, Bool.and_eq_true, ih, List.forall_mem_cons]
    refine and_congr_left fun _ ↦ ?_
    cases Entries.get? e.1 ys <;> simp

theorem equal_self_of_proper {j : Json} (h : j.Proper) : j.equal j = true := by
  induction h with
  | null | bool | str => simp [equal]
  | num n => cases n <;> simp [equal, Number.equal]
  | arr _ ih =>
    rw [equal, equalItems_iff]
    exact List.forall₂_same.mpr ih
  | obj hn _ ih =>
    simp only [equal, Bool.and_eq_true, decide_true, true_and, equalEntries_iff]
    intro e he
    exact ⟨e.2, Entries.get?_of_mem hn he, ih e he⟩

end TypedRecord.Json
