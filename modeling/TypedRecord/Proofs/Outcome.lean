import Mathlib.Data.List.Forall2
import TypedRecord.Record.Decode

namespace TypedRecord

variable {α β ε : Type}

namespace Located

theorem traverseFrom_eq_ok {f : α → Except (Located ε) β} {i : Nat} {items : List α}
    {outcomes : List β} : traverseFrom f i items = .ok outcomes ↔
      List.Forall₂ (fun a b ↦ f a = .ok b) items outcomes := by
  induction items generalizing i outcomes with
  | nil => simp [traverseFrom, eq_comm]
  | cons a rest ih =>
    simp only [traverseFrom, bind_eq_ok, within_eq_ok, List.forall₂_cons_left_iff]
    constructor
    · intro h
      obtain ⟨b, hb, bs, hbs, h⟩ := h
      cases h
      exact ⟨b, bs, hb, ih.mp hbs, rfl⟩
    · intro h
      rcases h with ⟨b, bs, hb, hbs, rfl⟩
      exact ⟨b, hb, bs, ih.mpr hbs, rfl⟩

theorem traverse_eq_ok {f : α → Except (Located ε) β} {items : List α} {outcomes : List β} :
    traverse f items = .ok outcomes ↔
      List.Forall₂ (fun a b ↦ f a = .ok b) items outcomes :=
  traverseFrom_eq_ok

theorem traverseEntries_eq_ok {f : α → Except (Located ε) β} {entries : List (String × α)}
    {outcomes : List (String × β)} : traverseEntries f entries = .ok outcomes ↔
      List.Forall₂ (fun a b ↦ b.1 = a.1 ∧ f a.2 = .ok b.2) entries outcomes := by
  induction entries generalizing outcomes with
  | nil => simp [traverseEntries, eq_comm]
  | cons entry rest ih =>
    simp only [traverseEntries, bind_eq_ok, within_eq_ok, List.forall₂_cons_left_iff]
    constructor
    · intro h
      obtain ⟨b, hb, bs, hbs, h⟩ := h
      cases h
      exact ⟨(entry.1, b), bs, ⟨rfl, hb⟩, ih.mp hbs, rfl⟩
    · intro h
      rcases h with ⟨⟨key, b⟩, bs, ⟨rfl, hb⟩, hbs, rfl⟩
      exact ⟨b, hb, bs, ih.mpr hbs, rfl⟩

theorem traverseFrom_congr {γ : Type} {f : α → Except (Located ε) β}
    {g : γ → Except (Located ε) β} {i : Nat} {xs : List α} {ys : List γ}
    (h : List.Forall₂ (fun x y ↦ f x = g y) xs ys) : traverseFrom f i xs = traverseFrom g i ys := by
  induction h generalizing i with
  | nil => rfl
  | cons hxy _ ih => rw [traverseFrom, traverseFrom, hxy, ih]

/-- Checks with the same outcomes one by one have the same outcome as a whole. -/
theorem traverse_congr {γ : Type} {f : α → Except (Located ε) β} {g : γ → Except (Located ε) β}
    {xs : List α} {ys : List γ} (h : List.Forall₂ (fun x y ↦ f x = g y) xs ys) :
    traverse f xs = traverse g ys :=
  traverseFrom_congr h

theorem traverseEntries_congr {γ : Type} {f : α → Except (Located ε) β}
    {g : γ → Except (Located ε) β} {xs : List (String × α)} {ys : List (String × γ)}
    (h : List.Forall₂ (fun x y ↦ x.1 = y.1 ∧ f x.2 = g y.2) xs ys) :
    traverseEntries f xs = traverseEntries g ys := by
  induction h with
  | nil => rfl
  | cons hxy _ ih => rw [traverseEntries, traverseEntries, hxy.1, hxy.2, ih]

theorem mapError_eq_ok {ε' : Type} {f : ε → ε'} {r : Except ε α} {a : α} :
    r.mapError f = .ok a ↔ r = .ok a := by
  cases r <;> simp [Except.mapError]

theorem bind_eq_error {r : Except (Located ε) α} {f : α → Except (Located ε) β} {e : Located ε} :
    (r >>= f) = .error e ↔ r = .error e ∨ ∃ a, r = .ok a ∧ f a = .error e := by
  cases r <;> simp [bind, Except.bind]

theorem map_eq_error {r : Except (Located ε) α} {f : α → β} {e : Located ε} :
    r.map f = .error e ↔ r = .error e := by
  cases r <;> simp [Except.map]

theorem mapError_eq_error {ε' : Type} {f : ε → ε'} {r : Except ε α} {e : ε'} :
    r.mapError f = .error e ↔ ∃ e', r = .error e' ∧ f e' = e := by
  cases r <;> simp [Except.mapError]

def under (step : Path.Step) (e : Located ε) : Located ε := ⟨e.path.under step, e.cause⟩

theorem within_eq_error {step : Path.Step} {r : Except (Located ε) α} {e : Located ε} :
    within step r = .error e ↔ ∃ e', r = .error e' ∧ e = e'.under step := by
  cases r <;> simp [within, under, eq_comm]

theorem exists_of_traverseFrom_eq_error {f : α → Except (Located ε) β} {i : Nat} {items : List α}
    {e : Located ε} (h : traverseFrom f i items = .error e) :
    ∃ j a e', items[j]? = some a ∧ f a = .error e' ∧ e = e'.under (.index (i + j)) := by
  induction items generalizing i with
  | nil => cases h
  | cons a rest ih =>
    obtain h | ⟨b, -, h⟩ := bind_eq_error.mp h
    · obtain ⟨e', he', rfl⟩ := within_eq_error.mp h
      exact ⟨0, a, e', rfl, he', rfl⟩
    · obtain h | ⟨bs, -, h⟩ := bind_eq_error.mp h
      · obtain ⟨j, a', e', hj, he', rfl⟩ := ih h
        refine ⟨j + 1, a', e', hj, he', ?_⟩
        rw [Nat.add_assoc, Nat.add_comm 1 j]
      · cases h

theorem exists_of_traverse_eq_error {f : α → Except (Located ε) β} {items : List α}
    {e : Located ε} (h : traverse f items = .error e) :
    ∃ i a e', items[i]? = some a ∧ f a = .error e' ∧ e = e'.under (.index i) := by
  obtain ⟨i, a, e', hi, he', he⟩ := exists_of_traverseFrom_eq_error h
  rw [Nat.zero_add] at he
  exact ⟨i, a, e', hi, he', he⟩

theorem exists_of_traverseEntries_eq_error {f : α → Except (Located ε) β}
    {entries : List (String × α)} {e : Located ε} (h : traverseEntries f entries = .error e) :
    ∃ entry ∈ entries, ∃ e', f entry.2 = .error e' ∧ e = e'.under (.key entry.1) := by
  induction entries with
  | nil => cases h
  | cons entry rest ih =>
    obtain h | ⟨b, -, h⟩ := bind_eq_error.mp h
    · obtain ⟨e', he', rfl⟩ := within_eq_error.mp h
      exact ⟨entry, List.mem_cons_self, e', he', rfl⟩
    · obtain h | ⟨bs, -, h⟩ := bind_eq_error.mp h
      · obtain ⟨entry', hm, e', he', he⟩ := ih h
        exact ⟨entry', List.mem_cons_of_mem _ hm, e', he', he⟩
      · cases h

end Located

theorem toOption_eq_some {r : Except ε α} {a : α} : r.toOption = some a ↔ r = .ok a := by
  cases r <;> simp [Except.toOption]

theorem eq_of_map_eq {f : α → β} (hf : Function.Injective f) {r r' : Except ε α}
    (h : r.map f = r'.map f) : r = r' := by
  cases r <;> cases r' <;> simp_all [Except.map, hf.eq_iff]

theorem guardBreach_eq_ok {breach : Option Breach} {next : Except ValidationError α} {a : α} :
    guardBreach breach next = .ok a ↔ breach = none ∧ next = .ok a := by
  cases breach <;> simp [guardBreach, Located.here]

theorem guardBreach_eq_error {breach : Option Breach} {next : Except ValidationError α}
    {e : ValidationError} : guardBreach breach next = .error e ↔
      (∃ b, breach = some b ∧ e = ⟨.root, .outOfBounds b⟩) ∨
        breach = none ∧ next = .error e := by
  cases breach <;> simp [guardBreach, Located.here, eq_comm]

theorem exists_of_mem_outcomes {p : α → β → Prop} {items : List α} {outcomes : List β}
    (h : List.Forall₂ p items outcomes) {b : β} (hb : b ∈ outcomes) : ∃ a ∈ items, p a b := by
  induction h with
  | nil => cases hb
  | cons hab _ ih =>
    obtain rfl | hb := List.mem_cons.mp hb
    · exact ⟨_, List.mem_cons_self, hab⟩
    · obtain ⟨a, ha, hp⟩ := ih hb
      exact ⟨a, List.mem_cons_of_mem _ ha, hp⟩

theorem map_outcomes_eq {γ : Type} {f : α → γ} {g : β → γ} {items : List α} {outcomes : List β}
    (h : List.Forall₂ (fun a b ↦ g b = f a) items outcomes) : outcomes.map g = items.map f := by
  induction h with
  | nil => rfl
  | cons hab _ ih => rw [List.map_cons, List.map_cons, hab, ih]

/-- Items of two lists that have the same outcomes, one by one. -/
theorem forall₂_outcomes_congr {γ : Type} {p : α → γ → Prop} {q : β → γ → Prop} {xs : List α}
    {ys : List β} {outcomes : List γ} (h : List.Forall₂ (fun x y ↦ ∀ c, p x c ↔ q y c) xs ys) :
    List.Forall₂ p xs outcomes ↔ List.Forall₂ q ys outcomes := by
  induction h generalizing outcomes with
  | nil => rw [List.forall₂_nil_left_iff, List.forall₂_nil_left_iff]
  | cons hxy _ ih => simp only [List.forall₂_cons_left_iff, hxy, ih]

theorem rel_getElem? {r : α → β → Prop} {xs : List α} {ys : List β}
    (h : List.Forall₂ r xs ys) (i : Nat) : Option.Rel r xs[i]? ys[i]? := by
  induction h generalizing i with
  | nil => exact .none
  | cons hxy _ ih =>
    cases i with
    | zero => exact .some hxy
    | succ i => exact ih i

theorem exists_of_rel {r : α → β → Prop} {x : Option α} {y : Option β}
    (h : Option.Rel r x y) : (∀ a, x = some a → ∃ b, y = some b ∧ r a b) ∧
      ∀ b, y = some b → ∃ a, x = some a ∧ r a b := by
  cases h with
  | none => exact ⟨nofun, nofun⟩
  | some hr =>
    exact ⟨fun _ ha ↦ ⟨_, rfl, Option.some.inj ha ▸ hr⟩,
      fun _ hb ↦ ⟨_, rfl, Option.some.inj hb ▸ hr⟩⟩

theorem exists_outcomes {p : α → β → Prop} {items : List α} (h : ∀ a ∈ items, ∃ b, p a b) :
    ∃ outcomes, List.Forall₂ p items outcomes := by
  induction items with
  | nil => exact ⟨[], .nil⟩
  | cons a rest ih =>
    obtain ⟨b, hb⟩ := h a List.mem_cons_self
    obtain ⟨bs, hbs⟩ := ih fun a ha ↦ h a (List.mem_cons_of_mem _ ha)
    exact ⟨b :: bs, .cons hb hbs⟩

theorem exists_outcomes_iff {p : α → β → Prop} {items : List α} :
    (∃ outcomes, List.Forall₂ p items outcomes) ↔ ∀ a ∈ items, ∃ b, p a b := by
  constructor
  · intro h a ha
    obtain ⟨outcomes, h⟩ := h
    obtain ⟨b, -, hb⟩ := exists_of_mem_outcomes h.flip ha
    exact ⟨b, hb⟩
  · exact exists_outcomes

/-- Two lists whose items correspond, where each outcome for an item has one for the other item. -/
theorem exists_outcomes_of_forall₂ {γ δ : Type} {related : α → β → Prop} {p : α → γ → Prop}
    {q : β → δ → Prop} {same : γ → δ → Prop} {xs : List α} {ys : List β} {outcomes : List γ}
    (hxy : List.Forall₂ related xs ys) (h : List.Forall₂ p xs outcomes)
    (hsim : ∀ x y c, related x y → p x c → ∃ d, q y d ∧ same c d) :
    ∃ outcomes', List.Forall₂ q ys outcomes' ∧ List.Forall₂ same outcomes outcomes' := by
  induction hxy generalizing outcomes with
  | nil =>
    cases h
    exact ⟨[], .nil, .nil⟩
  | cons hrel _ ih =>
    cases h with
    | cons hp hrest =>
      obtain ⟨d, hq, hd⟩ := hsim _ _ _ hrel hp
      obtain ⟨ds, hqs, hds⟩ := ih hrest
      exact ⟨d :: ds, .cons hq hqs, .cons hd hds⟩

theorem exists_outcomes_of_imp {γ δ : Type} {p : α → γ → Prop} {q : α → δ → Prop}
    {same : γ → δ → Prop} {xs : List α} {outcomes : List γ} (h : List.Forall₂ p xs outcomes)
    (hsim : ∀ x c, p x c → ∃ d, q x d ∧ same c d) :
    ∃ outcomes', List.Forall₂ q xs outcomes' ∧ List.Forall₂ same outcomes outcomes' := by
  have hself : List.Forall₂ (· = ·) xs xs := List.forall₂_same.mpr fun _ _ ↦ rfl
  refine exists_outcomes_of_forall₂ hself h fun x y c hxy hc ↦ ?_
  exact hxy ▸ hsim x c hc

/-- Where every outcome is a function of its item, under a condition on the item. -/
theorem forall₂_iff_map {p : α → β → Prop} {condition : α → Prop} {f : α → β} {items : List α}
    {outcomes : List β} (h : ∀ a ∈ items, ∀ b, p a b ↔ condition a ∧ b = f a) :
    List.Forall₂ p items outcomes ↔ (∀ a ∈ items, condition a) ∧ outcomes = items.map f := by
  induction items generalizing outcomes with
  | nil => simp
  | cons a rest ih =>
    cases outcomes with
    | nil => simp
    | cons b bs =>
      rw [List.forall₂_cons, h a List.mem_cons_self, ih fun a ha ↦ h a (List.mem_cons_of_mem _ ha),
        List.forall_mem_cons, List.map_cons, List.cons.injEq]
      exact and_and_and_comm

theorem eq_of_mem_zip_self {xs : List α} {x y : α} (h : (x, y) ∈ xs.zip xs) : x = y := by
  have hself : List.Forall₂ (· = ·) xs xs := List.forall₂_same.mpr fun _ _ ↦ rfl
  exact List.forall₂_zip hself h

theorem exists_mem_zip {xs : List α} {ys : List β} {x : α} (hl : xs.length ≤ ys.length)
    (hx : x ∈ xs) : ∃ y, (x, y) ∈ xs.zip ys := by
  rw [← List.map_fst_zip hl] at hx
  obtain ⟨⟨x, y⟩, hm, rfl⟩ := List.mem_map.mp hx
  exact ⟨y, hm⟩

theorem exists_mem_zip_between {γ : Type} {xs : List α} {ys : List β} {zs : List γ} {x : α} {z : γ}
    (hl : xs.length ≤ ys.length) (h : (x, z) ∈ xs.zip zs) :
    ∃ y, (x, y) ∈ xs.zip ys ∧ (y, z) ∈ ys.zip zs := by
  obtain ⟨i, hi⟩ := List.mem_iff_getElem?.mp h
  obtain ⟨hx, hz⟩ := List.getElem?_zip_eq_some.mp hi
  have hlt : i < ys.length := Nat.lt_of_lt_of_le (List.getElem?_eq_some_iff.mp hx).1 hl
  have hy := List.getElem?_eq_getElem hlt
  exact ⟨ys[i], List.mem_of_getElem? (List.getElem?_zip_eq_some.mpr ⟨hx, hy⟩),
    List.mem_of_getElem? (List.getElem?_zip_eq_some.mpr ⟨hy, hz⟩)⟩

end TypedRecord
