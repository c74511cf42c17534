import TypedRecord.Proofs.Record.Assembly
import TypedRecord.Proofs.Schema.Lookup

namespace TypedRecord

theorem forall₂_set_of_ne {α β : Type} {p q : α → β → Prop} {xs : List α} {ys : List β} {i : Nat}
    {x : α} {y : β} (h : List.Forall₂ p xs ys) (hx : xs[i]? = some x) (hy : q x y)
    (hne : ∀ j a, j ≠ i → xs[j]? = some a → ∀ b, p a b → q a b) :
    List.Forall₂ q xs (ys.set i y) := by
  rw [List.forall₂_iff_get] at h ⊢
  obtain ⟨hl, hp⟩ := h
  refine ⟨by rw [List.length_set, hl], fun j h₁ h₂ ↦ ?_⟩
  simp only [List.get_eq_getElem, List.getElem_set]
  split
  next he =>
    subst he
    rw [List.getElem?_eq_getElem h₁, Option.some.injEq] at hx
    exact hx ▸ hy
  next he =>
    exact hne j _ (Ne.symm he) (List.getElem?_eq_getElem h₁) _ (hp j h₁ (hl ▸ h₁))

namespace Intake

variable {α β : Type} {record : String} {intakes : List (Intake α)} {entries : List (String × α)}
  {slots : List Slot}

def Supplies (intake : Intake α) : Prop :=
  ∀ a slot, intake.convert a = .ok slot → slot.isExplicit = true

/-- The same inputs, each under the alias of the field that its key means. -/
def Rekeyed (intakes : List (Intake α)) : List (String × α) → List (String × α) → Prop :=
  List.Forall₂ fun entry keyed ↦ keyed.2 = entry.2 ∧
    ∃ p, resolve? intakes entry.1 = some p ∧ p.1.field.wireKey = keyed.1

theorem place_eq_ok {entry : String × α} {after : List Slot} :
    place record intakes slots entry = .ok after ↔
      ∃ intake i slot, resolve? intakes entry.1 = some (intake, i) ∧
        slots[i]?.any Slot.isExplicit = false ∧ intake.convert entry.2 = .ok slot ∧
        slots.set i slot = after := by
  unfold place
  cases resolve? intakes entry.1 with
  | none => simp
  | some p =>
    obtain ⟨intake, i⟩ := p
    cases hx : slots[i]?.any Slot.isExplicit with
    | true => simp [hx]
    | false => simp [hx, Located.map_eq_ok, Located.within_eq_ok]

/-- One more input, under an alias that was not there before, fills one more slot. -/
theorem readAliases_append {keyed : List (String × α)} {intake : Intake α} {i : Nat} {a : α}
    {slot : Slot} (hk : (intakes.map (·.field.wireKey)).Nodup)
    (hr : readAliases keyed intakes = .ok slots) (hi : intakes[i]? = some intake)
    (hn : Entries.get? intake.field.wireKey keyed = none) (hc : intake.convert a = .ok slot) :
    readAliases (keyed ++ [(intake.field.wireKey, a)]) intakes = .ok (slots.set i slot) := by
  rw [readAliases_eq_ok] at hr ⊢
  refine forall₂_set_of_ne hr hi (.inr ⟨a, Entries.get?_append_cons hn a [], hc⟩) ?_
  intro j other hj ho s hs
  have hne : intake.field.wireKey ≠ other.field.wireKey :=
    fun he ↦ hj (place_eq_of_nodup hk hi ho he).symm
  have hget : Entries.get? other.field.wireKey (keyed ++ [(intake.field.wireKey, a)]) =
      Entries.get? other.field.wireKey keyed := by
    rw [Entries.get?_append, Entries.get?, if_neg hne, Entries.get?, Option.or_none]
  rwa [hget]

/-- A slot was supplied just where an input stands under the alias. -/
theorem get?_eq_none_of_not_explicit {keyed : List (String × α)} {intake : Intake α} {i : Nat}
    (hs : ∀ intake ∈ intakes, intake.Supplies) (hr : readAliases keyed intakes = .ok slots)
    (hi : intakes[i]? = some intake) :
    slots[i]?.any Slot.isExplicit = false ↔ Entries.get? intake.field.wireKey keyed = none := by
  have hread := readAliases_eq_ok.mp hr
  have hslot : ∃ slot, slots[i]? = some slot := by
    have hlt := (List.getElem?_eq_some_iff.mp hi).1
    exact ⟨_, List.getElem?_eq_getElem (hread.length_eq ▸ hlt)⟩
  obtain ⟨slot, hslot⟩ := hslot
  have hm : (intake, slot) ∈ intakes.zip slots :=
    List.mem_of_getElem? (List.getElem?_zip_eq_some.mpr ⟨hi, hslot⟩)
  rw [hslot, Option.any_some]
  obtain ⟨hn, rfl⟩ | ⟨a, ha, hc⟩ := List.forall₂_zip hread hm
  · simp [hn, Slot.isExplicit]
  · simp [ha, hs intake (List.mem_of_getElem? hi) a slot hc]

theorem exists_converted {keyed : List (String × α)} {intake : Intake α} {a : α}
    (hr : readAliases keyed intakes = .ok slots) (hm : intake ∈ intakes)
    (ha : Entries.get? intake.field.wireKey keyed = some a) :
    ∃ slot, intake.convert a = .ok slot := by
  obtain ⟨slot, -, h⟩ := exists_of_mem_outcomes (readAliases_eq_ok.mp hr).flip hm
  obtain ⟨hn, -⟩ | ⟨b, hb, hc⟩ := h
  · rw [ha] at hn
    cases hn
  · rw [ha, Option.some.injEq] at hb
    exact ⟨slot, hb ▸ hc⟩

/-- A payload that can be read can be read up to any of its entries. -/
theorem exists_read_append {keyed more : List (String × α)} {intake : Intake α} {i : Nat} {a : α}
    {after : List Slot} (hk : (intakes.map (·.field.wireKey)).Nodup)
    (hr : readAliases keyed intakes = .ok slots) (hi : intakes[i]? = some intake)
    (hn : Entries.get? intake.field.wireKey keyed = none)
    (ha : readAliases (keyed ++ (intake.field.wireKey, a) :: more) intakes = .ok after) :
    ∃ slot, intake.convert a = .ok slot ∧
      readAliases (keyed ++ [(intake.field.wireKey, a)]) intakes = .ok (slots.set i slot) := by
  obtain ⟨slot, hc⟩ :=
    exists_converted ha (List.mem_of_getElem? hi) (Entries.get?_append_cons hn a more)
  exact ⟨slot, hc, readAliases_append hk hr hi hn hc⟩

/-- Placing one input reads it, under an alias that was not there before. -/
theorem place_eq_ok_iff_read {keyed : List (String × α)} {entry : String × α} {after : List Slot}
    (hk : (intakes.map (·.field.wireKey)).Nodup) (hs : ∀ intake ∈ intakes, intake.Supplies)
    (hr : readAliases keyed intakes = .ok slots) :
    place record intakes slots entry = .ok after ↔
      ∃ p, resolve? intakes entry.1 = some p ∧ Entries.get? p.1.field.wireKey keyed = none ∧
        readAliases (keyed ++ [(p.1.field.wireKey, entry.2)]) intakes = .ok after := by
  rw [place_eq_ok]
  constructor
  · intro h
    obtain ⟨intake, i, slot, hp, hx, hc, rfl⟩ := h
    have hi := getElem?_of_resolve? hp
    have hn := (get?_eq_none_of_not_explicit hs hr hi).mp hx
    exact ⟨(intake, i), hp, hn, readAliases_append hk hr hi hn hc⟩
  · intro h
    obtain ⟨⟨intake, i⟩, hp, hn, ha⟩ := h
    have hi := getElem?_of_resolve? hp
    obtain ⟨slot, hc, hread⟩ := exists_read_append hk hr hi hn ha
    rw [hread] at ha
    cases ha
    exact ⟨intake, i, slot, hp, (get?_eq_none_of_not_explicit hs hr hi).mpr hn, hc, rfl⟩

theorem foldlM_place_eq_ok {keyed : List (String × α)} {after : List Slot}
    (hk : (intakes.map (·.field.wireKey)).Nodup) (hs : ∀ intake ∈ intakes, intake.Supplies)
    (hn : (keyed.map Prod.fst).Nodup) (hr : readAliases keyed intakes = .ok slots) :
    entries.foldlM (place record intakes) slots = .ok after ↔
      ∃ more, Rekeyed intakes entries more ∧ ((keyed ++ more).map Prod.fst).Nodup ∧
        readAliases (keyed ++ more) intakes = .ok after := by
  induction entries generalizing keyed slots with
  | nil =>
    constructor
    · intro h
      cases h
      exact ⟨[], .nil, by rwa [List.append_nil], by rwa [List.append_nil]⟩
    · intro h
      obtain ⟨more, hm, -, ha⟩ := h
      cases hm
      rw [List.append_nil, hr] at ha
      exact ha
  | cons entry rest ih =>
    rw [List.foldlM_cons, Located.bind_eq_ok]
    constructor
    · intro h
      obtain ⟨middle, hp, h⟩ := h
      obtain ⟨p, hres, hget, hm⟩ := (place_eq_ok_iff_read hk hs hr).mp hp
      have hnew : ((keyed ++ [(p.1.field.wireKey, entry.2)]).map Prod.fst).Nodup :=
        Entries.nodup_append_singleton_iff.mpr ⟨hn, hget⟩
      obtain ⟨more, hmore, hnodup, ha⟩ := (ih hnew hm).mp h
      refine ⟨(p.1.field.wireKey, entry.2) :: more, .cons ⟨rfl, p, hres, rfl⟩ hmore, ?_⟩
      rw [List.append_cons]
      exact ⟨hnodup, ha⟩
    · intro h
      obtain ⟨_, hmore, hnodup, ha⟩ := h
      cases hmore with
      | @cons _ first _ more hfirst hmore =>
        obtain ⟨key, a⟩ := first
        obtain ⟨rfl, p, hres, rfl⟩ := hfirst
        -- the keys before this input and its own are among all of them
        have hnew : ((keyed ++ [(p.1.field.wireKey, entry.2)]).map Prod.fst).Nodup := by
          rw [List.append_cons, List.map_append] at hnodup
          exact hnodup.of_append_left
        obtain ⟨-, hget⟩ := Entries.nodup_append_singleton_iff.mp hnew
        obtain ⟨slot, -, hm⟩ := exists_read_append hk hr (getElem?_of_resolve? hres) hget ha
        rw [List.append_cons] at hnodup ha
        refine ⟨_, (place_eq_ok_iff_read hk hs hr).mpr ⟨p, hres, hget, hm⟩, ?_⟩
        exact (ih hnew hm).mpr ⟨more, hmore, hnodup, ha⟩

theorem readAliases_nil : readAliases [] intakes = .ok (intakes.map fun _ ↦ .absent) := by
  rw [readAliases_eq_ok, List.forall₂_map_right_iff]
  exact List.forall₂_same.mpr fun _ _ ↦ .inl ⟨rfl, rfl⟩

/-- Inputs are assembled as the payload that has each of them under the alias of its field. -/
theorem assemble_names_eq_ok (unknown : UnknownKeys)
    (hk : (intakes.map (·.field.wireKey)).Nodup) (hs : ∀ intake ∈ intakes, intake.Supplies) :
    assemble .names record intakes entries = .ok slots ↔
      ∃ keyed, Rekeyed intakes entries keyed ∧ (keyed.map Prod.fst).Nodup ∧
        assemble (.aliases unknown) record intakes keyed = .ok slots := by
  have hnil : (([] : List (String × α)).map Prod.fst).Nodup := .nil
  have hplace : ∀ filled, placeAll record intakes entries = .ok filled ↔ _ := fun filled ↦
    foldlM_place_eq_ok hk hs hnil readAliases_nil
  have haliases : ∀ keyed, Rekeyed intakes entries keyed →
      ∀ key ∈ keyed.map Prod.fst, ∃ intake ∈ intakes, intake.field.wireKey = key := by
    intro keyed hkeyed key hkey
    obtain ⟨k, hm, rfl⟩ := List.mem_map.mp hkey
    obtain ⟨e, -, -, p, hp, he⟩ := exists_of_mem_outcomes hkeyed hm
    exact ⟨p.1, List.mem_of_getElem? (getElem?_of_resolve? hp), he⟩
  simp only [assemble_aliases_eq_ok]
  rw [assemble, Located.bind_eq_ok]
  constructor
  · intro h
    obtain ⟨filled, hf, h⟩ := h
    obtain ⟨_, hq, h⟩ := Located.bind_eq_ok.mp h
    cases h
    obtain ⟨keyed, hkeyed, hn, hr⟩ := (hplace slots).mp hf
    exact ⟨keyed, hkeyed, hn, hr, fun _ ↦ haliases keyed hkeyed, requireAll_eq_ok.mp hq⟩
  · intro h
    obtain ⟨keyed, hkeyed, hn, hr, -, hq⟩ := h
    refine ⟨slots, (hplace slots).mpr ⟨keyed, hkeyed, hn, hr⟩, ?_⟩
    rw [requireAll_eq_ok.mpr hq]
    rfl

end Intake

end TypedRecord
