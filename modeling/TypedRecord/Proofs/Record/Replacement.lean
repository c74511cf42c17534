import TypedRecord.Proofs.Record.Agreement
import TypedRecord.Proofs.Record.Change

namespace TypedRecord

namespace Intake

variable {α : Type} {record : String} {intakes : List (Intake α)} {entries : List (String × α)}
  {slots : List Slot} {i : Nat} {y : Slot}

theorem any_isExplicit_set (hi : slots[i]?.any Slot.isExplicit = true) (hy : y.isExplicit = true)
    (j : Nat) : (slots.set i y)[j]?.any Slot.isExplicit = slots[j]?.any Slot.isExplicit := by
  by_cases hij : i = j
  · subst hij
    have hlt : i < slots.length := by
      by_contra hge
      rw [List.getElem?_eq_none (Nat.le_of_not_lt hge)] at hi
      cases hi
    rw [List.getElem?_set_self hlt, Option.any_some, hy, hi]
  · rw [List.getElem?_set_ne hij]

theorem place_set (hi : slots[i]?.any Slot.isExplicit = true) (hy : y.isExplicit = true)
    (entry : String × α) : place record intakes (slots.set i y) entry =
      (place record intakes slots entry).map (·.set i y) := by
  unfold place
  cases resolve? intakes entry.1 with
  | none => rfl
  | some p =>
    obtain ⟨intake, j⟩ := p
    simp only [any_isExplicit_set hi hy]
    split
    next => rfl
    next hj =>
      -- a slot that is filled is never filled again
      have hij : i ≠ j := by
        intro he
        exact hj (he ▸ hi)
      cases Located.within (.key intake.field.name) (intake.convert entry.2) with
      | error e => rfl
      | ok slot => exact congrArg Except.ok (List.set_comm y slot hij)

theorem place_keeps_explicit {entry : String × α} {after : List Slot}
    (hi : slots[i]?.any Slot.isExplicit = true) (h : place record intakes slots entry = .ok after) :
    after[i]?.any Slot.isExplicit = true := by
  obtain ⟨intake, j, slot, -, hj, -, rfl⟩ := place_eq_ok.mp h
  have hji : j ≠ i := by
    intro he
    rw [he, hi] at hj
    cases hj
  rw [List.getElem?_set_ne hji, hi]

theorem foldlM_place_set (hi : slots[i]?.any Slot.isExplicit = true) (hy : y.isExplicit = true) :
    entries.foldlM (place record intakes) (slots.set i y) =
      (entries.foldlM (place record intakes) slots).map (·.set i y) := by
  induction entries generalizing slots with
  | nil => rfl
  | cons entry rest ih =>
    rw [List.foldlM_cons, List.foldlM_cons, place_set hi hy]
    cases h : place record intakes slots entry with
    | error e => rfl
    | ok after => exact ih (place_keeps_explicit hi h)

theorem foldlM_place_keeps_explicit {after : List Slot}
    (hi : slots[i]?.any Slot.isExplicit = true)
    (h : entries.foldlM (place record intakes) slots = .ok after) :
    after[i]?.any Slot.isExplicit = true := by
  induction entries generalizing slots with
  | nil =>
    cases h
    exact hi
  | cons entry rest ih =>
    rw [List.foldlM_cons, Located.bind_eq_ok] at h
    obtain ⟨middle, hp, h⟩ := h
    exact ih (place_keeps_explicit hi hp) h

theorem requireAll_set (hi : slots[i]?.any Slot.isExplicit = true) (hy : y.isExplicit = true) :
    requireAll record intakes (slots.set i y) = requireAll record intakes slots := by
  induction intakes generalizing slots i with
  | nil => rfl
  | cons intake rest ih =>
    cases slots with
    | nil => rfl
    | cons slot others =>
      cases i with
      | zero =>
        have hslot : slot.isExplicit = true := hi
        rw [List.set_cons_zero, requireAll, requireAll, hy, hslot]
      | succ i =>
        rw [List.set_cons_succ, requireAll, requireAll, ih (List.getElem?_cons_succ ▸ hi)]

def complete (record : String) (intakes : List (Intake α)) (entries : List (String × α))
    (slots : List Slot) : Except ValidationError (List Slot) := do
  let filled ← entries.foldlM (place record intakes) slots
  requireAll record intakes filled
  return filled

theorem complete_set (hi : slots[i]?.any Slot.isExplicit = true) (hy : y.isExplicit = true) :
    complete record intakes entries (slots.set i y) =
      (complete record intakes entries slots).map (·.set i y) := by
  rw [complete, complete, foldlM_place_set hi hy]
  cases h : entries.foldlM (place record intakes) slots with
  | error e => rfl
  | ok filled =>
    have hfilled := foldlM_place_keeps_explicit hi h
    have hrequire : requireAll record intakes (filled.set i y) = _ := requireAll_set hfilled hy
    simp only [Except.map, bind, Except.bind, hrequire]
    cases requireAll record intakes filled <;> rfl

theorem complete_cons (entry : String × α) : complete record intakes (entry :: entries) slots =
    place record intakes slots entry >>= complete record intakes entries := by
  rw [complete, List.foldlM_cons, bind_assoc]
  rfl

theorem assemble_names_append (before after : List (String × α)) :
    assemble .names record intakes (before ++ after) =
      placeAll record intakes before >>= complete record intakes after := by
  simp only [assemble, fill, placeAll, List.foldlM_append, bind_assoc]
  rfl

section

variable {key : String} {intake : Intake α} (hkey : resolve? intakes key = some (intake, i))

include hkey

theorem complete_cons_of_filled (hi : slots[i]?.any Slot.isExplicit = true) (a : α) :
    complete record intakes ((key, a) :: entries) slots =
      .error ⟨Path.root.key intake.field.name, .duplicateField intake.field.name⟩ := by
  simp only [complete_cons, place, hkey, hi, if_true]
  rfl

theorem place_of_vacant (hi : slots[i]?.any Slot.isExplicit = false) (a : α) :
    place record intakes slots (key, a) =
      (Located.within (.key intake.field.name) (intake.convert a)).map (slots.set i) := by
  simp [place, hkey, hi]

/-- What comes after an input is completed alike for all inputs that the field takes. -/
theorem complete_cons_of_vacant (hlt : i < slots.length) (hs : intake.Supplies)
    (hi : slots[i]?.any Slot.isExplicit = false) (a : α) :
    complete record intakes ((key, a) :: entries) slots =
      Located.within (.key intake.field.name) (intake.convert a) >>= fun slot ↦
        (complete record intakes entries (slots.set i .null)).map (·.set i slot) := by
  rw [complete_cons, place_of_vacant hkey hi]
  cases hc : intake.convert a with
  | error e => rfl
  | ok slot =>
    have hnull : (slots.set i .null)[i]?.any Slot.isExplicit = true := by
      rw [List.getElem?_set_self hlt]
      rfl
    have hset : complete record intakes entries ((slots.set i .null).set i slot) =
        (complete record intakes entries (slots.set i .null)).map (·.set i slot) :=
      complete_set hnull (hs a slot hc)
    rw [List.set_set] at hset
    exact hset

variable (record) in
/-- Either the other inputs fail on their own, or what they give is completed with whatever the one
input is converted to. -/
theorem assemble_names_hole (before after : List (String × α)) (hs : intake.Supplies) :
    (∃ e, ∀ a, assemble .names record intakes (before ++ (key, a) :: after) = .error e) ∨
      ∃ others : Except ValidationError (List Slot), ∀ a,
        assemble .names record intakes (before ++ (key, a) :: after) =
          Located.within (.key intake.field.name) (intake.convert a) >>= fun slot ↦
            others.map (·.set i slot) := by
  simp only [assemble_names_append]
  cases hb : placeAll record intakes before with
  | error e => exact .inl ⟨e, fun _ ↦ rfl⟩
  | ok middle =>
    have hlt : i < middle.length := by
      have hi := (List.getElem?_eq_some_iff.mp (getElem?_of_resolve? hkey)).1
      exact (placeAll_sound hb).length_eq ▸ hi
    cases hi : middle[i]?.any Slot.isExplicit with
    | true => exact .inl ⟨_, fun a ↦ complete_cons_of_filled hkey hi a⟩
    | false => exact .inr ⟨_, fun a ↦ complete_cons_of_vacant hkey hlt hs hi a⟩

end

end Intake

variable {s : Schema} {f : Field} {key : String}

theorem Field.supplies_receive (f : Field) : (⟨f, f.receive⟩ : Intake Input).Supplies := by
  intro input slot h
  cases input with
  | null => exact isExplicit_of_check (show f.check .names .null = .ok slot from h)
  | json value => exact isExplicit_of_check (show f.check .names value = .ok slot from h)
  | record r =>
    simp only [Field.receive] at h
    split at h
    next =>
      obtain ⟨v, -, rfl⟩ := Located.map_eq_ok.mp h
      rfl
    next => cases h
  | records rs =>
    simp only [Field.receive] at h
    split at h
    next =>
      obtain ⟨-, h⟩ := guardBreach_eq_ok.mp h
      obtain ⟨v, -, rfl⟩ := Located.map_eq_ok.mp h
      rfl
    next => cases h
    next => cases h

theorem Schema.exists_resolve?_name {α : Type} (hs : s.Built) (hf : f ∈ s.fields)
    (convert : Field → α → Except ValidationError Slot) :
    ∃ i, s.fields[i]? = some f ∧ Intake.resolve? (s.fields.map fun f ↦ ⟨f, convert f⟩) f.name =
      some (⟨f, convert f⟩, i) := by
  obtain ⟨i, hi⟩ := List.mem_iff_getElem?.mp hf
  refine ⟨i, hi, ?_⟩
  have hl := locate?_of_getElem? hs.names hi
  unfold locate? at hl
  rw [Intake.resolve?, List.zipIdx_map, List.find?_map]
  simp only [Function.comp_def, Prod.map]
  rw [hl]
  rfl

/-- By its name as by its alias, a caller means the field. -/
theorem Schema.exists_resolve?_field {α : Type} (hs : s.Built) (hu : s.Unshadowed)
    (hf : f ∈ s.fields) (hkey : key = f.name ∨ key = f.wireKey)
    (convert : Field → α → Except ValidationError Slot) :
    ∃ i, Intake.resolve? (s.fields.map fun f ↦ ⟨f, convert f⟩) key =
      some (⟨f, convert f⟩, i) := by
  rcases hkey with rfl | rfl
  · obtain ⟨i, -, hi⟩ := exists_resolve?_name hs hf convert
    exact ⟨i, hi⟩
  · obtain ⟨p, hp⟩ := Intake.exists_resolve?
      (List.mem_map_of_mem (f := fun f ↦ (⟨f, convert f⟩ : Intake α)) hf) rfl
    have hwireKey := wireKey_of_resolve? (hu.wireKey_eq hf) hp
    obtain ⟨g, hg, hgp⟩ := List.mem_map.mp (Intake.key_of_resolve? hp).1
    rw [← hgp] at hwireKey
    have hgf : g = f := List.inj_on_of_nodup_map hs.wireKeys hg hf hwireKey
    refine ⟨p.2, ?_⟩
    rw [hp, ← hgf, hgp]

/-- The input for one field either is not looked at, since others fail, or completes what the others
give. -/
theorem Schema.construct_hole (hs : s.Built) (hu : s.Unshadowed) (hf : f ∈ s.fields)
    (hkey : key = f.name ∨ key = f.wireKey) (before after : List (String × Input)) :
    (∃ e, ∀ input, s.construct (before ++ (key, input) :: after) = .error e) ∨
      ∃ i, ∃ others : Except ValidationError (List Slot), ∀ input,
        s.construct (before ++ (key, input) :: after) =
          Located.within (.key f.name) (f.receive input) >>= fun slot ↦
            others.map fun slots ↦ ⟨s, slots.set i slot⟩ := by
  obtain ⟨i, hi⟩ := exists_resolve?_field hs hu hf hkey Field.receive
  rcases Intake.assemble_names_hole s.name hi before after f.supplies_receive with
    ⟨e, h⟩ | ⟨others, h⟩
  · exact .inl ⟨e, fun input ↦ by rw [construct, h]; rfl⟩
  · refine .inr ⟨i, others, fun input ↦ ?_⟩
    rw [construct, h]
    cases Located.within (.key f.name) (f.receive input) with
    | error e => rfl
    | ok slot => cases others <;> rfl

theorem Schema.adopt_eq_ok {r : Record} (h : s.sameAs r.schema = true) :
    s.adopt r = .ok (.record r) :=
  if_pos h

theorem Record.exists_set_eq {r : Record} (hr : r.schema.Built) (hf : f ∈ r.schema.fields) :
    ∃ i, ∀ input, r.set f.name input = (Located.within (.key f.name) (f.receive input)).map
      fun slot ↦ { r with slots := r.slots.set i slot } := by
  obtain ⟨i, hi⟩ := List.mem_iff_getElem?.mp hf
  refine ⟨i, fun input ↦ ?_⟩
  rw [Record.set_eq, Schema.locate?_of_getElem? hr.names hi]

end TypedRecord
