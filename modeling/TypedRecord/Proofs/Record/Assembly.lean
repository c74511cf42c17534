import TypedRecord.Proofs.Entries
import TypedRecord.Proofs.Outcome
import TypedRecord.Record.Decode

namespace TypedRecord

theorem forall₂_set {α β : Type} {p : α → β → Prop} {xs : List α} {ys : List β} {i : Nat} {x : α}
    {y : β} (h : List.Forall₂ p xs ys) (hx : xs[i]? = some x) (hy : p x y) :
    List.Forall₂ p xs (ys.set i y) := by
  induction h generalizing i with
  | nil => exact .nil
  | cons hab hrest ih =>
    cases i with
    | zero =>
      cases hx
      exact .cons hy hrest
    | succ i => exact .cons hab (ih hx)

theorem forall₂_set_set {α β : Type} {p : α → β → Prop} {xs : List α} {ys : List β} {i : Nat}
    {x : α} {y : β} (h : List.Forall₂ p xs ys) (hxy : p x y) :
    List.Forall₂ p (xs.set i x) (ys.set i y) := by
  induction h generalizing i with
  | nil => exact .nil
  | cons hab hrest ih =>
    cases i with
    | zero => exact .cons hxy hrest
    | succ i => exact .cons hab ih

theorem refuseNull_of_ne_null {accept : Json → Except ValidationError Value} {json : Json}
    (h : json ≠ .null) : refuseNull accept json = accept json := by
  cases json <;> first | rfl | exact absurd rfl h

theorem slotOf_of_ne_null {nullable : Bool} {accept : Json → Except ValidationError Value}
    {json : Json} (h : json ≠ .null) : slotOf nullable accept json = (accept json).map .set := by
  cases json <;> first | rfl | exact absurd rfl h

theorem refuseNull_eq_ok {accept : Json → Except ValidationError Value} {json : Json}
    {v : Value} : refuseNull accept json = .ok v ↔ json ≠ .null ∧ accept json = .ok v := by
  cases json <;> simp [refuseNull, Located.here]

theorem slotOf_eq_ok {nullable : Bool} {accept : Json → Except ValidationError Value} {json : Json}
    {slot : Slot} : slotOf nullable accept json = .ok slot ↔
      json = .null ∧ nullable = true ∧ slot = .null ∨
        json ≠ .null ∧ ∃ v, accept json = .ok v ∧ slot = .set v := by
  cases json with
  | null => cases nullable <;> simp [slotOf, Located.here, eq_comm]
  | _ => simp [slotOf, Located.map_eq_ok, @eq_comm _ slot]

theorem refuseNull_eq_error {accept : Json → Except ValidationError Value} {json : Json}
    {e : ValidationError} : refuseNull accept json = .error e ↔
      json = .null ∧ e = ⟨.root, .notNullable⟩ ∨ json ≠ .null ∧ accept json = .error e := by
  cases json <;> simp [refuseNull, Located.here, eq_comm]

theorem slotOf_eq_error {nullable : Bool} {accept : Json → Except ValidationError Value}
    {json : Json} {e : ValidationError} : slotOf nullable accept json = .error e ↔
      json = .null ∧ nullable = false ∧ e = ⟨.root, .notNullable⟩ ∨
        json ≠ .null ∧ accept json = .error e := by
  cases json with
  | null => cases nullable <;> simp [slotOf, Located.here, eq_comm]
  | _ => simp [slotOf, Located.map_eq_error]

namespace Intake

variable {α : Type} {record : String} {intakes : List (Intake α)} {entries : List (String × α)}
  {slots : List Slot}

theorem readAliases_eq_ok : readAliases entries intakes = .ok slots ↔
    List.Forall₂ (fun intake slot ↦
      Entries.get? intake.field.wireKey entries = none ∧ slot = .absent ∨
        ∃ a, Entries.get? intake.field.wireKey entries = some a ∧ intake.convert a = .ok slot)
      intakes slots := by
  induction intakes generalizing slots with
  | nil => simp [readAliases, eq_comm]
  | cons intake rest ih =>
    rw [readAliases, List.forall₂_cons_left_iff]
    cases hg : Entries.get? intake.field.wireKey entries with
    | none =>
      simp only [Located.bind_eq_ok, ih, true_and]
      constructor
      · intro h
        obtain ⟨slot, hs, others, ho, h⟩ := h
        cases hs
        cases h
        exact ⟨.absent, others, .inl rfl, ho, rfl⟩
      · intro h
        rcases h with ⟨slot, others, rfl | ⟨a, ha, -⟩, ho, rfl⟩
        · exact ⟨.absent, rfl, others, ho, rfl⟩
        · cases ha
    | some input =>
      simp only [Located.bind_eq_ok, Located.within_eq_ok, ih]
      constructor
      · intro h
        obtain ⟨slot, hs, others, ho, h⟩ := h
        cases h
        exact ⟨slot, others, .inr ⟨input, rfl, hs⟩, ho, rfl⟩
      · intro h
        rcases h with ⟨slot, others, ⟨hn, -⟩ | ⟨a, ha, hs⟩, ho, rfl⟩
        · cases hn
        · cases ha
          exact ⟨slot, hs, others, ho, rfl⟩

theorem refuseUnknown_eq_ok : refuseUnknown record intakes entries = .ok () ↔
    ∀ key ∈ entries.map Prod.fst, ∃ intake ∈ intakes, intake.field.wireKey = key := by
  unfold refuseUnknown
  split
  next key _ hf =>
    simp only [reduceCtorEq, false_iff, not_forall]
    have hk := List.find?_some hf
    simp only [Bool.not_eq_true', List.any_eq_false, decide_eq_true_eq] at hk
    refine ⟨key, List.mem_map_of_mem (List.mem_of_find?_eq_some hf), ?_⟩
    intro h
    obtain ⟨intake, hi, he⟩ := h
    exact hk intake hi he
  next hf =>
    simp only [true_iff, List.forall_mem_map]
    intro e he
    have hk := List.find?_eq_none.mp hf e he
    simpa only [Bool.not_eq_true', Bool.not_eq_false, List.any_eq_true,
      decide_eq_true_eq] using hk

theorem requireAll_eq_ok : requireAll record intakes slots = .ok () ↔
    ∀ p ∈ intakes.zip slots, p.1.field.required = true → p.2.isExplicit = true := by
  induction intakes generalizing slots with
  | nil => simp [requireAll]
  | cons intake rest ih =>
    cases slots with
    | nil => simp [requireAll]
    | cons slot others =>
      rw [requireAll, List.zip_cons_cons, List.forall_mem_cons, ← ih]
      cases intake.field.required <;> cases slot.isExplicit <;> simp

theorem assemble_aliases_eq_ok {unknown : UnknownKeys} :
    assemble (.aliases unknown) record intakes entries = .ok slots ↔
      readAliases entries intakes = .ok slots ∧
      (unknown = .reject →
        ∀ key ∈ entries.map Prod.fst, ∃ intake ∈ intakes, intake.field.wireKey = key) ∧
      ∀ p ∈ intakes.zip slots, p.1.field.required = true → p.2.isExplicit = true := by
  have hfill : ∀ filled, fill (.aliases unknown) record intakes entries = .ok filled ↔
      readAliases entries intakes = .ok filled ∧ (unknown = .reject →
        ∀ key ∈ entries.map Prod.fst, ∃ intake ∈ intakes, intake.field.wireKey = key) := by
    intro filled
    cases unknown with
    | ignore => simp [fill]
    | reject =>
      simp only [fill, Located.bind_eq_ok, forall_const]
      constructor
      · intro h
        obtain ⟨read, hr, _, hu, h⟩ := h
        cases h
        exact ⟨hr, refuseUnknown_eq_ok.mp hu⟩
      · intro h
        obtain ⟨hr, hu⟩ := h
        exact ⟨filled, hr, (), refuseUnknown_eq_ok.mpr hu, rfl⟩
  simp only [assemble, Located.bind_eq_ok, hfill]
  constructor
  · intro h
    obtain ⟨filled, ⟨hr, hu⟩, _, ha, h⟩ := h
    cases h
    exact ⟨hr, hu, requireAll_eq_ok.mp ha⟩
  · intro h
    obtain ⟨hr, hu, ha⟩ := h
    exact ⟨slots, ⟨hr, hu⟩, (), requireAll_eq_ok.mpr ha, rfl⟩

theorem exists_of_readAliases_eq_error {e : ValidationError}
    (h : readAliases entries intakes = .error e) :
    ∃ intake ∈ intakes, ∃ a e', Entries.get? intake.field.wireKey entries = some a ∧
      intake.convert a = .error e' ∧ e = e'.under (.key intake.field.wireKey) := by
  induction intakes with
  | nil => cases h
  | cons intake rest ih =>
    have hrest : ∀ {slot : Slot}, (do return slot :: (← readAliases entries rest)) = .error e →
        ∃ other ∈ intake :: rest, ∃ a e', Entries.get? other.field.wireKey entries = some a ∧
          other.convert a = .error e' ∧ e = e'.under (.key other.field.wireKey) := by
      intro slot h
      obtain h | ⟨others, -, h⟩ := Located.bind_eq_error.mp h
      · obtain ⟨other, hm, hother⟩ := ih h
        exact ⟨other, List.mem_cons_of_mem _ hm, hother⟩
      · cases h
    rw [readAliases] at h
    cases hg : Entries.get? intake.field.wireKey entries with
    | none =>
      rw [hg] at h
      exact hrest h
    | some a =>
      rw [hg] at h
      obtain h | ⟨slot, -, h⟩ := Located.bind_eq_error.mp h
      · obtain ⟨e', he', rfl⟩ := Located.within_eq_error.mp h
        exact ⟨intake, List.mem_cons_self, a, e', hg, he', rfl⟩
      · exact hrest h

theorem exists_of_refuseUnknown_eq_error {e : ValidationError}
    (h : refuseUnknown record intakes entries = .error e) :
    ∃ key ∈ entries.map Prod.fst, (∀ intake ∈ intakes, intake.field.wireKey ≠ key) ∧
      e = ⟨Path.root.key key, .unknownField record key⟩ := by
  unfold refuseUnknown at h
  split at h
  next key _ hf =>
    cases h
    have hk := List.find?_some hf
    simp only [Bool.not_eq_true', List.any_eq_false, decide_eq_true_eq] at hk
    exact ⟨key, List.mem_map_of_mem (List.mem_of_find?_eq_some hf), hk, rfl⟩
  next => cases h

theorem exists_of_requireAll_eq_error {e : ValidationError}
    (h : requireAll record intakes slots = .error e) :
    ∃ p ∈ intakes.zip slots, p.1.field.required = true ∧ p.2.isExplicit = false ∧
      e = ⟨Path.root.key p.1.field.name, .missingField record p.1.field.name⟩ := by
  induction intakes generalizing slots with
  | nil => cases h
  | cons intake rest ih =>
    cases slots with
    | nil => cases h
    | cons slot others =>
      rw [requireAll] at h
      split at h
      next hr =>
        cases h
        rw [Bool.and_eq_true, Bool.not_eq_true'] at hr
        exact ⟨(intake, slot), List.mem_cons_self, hr.1, hr.2, rfl⟩
      next =>
        obtain ⟨p, hm, hp⟩ := ih h
        exact ⟨p, List.mem_cons_of_mem _ hm, hp⟩

/-- A payload is refused for the value of an alias, for a key that is no alias, or for the absence
of a required one. -/
theorem exists_of_assemble_aliases_eq_error {unknown : UnknownKeys} {e : ValidationError}
    (hc : ∀ intake ∈ intakes, ∀ a slot, intake.convert a = .ok slot → slot.isExplicit = true)
    (h : assemble (.aliases unknown) record intakes entries = .error e) :
    (∃ intake ∈ intakes, ∃ a e', Entries.get? intake.field.wireKey entries = some a ∧
      intake.convert a = .error e' ∧ e = e'.under (.key intake.field.wireKey)) ∨
    (unknown = .reject ∧ ∃ key ∈ entries.map Prod.fst,
      (∀ intake ∈ intakes, intake.field.wireKey ≠ key) ∧
      e = ⟨Path.root.key key, .unknownField record key⟩) ∨
    ∃ intake ∈ intakes, intake.field.required = true ∧
      Entries.get? intake.field.wireKey entries = none ∧
      e = ⟨Path.root.key intake.field.name, .missingField record intake.field.name⟩ := by
  have hrequired : ∀ filled, readAliases entries intakes = .ok filled →
      requireAll record intakes filled = .error e → ∃ intake ∈ intakes,
        intake.field.required = true ∧ Entries.get? intake.field.wireKey entries = none ∧
        e = ⟨Path.root.key intake.field.name, .missingField record intake.field.name⟩ := by
    intro filled hr h
    obtain ⟨⟨intake, slot⟩, hm, hq, hx, rfl⟩ := exists_of_requireAll_eq_error h
    have hi := (List.of_mem_zip hm).1
    obtain ⟨hn, -⟩ | ⟨a, -, ha⟩ := List.forall₂_zip (readAliases_eq_ok.mp hr) hm
    · exact ⟨intake, hi, hq, hn, rfl⟩
    · have he := hc intake hi a slot ha
      rw [hx] at he
      cases he
  obtain h | ⟨filled, hf, h⟩ := Located.bind_eq_error.mp h
  · cases unknown with
    | ignore => exact .inl (exists_of_readAliases_eq_error h)
    | reject =>
      obtain h | ⟨_, -, h⟩ := Located.bind_eq_error.mp h
      · exact .inl (exists_of_readAliases_eq_error h)
      · obtain h | ⟨_, -, h⟩ := Located.bind_eq_error.mp h
        · exact .inr (.inl ⟨rfl, exists_of_refuseUnknown_eq_error h⟩)
        · cases h
  · obtain h | ⟨_, -, h⟩ := Located.bind_eq_error.mp h
    · have hr : readAliases entries intakes = .ok filled := by
        cases unknown with
        | ignore => exact hf
        | reject =>
          obtain ⟨read, hr, hf⟩ := Located.bind_eq_ok.mp hf
          obtain ⟨_, -, hf⟩ := Located.bind_eq_ok.mp hf
          cases hf
          exact hr
      exact .inr (.inr (hrequired filled hr h))
    · cases h

theorem getElem?_of_resolve? {key : String} {intake : Intake α} {i : Nat}
    (h : resolve? intakes key = some (intake, i)) : intakes[i]? = some intake := by
  have hm : (intake, i) ∈ intakes.zipIdx := by
    obtain h | ⟨-, h⟩ := Option.or_eq_some_iff.mp h
    · exact List.mem_of_find?_eq_some h
    · exact List.mem_of_find?_eq_some h
  exact List.mem_zipIdx_iff_getElem?.mp hm

theorem place_keeps {p : Intake α → Slot → Prop} {entry : String × α} {after : List Slot}
    (hs : List.Forall₂ p intakes slots)
    (hc : ∀ intake ∈ intakes, ∀ slot, intake.convert entry.2 = .ok slot → p intake slot)
    (h : place record intakes slots entry = .ok after) : List.Forall₂ p intakes after := by
  unfold place at h
  split at h
  next => cases h
  next intake i hr =>
    have hi := getElem?_of_resolve? hr
    split at h
    next => cases h
    next =>
      obtain ⟨slot, hslot, rfl⟩ := Located.map_eq_ok.mp h
      exact forall₂_set hs hi
        (hc intake (List.mem_of_getElem? hi) slot (Located.within_eq_ok.mp hslot))

def FilledFrom (entries : List (String × α)) (intake : Intake α) (slot : Slot) : Prop :=
  slot = .absent ∨ ∃ e ∈ entries, intake.convert e.2 = .ok slot

theorem foldlM_place_sound {rest : List (String × α)} {before : List Slot}
    (he : ∀ e ∈ rest, e ∈ entries) (hb : List.Forall₂ (FilledFrom entries) intakes before)
    (h : rest.foldlM (place record intakes) before = .ok slots) :
    List.Forall₂ (FilledFrom entries) intakes slots := by
  induction rest generalizing before with
  | nil =>
    cases h
    exact hb
  | cons e rest ih =>
    rw [List.foldlM_cons, Located.bind_eq_ok] at h
    obtain ⟨after, hp, h⟩ := h
    have ha := place_keeps hb (fun _ _ slot hs ↦ .inr ⟨e, he e List.mem_cons_self, hs⟩) hp
    exact ih (fun e' hm ↦ he e' (List.mem_cons_of_mem _ hm)) ha h

theorem placeAll_sound (h : placeAll record intakes entries = .ok slots) :
    List.Forall₂ (FilledFrom entries) intakes slots := by
  refine foldlM_place_sound (fun _ he ↦ he) ?_ h
  rw [List.forall₂_map_right_iff]
  exact List.forall₂_same.mpr fun _ _ ↦ .inl rfl

theorem fill_sound {rule : KeyRule} (h : fill rule record intakes entries = .ok slots) :
    List.Forall₂ (FilledFrom entries) intakes slots := by
  have hread : ∀ filled, readAliases entries intakes = .ok filled →
      List.Forall₂ (FilledFrom entries) intakes filled := by
    intro filled hf
    refine (readAliases_eq_ok.mp hf).imp ?_
    intro intake slot h
    rcases h with ⟨-, rfl⟩ | ⟨a, ha, hs⟩
    · exact .inl rfl
    · exact .inr ⟨_, Entries.mem_of_get?_eq_some ha, hs⟩
  cases rule with
  | names => exact placeAll_sound h
  | aliases unknown =>
    cases unknown with
    | ignore => exact hread slots h
    | reject =>
      obtain ⟨filled, hr, h⟩ := Located.bind_eq_ok.mp h
      obtain ⟨_, -, h⟩ := Located.bind_eq_ok.mp h
      cases h
      exact hread slots hr

/-- A slot of an assembled record is absent only where it may be, and else comes from an input. -/
theorem assemble_sound {rule : KeyRule} (h : assemble rule record intakes entries = .ok slots) :
    List.Forall₂ (fun intake slot ↦
      intake.field.required = false ∧ slot = .absent ∨
        ∃ e ∈ entries, intake.convert e.2 = .ok slot) intakes slots := by
  obtain ⟨filled, hf, h⟩ := Located.bind_eq_ok.mp h
  obtain ⟨_, hr, h⟩ := Located.bind_eq_ok.mp h
  cases h
  have hs := fill_sound hf
  have hexplicit := requireAll_eq_ok.mp hr
  rw [List.forall₂_iff_zip] at hs ⊢
  refine ⟨hs.1, fun {intake slot} hm ↦ ?_⟩
  obtain rfl | he := hs.2 hm
  · refine .inl ⟨Bool.eq_false_iff.mpr fun hq ↦ ?_, rfl⟩
    have hx := hexplicit _ hm hq
    cases hx
  · exact .inr he

/-- What holds of all slots that a field may get holds of the ones that are assembled. -/
theorem forall₂_of_assemble {rule : KeyRule} {convert : Field → α → Except ValidationError Slot}
    {fields : List Field} {p : Field → Slot → Prop}
    (habsent : ∀ f ∈ fields, f.required = false → p f .absent)
    (hc : ∀ f ∈ fields, ∀ e ∈ entries, ∀ slot, convert f e.2 = .ok slot → p f slot)
    (h : assemble rule record (fields.map fun f ↦ ⟨f, convert f⟩) entries = .ok slots) :
    List.Forall₂ p fields slots := by
  have hs := assemble_sound h
  rw [List.forall₂_map_left_iff, List.forall₂_iff_zip] at hs
  refine List.forall₂_iff_zip.mpr ⟨hs.1, fun {f slot} hm ↦ ?_⟩
  have hf := (List.of_mem_zip hm).1
  obtain ⟨hr, rfl⟩ | ⟨e, he, hslot⟩ := hs.2 hm
  · exact habsent f hf hr
  · exact hc f hf e he slot hslot

end Intake

theorem Schema.exists_of_accept_aliases_eq_error {s : Schema} {unknown : UnknownKeys}
    {entries : List (String × Json)} {e : ValidationError}
    (h : s.accept (.aliases unknown) entries = .error e) :
    (∃ f ∈ s.fields, ∃ json e', Entries.get? f.wireKey entries = some json ∧
      f.check (.aliases unknown) json = .error e' ∧ e = e'.under (.key f.wireKey)) ∨
    (unknown = .reject ∧ ∃ key ∈ entries.map Prod.fst, (∀ f ∈ s.fields, f.wireKey ≠ key) ∧
      e = ⟨Path.root.key key, .unknownField s.name key⟩) ∨
    ∃ f ∈ s.fields, f.required = true ∧ Entries.get? f.wireKey entries = none ∧
      e = ⟨Path.root.key f.name, .missingField s.name f.name⟩ := by
  rw [accept_eq, Located.map_eq_error] at h
  have hexplicit : ∀ intake ∈ s.fields.map fun f ↦ (⟨f, f.check (.aliases unknown)⟩ : Intake Json),
      ∀ json slot, intake.convert json = .ok slot → slot.isExplicit = true := by
    intro intake hi json slot hslot
    obtain ⟨f, -, rfl⟩ := List.mem_map.mp hi
    obtain ⟨-, -, rfl⟩ | ⟨-, v, -, rfl⟩ := slotOf_eq_ok.mp hslot
    · rfl
    · rfl
  obtain ⟨intake, hi, hvalue⟩ | ⟨hu, key, hk, hno, he⟩ | ⟨intake, hi, hmissing⟩ :=
    Intake.exists_of_assemble_aliases_eq_error hexplicit h
  · obtain ⟨f, hf, rfl⟩ := List.mem_map.mp hi
    exact .inl ⟨f, hf, hvalue⟩
  · exact .inr (.inl ⟨hu, key, hk, fun f hf ↦ hno _ (List.mem_map_of_mem hf), he⟩)
  · obtain ⟨f, hf, rfl⟩ := List.mem_map.mp hi
    exact .inr (.inr ⟨f, hf, hmissing⟩)

end TypedRecord
