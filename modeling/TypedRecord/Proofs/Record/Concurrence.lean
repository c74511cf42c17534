import TypedRecord.Proofs.Outcome
import TypedRecord.Proofs.Record.Assembly
import TypedRecord.Proofs.Schema.Equality

namespace TypedRecord

section

variable {ε ε' η η' α α' β β' : Type}

/-- Both succeed with results that are the same, or both fail with errors that are alike. -/
inductive Concurs (alike : ε → ε' → Prop) (same : α → α' → Prop) :
    Except ε α → Except ε' α' → Prop
  | ok {a : α} {a' : α'} : same a a' → Concurs alike same (.ok a) (.ok a')
  | error {e : ε} {e' : ε'} : alike e e' → Concurs alike same (.error e) (.error e')

structure Located.Alike (alike : ε → ε' → Prop) (e : Located ε) (e' : Located ε') : Prop where
  path : e.path = e'.path
  cause : alike e.cause e'.cause

namespace Concurs

section

variable {alike : ε → ε' → Prop} {same : α → α' → Prop} {same' : β → β' → Prop}
  {r : Except ε α} {r' : Except ε' α'}

theorem exists_ok {a : α} (h : Concurs alike same r r') (hr : r = .ok a) :
    ∃ a', r' = .ok a' ∧ same a a' := by
  cases h with
  | ok ha =>
    cases hr
    exact ⟨_, rfl, ha⟩
  | error => cases hr

theorem bind {f : α → Except ε β} {g : α' → Except ε' β'} (h : Concurs alike same r r')
    (hf : ∀ a a', same a a' → Concurs alike same' (f a) (g a')) :
    Concurs alike same' (r >>= f) (r' >>= g) := by
  cases h with
  | ok ha => exact hf _ _ ha
  | error he => exact .error he

theorem map {f : α → β} {g : α' → β'} (h : Concurs alike same r r')
    (hf : ∀ a a', same a a' → same' (f a) (g a')) : Concurs alike same' (r.map f) (r'.map g) := by
  cases h with
  | ok ha => exact .ok (hf _ _ ha)
  | error he => exact .error he

theorem mapError {alike' : η → η' → Prop} {f : ε → η} {g : ε' → η'} (h : Concurs alike same r r')
    (hf : ∀ e e', alike e e' → alike' (f e) (g e')) :
    Concurs alike' same (r.mapError f) (r'.mapError g) := by
  cases h with
  | ok ha => exact .ok ha
  | error he => exact .error (hf _ _ he)

end

theorem of_eq {alike : ε → ε → Prop} {same : α → α → Prop} {r r' : Except ε α} (h : r = r')
    (he : ∀ e, alike e e) (ha : ∀ a, r = .ok a → same a a) : Concurs alike same r r' := by
  subst h
  cases r with
  | ok a => exact .ok (ha a rfl)
  | error e => exact .error (he e)

section

variable {alike : ε → ε' → Prop} {same : α → α' → Prop} {same' : β → β' → Prop}
  {r : Except (Located ε) α} {r' : Except (Located ε') α'} {f : α → Except (Located ε) β}
  {g : α' → Except (Located ε') β'}

theorem within (step : Path.Step) (h : Concurs (Located.Alike alike) same r r') :
    Concurs (Located.Alike alike) same (Located.within step r) (Located.within step r') := by
  cases h with
  | ok ha => exact .ok ha
  | error he => exact .error ⟨congrArg (Path.under step) he.path, he.cause⟩

theorem traverseFrom {i : Nat} {xs : List α} {ys : List α'}
    (h : List.Forall₂ (fun x y ↦ Concurs (Located.Alike alike) same' (f x) (g y)) xs ys) :
    Concurs (Located.Alike alike) (List.Forall₂ same') (Located.traverseFrom f i xs)
      (Located.traverseFrom g i ys) := by
  induction h generalizing i with
  | nil => exact .ok .nil
  | cons hxy _ ih =>
    exact (hxy.within (.index i)).bind fun _ _ hb ↦ ih.bind fun _ _ hbs ↦ .ok (.cons hb hbs)

theorem traverse {xs : List α} {ys : List α'}
    (h : List.Forall₂ (fun x y ↦ Concurs (Located.Alike alike) same' (f x) (g y)) xs ys) :
    Concurs (Located.Alike alike) (List.Forall₂ same') (Located.traverse f xs)
      (Located.traverse g ys) :=
  traverseFrom h

theorem traverseEntries {xs : List (String × α)} {ys : List (String × α')}
    (h : List.Forall₂ (fun x y ↦ x.1 = y.1 ∧ Concurs (Located.Alike alike) same' (f x.2) (g y.2))
      xs ys) :
    Concurs (Located.Alike alike) (List.Forall₂ fun x y ↦ x.1 = y.1 ∧ same' x.2 y.2)
      (Located.traverseEntries f xs) (Located.traverseEntries g ys) := by
  induction h with
  | nil => exact .ok .nil
  | @cons x y _ _ hxy _ ih =>
    rw [Located.traverseEntries, Located.traverseEntries, ← hxy.1]
    exact (hxy.2.within (.key x.1)).bind fun _ _ hb ↦
      ih.bind fun _ _ hbs ↦ .ok (.cons ⟨rfl, hb⟩ hbs)

end

end Concurs

end

/-- The same breach, of bounds with equal limits. Zero and negative zero are equal, but have
different texts. -/
inductive Breach.Agrees : Breach → Breach → Prop
  | same (b : Breach) : Breach.Agrees b b
  | value {bound : Bound} {limit limit' : Binary64} {got : Json.Number} :
      limit.equal limit' = true →
      Breach.Agrees (.value bound limit got) (.value bound limit' got)

inductive Fault.Agrees : Fault → Fault → Prop
  | same (fault : Fault) : Fault.Agrees fault fault
  | outOfBounds {b b' : Breach} : b.Agrees b' →
      Fault.Agrees (.outOfBounds b) (.outOfBounds b')

inductive WireFault.Agrees : WireFault → WireFault → Prop
  | same (fault : WireFault) : WireFault.Agrees fault fault
  | validation {fault fault' : Fault} : fault.Agrees fault' →
      WireFault.Agrees (.validation fault) (.validation fault')

abbrev ValidationError.Agrees : ValidationError → ValidationError → Prop :=
  Located.Alike Fault.Agrees

abbrev WireError.Agrees : WireError → WireError → Prop := Located.Alike WireFault.Agrees

theorem Breach.Agrees.code {b b' : Breach} (h : b.Agrees b') : b.code = b'.code := by
  cases h with
  | same | value => rfl

theorem Fault.Agrees.code? {fault fault' : Fault} (h : fault.Agrees fault') :
    fault.code? = fault'.code? := by
  cases h with
  | same => rfl
  | outOfBounds hb => exact congrArg some hb.code

theorem Fault.Agrees.isConstraint {fault fault' : Fault} (h : fault.Agrees fault') :
    fault.isConstraint = fault'.isConstraint := by
  cases h with
  | same | outOfBounds => rfl

theorem Fault.Agrees.ofDecoding {fault fault' : Fault} (h : fault.Agrees fault') :
    (WireFault.ofDecoding fault).Agrees (WireFault.ofDecoding fault') := by
  cases h with
  | same => exact .same _
  | outOfBounds hb => exact .validation (.outOfBounds hb)

theorem WireFault.Agrees.code? {fault fault' : WireFault} (h : fault.Agrees fault') :
    fault.code? = fault'.code? := by
  cases h with
  | same => rfl
  | validation h => exact h.code?

theorem ValidationError.Agrees.refl (e : ValidationError) : ValidationError.Agrees e e :=
  ⟨rfl, .same _⟩

theorem Concurs.here {α α' : Type} {same : α → α' → Prop} {fault fault' : Fault}
    (h : fault.Agrees fault') :
    Concurs ValidationError.Agrees same (Located.here fault) (Located.here fault') :=
  .error ⟨rfl, h⟩

theorem rel_refl {α : Type} {r : α → α → Prop} (h : ∀ a, r a a) (x : Option α) :
    Option.Rel r x x := by
  cases x with
  | none => exact .none
  | some a => exact .some (h a)

theorem rel_or {α β : Type} {r : α → β → Prop} {a b : Option α} {a' b' : Option β}
    (ha : Option.Rel r a a') (hb : Option.Rel r b b') : Option.Rel r (a.or b) (a'.or b') := by
  cases ha with
  | none => exact hb
  | some h => exact .some h

theorem Range.Agrees.breach? {r s : Range} (h : r.Agrees s) (n : Json.Number) :
    Option.Rel Breach.Agrees (r.breach? n) (s.breach? n) := by
  have hbound : ∀ {bound : Bound} {limit limit' : Option Binary64} {violated : Binary64 → Bool},
      Option.Rel (fun x y ↦ x.equal y = true) limit limit' →
      (∀ x y, x.equal y = true → violated x = violated y) →
      Option.Rel Breach.Agrees ((limit.filter violated).map fun limit ↦ .value bound limit n)
        ((limit'.filter violated).map fun limit ↦ .value bound limit n) := by
    intro bound limit limit' violated hl hv
    cases hl with
    | none => exact .none
    | @some x y hxy =>
      rw [Option.filter_some, Option.filter_some, hv x y hxy]
      split
      · exact .some (.value hxy)
      · exact .none
  refine rel_or (hbound h.gt fun _ _ ↦ Binary64.le_congr_right) ?_
  refine rel_or (hbound h.gte fun _ _ ↦ Binary64.lt_congr_right) ?_
  exact rel_or (hbound h.lt fun _ _ ↦ Binary64.le_congr_left)
    (hbound h.lte fun _ _ ↦ Binary64.lt_congr_left)

theorem Concurs.guardBreach {α α' : Type} {same : α → α' → Prop} {breach breach' : Option Breach}
    {next : Except ValidationError α} {next' : Except ValidationError α'}
    (hb : Option.Rel Breach.Agrees breach breach')
    (h : Concurs ValidationError.Agrees same next next') :
    Concurs ValidationError.Agrees same (TypedRecord.guardBreach breach next)
      (TypedRecord.guardBreach breach' next') := by
  cases hb with
  | none => exact h
  | some hb => exact .here (.outOfBounds hb)

theorem Slot.equal_absent : Slot.absent.equal .absent = true := by
  rw [Slot.equal]

theorem Slot.isExplicit_of_equal {x y : Slot} (h : x.equal y = true) :
    x.isExplicit = y.isExplicit := by
  cases x <;> cases y <;> first | rfl | simp [Slot.equal] at h

theorem any_of_rel {α β : Type} {r : α → β → Prop} {p : α → Bool} {q : β → Bool} {x : Option α}
    {y : Option β} (h : Option.Rel r x y) (hpq : ∀ a b, r a b → p a = q b) :
    x.any p = y.any q := by
  cases h with
  | none => rfl
  | some hr => exact hpq _ _ hr

theorem rel_find? {α β : Type} {r : α → β → Prop} {p : α → Bool} {q : β → Bool} {xs : List α}
    {ys : List β} (h : List.Forall₂ r xs ys) (hpq : ∀ x y, r x y → p x = q y) :
    Option.Rel r (xs.find? p) (ys.find? q) := by
  induction h with
  | nil => exact .none
  | @cons x y _ _ hxy _ ih =>
    rw [List.find?_cons, List.find?_cons, hpq x y hxy]
    split
    · exact .some hxy
    · exact ih

theorem forall₂_zipIdx {α β : Type} {r : α → β → Prop} {xs : List α} {ys : List β}
    (h : List.Forall₂ r xs ys) (n : Nat) :
    List.Forall₂ (fun x y ↦ x.2 = y.2 ∧ r x.1 y.1) (xs.zipIdx n) (ys.zipIdx n) := by
  induction h generalizing n with
  | nil => exact .nil
  | cons hxy _ ih => exact .cons ⟨rfl, hxy⟩ (ih (n + 1))

namespace Intake

variable {α : Type} {takes : α → Prop} {record : String} {intakes intakes' : List (Intake α)}
  {slots slots' : List Slot} {entries : List (String × α)}

structure Agrees (takes : α → Prop) (i j : Intake α) : Prop where
  name : i.field.name = j.field.name
  wireKey : i.field.wireKey = j.field.wireKey
  required : i.field.required = j.field.required
  convert : ∀ a, takes a →
    Concurs ValidationError.Agrees (Slot.equal · · = true) (i.convert a) (j.convert a)

theorem rel_resolve? (h : List.Forall₂ (Agrees takes) intakes intakes') (key : String) :
    Option.Rel (fun x y ↦ x.2 = y.2 ∧ x.1.Agrees takes y.1) (resolve? intakes key)
      (resolve? intakes' key) := by
  refine rel_or (rel_find? (forall₂_zipIdx h 0) fun x y hxy ↦ ?_)
    (rel_find? (forall₂_zipIdx h 0) fun x y hxy ↦ ?_)
  · rw [hxy.2.name]
  · rw [hxy.2.wireKey]

theorem place_concurs (h : List.Forall₂ (Agrees takes) intakes intakes')
    (hs : List.Forall₂ (Slot.equal · · = true) slots slots') {entry : String × α}
    (he : takes entry.2) :
    Concurs ValidationError.Agrees (List.Forall₂ (Slot.equal · · = true))
      (place record intakes slots entry) (place record intakes' slots' entry) := by
  unfold place
  have hfound := rel_resolve? h entry.1
  generalize resolve? intakes entry.1 = found, resolve? intakes' entry.1 = found' at hfound
  cases hfound with
  | none => exact .error (.refl _)
  | @some x y hxy =>
    obtain ⟨i, n⟩ := x
    obtain ⟨j, m⟩ := y
    -- both resolve the key to the same slot
    obtain ⟨rfl, hij⟩ : n = m ∧ i.Agrees takes j := hxy
    have hfilled : slots[n]?.any Slot.isExplicit = slots'[n]?.any Slot.isExplicit :=
      any_of_rel (rel_getElem? hs n) fun _ _ ↦ Slot.isExplicit_of_equal
    simp only [hfilled, hij.name]
    split
    · exact .error (.refl _)
    · exact ((hij.convert entry.2 he).within (.key j.field.name)).map fun _ _ hslot ↦
        forall₂_set_set hs hslot

theorem foldlM_place_concurs (h : List.Forall₂ (Agrees takes) intakes intakes')
    (hs : List.Forall₂ (Slot.equal · · = true) slots slots') (he : ∀ e ∈ entries, takes e.2) :
    Concurs ValidationError.Agrees (List.Forall₂ (Slot.equal · · = true))
      (entries.foldlM (place record intakes) slots)
      (entries.foldlM (place record intakes') slots') := by
  induction entries generalizing slots slots' with
  | nil => exact .ok hs
  | cons entry rest ih =>
    rw [List.forall_mem_cons] at he
    rw [List.foldlM_cons, List.foldlM_cons]
    exact (place_concurs h hs he.1).bind fun _ _ hafter ↦ ih hafter he.2

theorem readAliases_concurs (h : List.Forall₂ (Agrees takes) intakes intakes')
    (he : ∀ e ∈ entries, takes e.2) :
    Concurs ValidationError.Agrees (List.Forall₂ (Slot.equal · · = true))
      (readAliases entries intakes) (readAliases entries intakes') := by
  induction h with
  | nil => exact .ok .nil
  | @cons i j _ _ hij _ ih =>
    rw [readAliases, readAliases, ← hij.wireKey]
    cases hg : Entries.get? i.field.wireKey entries with
    | none => exact ih.bind fun _ _ hrest ↦ .ok (.cons Slot.equal_absent hrest)
    | some a =>
      have ha := he _ (Entries.mem_of_get?_eq_some hg)
      exact ((hij.convert a ha).within (.key i.field.wireKey)).bind fun _ _ hslot ↦
        ih.bind fun _ _ hrest ↦ .ok (.cons hslot hrest)

theorem refuseUnknown_congr (h : List.Forall₂ (Agrees takes) intakes intakes') :
    refuseUnknown record intakes entries = refuseUnknown record intakes' entries := by
  have hkeys : intakes'.map (·.field.wireKey) = intakes.map (·.field.wireKey) :=
    map_outcomes_eq (h.imp fun _ _ hij ↦ hij.wireKey.symm)
  have hany : ∀ key, (intakes.any fun i ↦ i.field.wireKey = key) =
      intakes'.any fun i ↦ i.field.wireKey = key := by
    intro key
    have hmap := congrArg (List.any · fun other ↦ other = key) hkeys
    simp only [List.any_map] at hmap
    exact hmap.symm
  simp only [refuseUnknown, hany]

theorem requireAll_concurs (h : List.Forall₂ (Agrees takes) intakes intakes')
    (hs : List.Forall₂ (Slot.equal · · = true) slots slots') :
    requireAll record intakes slots = requireAll record intakes' slots' := by
  induction h generalizing slots slots' with
  | nil => rfl
  | cons hij _ ih =>
    cases hs with
    | nil => rfl
    | cons hxy hs =>
      rw [requireAll, requireAll, hij.required, Slot.isExplicit_of_equal hxy, hij.name, ih hs]

theorem fill_concurs {rule : KeyRule} (h : List.Forall₂ (Agrees takes) intakes intakes')
    (he : ∀ e ∈ entries, takes e.2) :
    Concurs ValidationError.Agrees (List.Forall₂ (Slot.equal · · = true))
      (fill rule record intakes entries) (fill rule record intakes' entries) := by
  cases rule with
  | names =>
    refine foldlM_place_concurs h ?_ he
    rw [List.forall₂_map_left_iff, List.forall₂_map_right_iff]
    exact h.imp fun _ _ _ ↦ Slot.equal_absent
  | aliases unknown =>
    cases unknown with
    | ignore => exact readAliases_concurs h he
    | reject =>
      rw [fill, fill, refuseUnknown_congr h]
      refine (readAliases_concurs h he).bind fun _ _ hslots ↦ ?_
      cases refuseUnknown record intakes' entries with
      | ok _ => exact .ok hslots
      | error e => exact .error (.refl e)

theorem assemble_concurs {rule : KeyRule} (h : List.Forall₂ (Agrees takes) intakes intakes')
    (he : ∀ e ∈ entries, takes e.2) :
    Concurs ValidationError.Agrees (List.Forall₂ (Slot.equal · · = true))
      (assemble rule record intakes entries) (assemble rule record intakes' entries) := by
  refine (fill_concurs h he).bind fun slots slots' hslots ↦ ?_
  rw [requireAll_concurs h hslots]
  cases requireAll record intakes' slots' with
  | ok _ => exact .ok hslots
  | error e => exact .error (.refl e)

end Intake

end TypedRecord
