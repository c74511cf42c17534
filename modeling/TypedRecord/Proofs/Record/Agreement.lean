import TypedRecord.Proofs.Record.Placement
import TypedRecord.Proofs.Record.Refusal
import TypedRecord.Proofs.Schema.Reach
import TypedRecord.Record.Construct

namespace TypedRecord

/-- No alias is the name of another field. -/
def Schema.Unshadowed (s : Schema) : Prop :=
  ∀ f ∈ s.fields, ∀ g ∈ s.fields, f ≠ g → f.wireKey ≠ g.name

def Schema.Unaliased (s : Schema) : Prop := ∀ f ∈ s.fields, f.wireKey = f.name

namespace Intake

variable {α β : Type} {record : String} {intakes : List (Intake α)}
  {entries keyed : List (String × α)} {slots : List Slot}

theorem key_of_resolve? {key : String} {p : Intake α × Nat} (h : resolve? intakes key = some p) :
    p.1 ∈ intakes ∧ (p.1.field.name = key ∨ p.1.field.wireKey = key) := by
  refine ⟨List.mem_of_getElem? (getElem?_of_resolve? h), ?_⟩
  obtain h | ⟨-, h⟩ := Option.or_eq_some_iff.mp h
  · have hname := List.find?_some h
    exact .inl (of_decide_eq_true hname)
  · have hwireKey := List.find?_some h
    exact .inr (of_decide_eq_true hwireKey)

theorem exists_resolve? {key : String} {intake : Intake α} (hm : intake ∈ intakes)
    (hkey : intake.field.wireKey = key) : ∃ p, resolve? intakes key = some p := by
  obtain ⟨i, hi⟩ := List.mem_iff_getElem?.mp hm
  have hfound : (intakes.zipIdx.find? (·.1.field.wireKey = key)).isSome := by
    rw [List.find?_isSome]
    exact ⟨(intake, i), List.mem_zipIdx_iff_getElem?.mpr hi, decide_eq_true hkey⟩
  refine Option.isSome_iff_exists.mp ?_
  rw [resolve?, Option.isSome_or, hfound, Bool.or_true]

theorem eq_of_rekeyed (h : ∀ key p, resolve? intakes key = some p → p.1.field.wireKey = key)
    (hkeyed : Rekeyed intakes entries keyed) : keyed = entries := by
  induction hkeyed with
  | nil => rfl
  | cons hfirst _ ih =>
    obtain ⟨hvalue, p, hp, hkey⟩ := hfirst
    rw [ih, Prod.ext (hkey.symm.trans (h _ p hp)) hvalue]

/-- Where one conversion succeeds, so that its record is assembled, another that agrees with it on
the inputs assembles the same. -/
theorem assemble_aliases_mono {unknown : UnknownKeys} {fields : List Field}
    {convert convert' : Field → α → Except ValidationError Slot}
    (h : ∀ f ∈ fields, ∀ e ∈ entries, ∀ slot, convert f e.2 = .ok slot → convert' f e.2 = .ok slot)
    (ha : assemble (.aliases unknown) record (fields.map fun f ↦ ⟨f, convert f⟩) entries =
      .ok slots) :
    assemble (.aliases unknown) record (fields.map fun f ↦ ⟨f, convert' f⟩) entries =
      .ok slots := by
  rw [assemble_aliases_eq_ok] at ha ⊢
  obtain ⟨hr, hu, hq⟩ := ha
  refine ⟨?_, ?_, ?_⟩
  · rw [readAliases_eq_ok, List.forall₂_map_left_iff, List.forall₂_iff_zip] at hr ⊢
    refine ⟨hr.1, fun {f slot} hm ↦ ?_⟩
    obtain hn | ⟨a, ha, hc⟩ := hr.2 hm
    · exact .inl hn
    · have hc' := h f (List.of_mem_zip hm).1 _ (Entries.mem_of_get?_eq_some ha) slot hc
      exact .inr ⟨a, ha, hc'⟩
  · simpa only [List.mem_map, exists_exists_and_eq_and] using hu
  · rw [List.zip_map_left, List.forall_mem_map] at hq ⊢
    exact hq

def comap (g : β → α) (intake : Intake α) : Intake β := ⟨intake.field, intake.convert ∘ g⟩

theorem resolve?_comap (g : β → α) (key : String) : resolve? (intakes.map (comap g)) key =
    (resolve? intakes key).map (Prod.map (comap g) id) := by
  rw [resolve?, List.zipIdx_map, List.find?_map, List.find?_map, ← Option.map_or]
  rfl

theorem place_comap (g : β → α) (entry : String × β) :
    place record (intakes.map (comap g)) slots entry =
      place record intakes slots (entry.1, g entry.2) := by
  rw [place, place, resolve?_comap]
  cases resolve? intakes entry.1 <;> rfl

theorem requireAll_comap (g : β → α) :
    requireAll record (intakes.map (comap g)) slots = requireAll record intakes slots := by
  induction intakes generalizing slots with
  | nil => cases slots <;> rfl
  | cons intake rest ih =>
    cases slots with
    | nil => rfl
    | cons slot others =>
      rw [List.map_cons, requireAll, requireAll, ih]
      rfl

theorem assemble_comap (g : β → α) (entries : List (String × β)) :
    assemble .names record (intakes.map (comap g)) entries =
      assemble .names record intakes (entries.map fun e ↦ (e.1, g e.2)) := by
  have hplace : place record (intakes.map (comap g)) =
      fun slots e ↦ place record intakes slots (e.1, g e.2) :=
    funext₂ fun _ e ↦ place_comap g e
  simp only [assemble, fill, placeAll, List.foldlM_map, List.map_map, requireAll_comap, hplace]
  rfl

end Intake

/-- What one key rule accepts the other accepts too, as the same value. -/
def FieldType.Carries (rule rule' : KeyRule) (t : FieldType) : Prop :=
  ∀ json v, json.Proper → json ≠ .null → t.accept rule json = .ok v → t.accept rule' json = .ok v

section

variable {rule rule' : KeyRule} {s : Schema} {f : Field} {t : FieldType} {json : Json}
  {entries : List (String × Json)} {r : Record}

theorem FieldType.Carries.refuseNull (ht : t.Carries rule rule') (hp : json.Proper) {v : Value}
    (h : refuseNull (t.accept rule) json = .ok v) : refuseNull (t.accept rule') json = .ok v := by
  rw [refuseNull_eq_ok] at h ⊢
  exact ⟨h.1, ht json v hp h.1 h.2⟩

theorem FieldType.Carries.check (ht : f.type.Carries rule rule') (hp : json.Proper) {slot : Slot}
    (h : f.check rule json = .ok slot) : f.check rule' json = .ok slot := by
  rw [Field.check, slotOf_eq_ok] at h ⊢
  obtain hn | ⟨hj, v, hv, hs⟩ := h
  · exact .inl hn
  · exact .inr ⟨hj, v, ht json v hp hj hv, hs⟩

theorem Field.isExplicit_of_check {slot : Slot} (h : f.check rule json = .ok slot) :
    slot.isExplicit = true := by
  obtain ⟨-, -, rfl⟩ | ⟨-, v, -, rfl⟩ := slotOf_eq_ok.mp h
  · rfl
  · rfl

namespace FieldType

theorem mem_preorder_field (hf : f ∈ s.fields) {u : Schema} (hu : u ∈ f.type.preorder) :
    u ∈ s.preorder := by
  rw [preorder_eq, List.mem_flatMap] at hu
  obtain ⟨v, hv, hu⟩ := hu
  exact Schema.mem_preorder.mpr (.inr ⟨v, List.mem_flatMap.mpr ⟨f, hf, hv⟩, hu⟩)

/-- Key rules differ in records only, so it is on these that one has to carry over to the other. -/
theorem carries {t : FieldType} : t.Built →
    (∀ s ∈ t.preorder, s.Built → (∀ f ∈ s.fields, f.type.Carries rule rule') →
      ∀ entries r, (Json.obj entries).Proper → s.accept rule entries = .ok r →
        s.accept rule' entries = .ok r) →
    t.Carries rule rule' := by
  induction t using FieldType.induction with
  | scalar t hs =>
    intro ht _ json v _ hj h
    rw [accept_scalar_eq_ok hs ht hj] at h ⊢
    exact h
  | record s ih =>
    intro ht hrecord json v hp _ h
    have hs := ht.record
    have hfields : ∀ f ∈ s.fields, f.type.Carries rule rule' := fun f hf ↦
      ih f hf (hs.field hf) fun u hu ↦ hrecord u (mem_preorder_field hf hu)
    cases json with
    | obj entries =>
      simp only [accept, ofObject, Located.map_eq_ok] at h ⊢
      obtain ⟨r, hr, rfl⟩ := h
      exact ⟨r, hrecord s s.mem_preorder_self hs hfields entries r hp hr, rfl⟩
    | _ => simp [accept, ofObject, Located.here] at h
  | seq items limits ih =>
    intro ht hrecord json v hp _ h
    have hitems := ih ht.seq hrecord
    cases json with
    | arr elements =>
      simp only [accept, ofArray, guardBreach_eq_ok, Located.map_eq_ok,
        Located.traverse_eq_ok] at h ⊢
      obtain ⟨hl, values, hv, rfl⟩ := h
      refine ⟨hl, values, ?_, rfl⟩
      rw [List.forall₂_iff_zip] at hv ⊢
      exact ⟨hv.1, fun {j w} hm ↦ hitems.refuseNull (hp.items j (List.of_mem_zip hm).1) (hv.2 hm)⟩
    | _ => simp [accept, ofArray, wrongType, Located.here] at h
  | map values ih =>
    intro ht hrecord json v hp _ h
    have hvalues := ih ht.map hrecord
    cases json with
    | obj entries =>
      simp only [accept, ofObject, Located.map_eq_ok, Located.traverseEntries_eq_ok] at h ⊢
      obtain ⟨outs, ho, rfl⟩ := h
      refine ⟨outs, ?_, rfl⟩
      rw [List.forall₂_iff_zip] at ho ⊢
      refine ⟨ho.1, fun {e out} hm ↦ ?_⟩
      obtain ⟨hkey, hv⟩ := ho.2 hm
      exact ⟨hkey, hvalues.refuseNull (hp.entries e (List.of_mem_zip hm).1) hv⟩
    | _ => simp [accept, ofObject, Located.here] at h

end FieldType

namespace Schema

theorem supplies_check (s : Schema) (rule : KeyRule) :
    ∀ intake ∈ s.fields.map fun f ↦ (⟨f, f.check rule⟩ : Intake Json), intake.Supplies := by
  rw [List.forall_mem_map]
  exact fun f _ json slot h ↦ Field.isExplicit_of_check h

theorem Built.wireKeys_intakes {α : Type} (hs : s.Built)
    (convert : Field → α → Except ValidationError Slot) :
    ((s.fields.map fun f ↦ (⟨f, convert f⟩ : Intake α)).map (·.field.wireKey)).Nodup := by
  rw [List.map_map]
  exact hs.wireKeys

/-- If no field of another alias goes by the name `key`, then `key` means a field of that alias. -/
theorem wireKey_of_resolve? {α : Type} {convert : Field → α → Except ValidationError Slot}
    {key : String} {p : Intake α × Nat} (h : ∀ g ∈ s.fields, g.name = key → g.wireKey = key)
    (hp : Intake.resolve? (s.fields.map fun f ↦ ⟨f, convert f⟩) key = some p) :
    p.1.field.wireKey = key := by
  obtain ⟨hi, hname | hwireKey⟩ := Intake.key_of_resolve? hp
  · obtain ⟨g, hg, hgp⟩ := List.mem_map.mp hi
    rw [← hgp] at hname ⊢
    exact h g hg hname
  · exact hwireKey

theorem Unshadowed.wireKey_eq (hu : s.Unshadowed) (hf : f ∈ s.fields) :
    ∀ g ∈ s.fields, g.name = f.wireKey → g.wireKey = f.wireKey := by
  intro g hg hname
  by_cases hfg : f = g
  · rw [hfg]
  · exact absurd hname.symm (hu f hf g hg hfg)

theorem accept_names_of_reject (hs : s.Built) (hu : s.Unshadowed) (hp : (Json.obj entries).Proper)
    (hf : ∀ f ∈ s.fields, f.type.Carries (.aliases .reject) .names)
    (h : s.accept (.aliases .reject) entries = .ok r) : s.accept .names entries = .ok r := by
  rw [accept_eq, Located.map_eq_ok] at h ⊢
  obtain ⟨slots, ha, rfl⟩ := h
  have hmeant : ∀ e ∈ entries, ∃ p,
      Intake.resolve? (s.fields.map fun f ↦ ⟨f, f.check .names⟩) e.1 = some p ∧
        p.1.field.wireKey = e.1 := by
    intro e he
    obtain ⟨_, hi, hkey⟩ := (Intake.assemble_aliases_eq_ok.mp ha).2.1 rfl _ (List.mem_map_of_mem he)
    obtain ⟨f, hm, rfl⟩ := List.mem_map.mp hi
    obtain ⟨p, hp⟩ := Intake.exists_resolve?
      (List.mem_map_of_mem (f := fun f ↦ (⟨f, f.check .names⟩ : Intake Json)) hm) hkey
    exact ⟨p, hp, wireKey_of_resolve? (hkey ▸ hu.wireKey_eq hm) hp⟩
  refine ⟨slots, ?_, rfl⟩
  rw [Intake.assemble_names_eq_ok .reject (hs.wireKeys_intakes _) (s.supplies_check .names)]
  refine ⟨entries, List.forall₂_same.mpr fun e he ↦ ⟨rfl, hmeant e he⟩, hp.keys, ?_⟩
  exact Intake.assemble_aliases_mono
    (fun f hm e he slot hslot ↦ (hf f hm).check (hp.entries e he) hslot) ha

theorem accept_reject_of_names (hs : s.Built) (hu : s.Unaliased) (hp : (Json.obj entries).Proper)
    (hf : ∀ f ∈ s.fields, f.type.Carries .names (.aliases .reject))
    (h : s.accept .names entries = .ok r) : s.accept (.aliases .reject) entries = .ok r := by
  rw [accept_eq, Located.map_eq_ok] at h ⊢
  obtain ⟨slots, ha, rfl⟩ := h
  rw [Intake.assemble_names_eq_ok .reject (hs.wireKeys_intakes _) (s.supplies_check .names)] at ha
  obtain ⟨keyed, hkeyed, -, ha⟩ := ha
  obtain rfl := Intake.eq_of_rekeyed
    (fun _ _ hp ↦ wireKey_of_resolve? (fun g hg hname ↦ (hu g hg).trans hname) hp) hkeyed
  refine ⟨slots, Intake.assemble_aliases_mono ?_ ha, rfl⟩
  exact fun f hm e he slot hslot ↦ (hf f hm).check (hp.entries e he) hslot

/-- Entries supplied as JSON are accepted by name. -/
theorem construct_json : s.construct (entries.map fun e ↦ (e.1, .json e.2)) =
    s.accept .names entries := by
  rw [construct, ← Intake.assemble_comap, accept_eq, List.map_map]
  rfl

/-- Distinct names that are aliases as well are no names of other fields. -/
theorem unshadowed_of_unaliased (hs : s.Built) (hu : s.Unaliased) : s.Unshadowed := by
  intro f hf g hg hfg he
  rw [hu f hf] at he
  exact hfg (List.inj_on_of_nodup_map hs.names hf hg he)

theorem carries_names (hs : s.Built) (hu : ∀ t ∈ s.preorder, t.Unshadowed) :
    ∀ f ∈ s.fields, f.type.Carries (.aliases .reject) .names := fun _ hf ↦
  FieldType.carries (hs.field hf) fun t ht hb hfields _ _ hp h ↦
    accept_names_of_reject hb (hu t (FieldType.mem_preorder_field hf ht)) hp hfields h

theorem carries_reject (hs : s.Built) (hu : ∀ t ∈ s.preorder, t.Unaliased) :
    ∀ f ∈ s.fields, f.type.Carries .names (.aliases .reject) := fun _ hf ↦
  FieldType.carries (hs.field hf) fun t ht hb hfields _ _ hp h ↦
    accept_reject_of_names hb (hu t (FieldType.mem_preorder_field hf ht)) hp hfields h

/-- What an object decodes to, where no key of it is unknown, a caller builds from its entries as
well; and where every field is its own alias, a caller builds nothing else. -/
theorem construct_agrees_with_decode (hs : s.Built) (hu : ∀ t ∈ s.preorder, t.Unshadowed)
    (hp : (Json.obj entries).Proper) :
    (s.decode .reject (.obj entries) = .ok (some r) →
      s.construct (entries.map fun e ↦ (e.1, .json e.2)) = .ok r) ∧
    ((∀ t ∈ s.preorder, t.Unaliased) →
      s.construct (entries.map fun e ↦ (e.1, .json e.2)) = .ok r →
      s.decode .reject (.obj entries) = .ok (some r)) := by
  rw [construct_json, decode_eq_some, decodeRecord_eq_ok_accept]
  constructor
  · intro h
    obtain ⟨_, he, ha⟩ := h
    cases he
    exact accept_names_of_reject hs (hu s s.mem_preorder_self) hp (carries_names hs hu) ha
  · intro hua h
    refine ⟨entries, rfl, ?_⟩
    exact accept_reject_of_names hs (hua s s.mem_preorder_self) hp (carries_reject hs hua) h

/-- Where two fields go by each other's name on the wire, a caller's keys mean the other ones. -/
example :
    let swapped : Schema := ⟨0, "Swapped", none, [
      { Field.plain "x" .any true with wireKey := "y" },
      { Field.plain "y" .any true with wireKey := "x" }]⟩
    let entries : List (String × Json) := [("x", .int 1), ("y", .int 2)]
    swapped.decode .reject (.obj entries) =
        .ok (some ⟨swapped, [.set (.scalar (.int 2)), .set (.scalar (.int 1))]⟩) ∧
      swapped.construct (entries.map fun e ↦ (e.1, .json e.2)) =
        .ok ⟨swapped, [.set (.scalar (.int 1)), .set (.scalar (.int 2))]⟩ :=
  ⟨rfl, rfl⟩

theorem team_unshadowed : ∀ t ∈ team.preorder, t.Unshadowed := by
  have hpreorder : team.preorder = [team, user] := rfl
  have hsingle : ∀ {t : Schema} {f : Field}, t.fields = [f] → t.Unshadowed := by
    intro t f ht g hg h hh hne
    rw [ht, List.mem_singleton] at hg hh
    exact absurd (hg.trans hh.symm) hne
  rw [hpreorder, List.forall_mem_cons, List.forall_mem_singleton]
  exact ⟨hsingle rfl, hsingle rfl⟩

theorem range_unaliased : ∀ t ∈ Catalog.range.preorder, t.Unaliased := by
  have hpreorder : Catalog.range.preorder = [Catalog.range] := rfl
  have hfields : ∀ f ∈ Catalog.range.fields, f.wireKey = f.name := by decide
  rw [hpreorder, List.forall_mem_singleton]
  exact hfields

/-- A team, whose fields have aliases, is built as it is decoded; a range, whose fields have none,
is decoded as it is built. -/
theorem team_construct_agrees :
    let members : List (String × Json) :=
      [("teamMembers", .arr [.obj [("userId", .str "a")], .obj [("userId", .str "b")]])]
    let bounds : List (String × Json) := [("lt", .null), ("gt", .int 1)]
    team.Built ∧ (∀ t ∈ team.preorder, t.Unshadowed) ∧ (Json.obj members).Proper ∧
      (∃ r, team.decode .reject (.obj members) = .ok (some r) ∧
        team.construct (members.map fun e ↦ (e.1, .json e.2)) = .ok r) ∧
      Catalog.range.Built ∧ (∀ t ∈ Catalog.range.preorder, t.Unaliased) ∧
      (Json.obj bounds).Proper ∧
      ∃ r, Catalog.range.construct (bounds.map fun e ↦ (e.1, .json e.2)) = .ok r ∧
        Catalog.range.decode .reject (.obj bounds) = .ok (some r) := by
  intro members bounds
  have hmembers : (Json.obj members).Proper := by
    refine .obj (by decide) (List.forall_mem_singleton.mpr (.arr ?_))
    rw [List.forall_mem_cons, List.forall_mem_singleton]
    exact ⟨.obj (by decide) (List.forall_mem_singleton.mpr (.str _)),
      .obj (by decide) (List.forall_mem_singleton.mpr (.str _))⟩
  have hbounds : (Json.obj bounds).Proper := by
    refine .obj (by decide) ?_
    rw [List.forall_mem_cons, List.forall_mem_singleton]
    exact ⟨.null, .num _⟩
  have hdecode : team.decode .reject (.obj members) = .ok (some _) := rfl
  have hconstruct : Catalog.range.construct (bounds.map fun e ↦ (e.1, .json e.2)) = .ok _ := rfl
  have hunshadowed : ∀ t ∈ Catalog.range.preorder, t.Unshadowed := fun t ht ↦
    unshadowed_of_unaliased (Catalog.range_built.of_mem_preorder t ht) (range_unaliased t ht)
  refine ⟨team_built, team_unshadowed, hmembers, ⟨_, hdecode, ?_⟩, Catalog.range_built,
    range_unaliased, hbounds, _, hconstruct, ?_⟩
  · exact (construct_agrees_with_decode team_built team_unshadowed hmembers).1 hdecode
  · exact (construct_agrees_with_decode Catalog.range_built hunshadowed hbounds).2
      range_unaliased hconstruct

end Schema

end

end TypedRecord
