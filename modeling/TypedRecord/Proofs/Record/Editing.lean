import Mathlib.Logic.Function.Basic
import TypedRecord.Proofs.Catalog
import TypedRecord.Proofs.Record.Change
import TypedRecord.Proofs.Record.Supply

namespace TypedRecord

namespace Edit

variable {e : Edit} {s : Schema}

def write? (s : Schema) (e : Edit) : Option (Nat × Slot) := do
  let (f, i) ← s.locate? e.name
  let slot ← (e.outcome s.name f).toOption
  return (i, slot)

theorem write?_eq_some {i : Nat} {slot : Slot} (h : e.write? s = some (i, slot)) :
    ∃ f, s.fields[i]? = some f ∧ f.name = e.name ∧ f.Stands slot e.input? := by
  obtain ⟨⟨f, j⟩, hl, h⟩ := Option.bind_eq_some_iff.mp h
  obtain ⟨slot', hslot, h⟩ := Option.bind_eq_some_iff.mp h
  cases h
  obtain ⟨hi, hname⟩ := Schema.getElem?_of_locate? hl
  exact ⟨f, hi, hname, outcome_eq_ok.mp (toOption_eq_some.mp hslot)⟩

end Edit

/-- A record with the inputs that stand, by the names of the fields that have one. -/
structure History where
  record : Record
  input? : String → Option Input

namespace History

/-- A call that succeeds replaces what stands for its field. -/
def step (h : History) (e : Edit) : History where
  record := (e.perform h.record).2
  input? := match (e.perform h.record).1 with
    | .ok _ => Function.update h.input? e.name e.input?
    | .error _ => h.input?

def pairs (h : History) : List (String × Input) :=
  Entries.collect Field.name (fun f ↦ h.input? f.name) h.record.schema.fields

def Sound (h : History) : Prop :=
  List.Forall₂ (fun f slot ↦ f.Stands slot (h.input? f.name)) h.record.schema.fields
    h.record.slots

theorem step_eq (h : History) (e : Edit) : h.step e = match e.write? h.record.schema with
    | none => h
    | some (i, slot) => ⟨{ h.record with slots := h.record.slots.set i slot },
        Function.update h.input? e.name e.input?⟩ := by
  rw [step, Edit.perform_eq, Edit.write?]
  cases h.record.schema.locate? e.name with
  | none => rfl
  | some p =>
    obtain ⟨f, i⟩ := p
    simp only [Option.bind_eq_bind, Option.bind_some]
    cases e.outcome h.record.schema.name f <;> rfl

theorem step_of_error (h : History) {e : Edit} {error : ValidationError}
    (he : (e.perform h.record).1 = .error error) : h.step e = h := by
  rw [step, Edit.perform_of_error he, he]

theorem step_schema (h : History) (e : Edit) : (h.step e).record.schema = h.record.schema := by
  rw [step_eq]
  cases e.write? h.record.schema <;> rfl

theorem step_comm (h : History) {e e' : Edit} (hne : e.name ≠ e'.name) :
    (h.step e).step e' = (h.step e').step e := by
  rw [step_eq (h.step e), step_eq (h.step e'), step_schema, step_schema, step_eq h e, step_eq h e']
  cases hw : e.write? h.record.schema with
  | none => cases e'.write? h.record.schema <;> rfl
  | some w =>
    cases hw' : e'.write? h.record.schema with
    | none => rfl
    | some w' =>
      obtain ⟨f, hf, hname, -⟩ := Edit.write?_eq_some hw
      obtain ⟨g, hg, hname', -⟩ := Edit.write?_eq_some hw'
      have hij : w.1 ≠ w'.1 := by
        intro he
        rw [he, hg] at hf
        cases hf
        exact hne (hname.symm.trans hname')
      simp only [List.set_comm w.2 w'.2 hij,
        Function.update_comm hne e.input? e'.input? h.input?]

theorem Sound.step {h : History} (hn : (h.record.schema.fields.map Field.name).Nodup)
    (hs : h.Sound) (e : Edit) : (h.step e).Sound := by
  rw [step_eq]
  cases hw : e.write? h.record.schema with
  | none => exact hs
  | some w =>
    obtain ⟨f, hi, hname, hstands⟩ := Edit.write?_eq_some hw
    refine forall₂_set_of_ne hs hi ?_ ?_
    · simpa only [hname, Function.update_self] using hstands
    · intro j g hj hg slot hslot
      have hne : g.name ≠ e.name := by
        intro he
        exact hj (place_eq_of_nodup hn hg hi (he.trans hname.symm))
      simpa only [Function.update_of_ne hne] using hslot

theorem Sound.run {h : History} (hn : (h.record.schema.fields.map Field.name).Nodup)
    (hs : h.Sound) (edits : List Edit) :
    (edits.foldl History.step h).record.schema = h.record.schema ∧
      (edits.foldl History.step h).Sound := by
  induction edits generalizing h with
  | nil => exact ⟨rfl, hs⟩
  | cons e rest ih =>
    have hschema := h.step_schema e
    obtain ⟨hrest, hsound⟩ := ih (hschema ▸ hn) (hs.step hn e)
    exact ⟨hrest.trans hschema, hsound⟩

theorem exists_meant_of_mem_pairs {h : History} (hb : h.record.schema.Built)
    {e : String × Input} (he : e ∈ h.pairs) :
    ∃ f, h.record.schema.meant? e.1 = some f ∧ f.name = e.1 ∧ h.input? f.name = some e.2 := by
  obtain ⟨f, hf, hname, hinput⟩ := Entries.mem_collect.mp he
  exact ⟨f, hname ▸ Schema.meant?_name hb hf, hname, hinput⟩

theorem rekey_pairs {h : History} (hb : h.record.schema.Built) :
    h.record.schema.rekey Field.name h.pairs = h.pairs := by
  refine (List.map_congr_left fun e he ↦ ?_).trans (List.map_id h.pairs)
  obtain ⟨f, hmeant, hname, -⟩ := exists_meant_of_mem_pairs hb he
  rw [hmeant, Option.map_some, hname]
  rfl

theorem get?_pairs {h : History} (hb : h.record.schema.Built) {f : Field}
    (hf : f ∈ h.record.schema.fields) : Entries.get? f.name h.pairs = h.input? f.name := by
  unfold pairs
  exact Entries.get?_collect hb.names hf

/-- The inputs that stand make up the record. -/
theorem Sound.construct_pairs {h : History} (hb : h.record.schema.Built) (hs : h.Sound) :
    h.record.schema.construct h.pairs = .ok h.record := by
  have hm : ∀ e ∈ h.pairs, ∃ f, h.record.schema.meant? e.1 = some f := by
    intro e he
    obtain ⟨f, hf, -⟩ := exists_meant_of_mem_pairs hb he
    exact ⟨f, hf⟩
  have hn : (h.pairs.map fun e ↦ h.record.schema.meant? e.1).Nodup := by
    rw [← Schema.nodup_rekey_iff hb.names hm, rekey_pairs hb]
    exact Entries.nodup_collect hb.names
  have hstands : ∀ f ∈ h.record.schema.fields, ∃ slot, f.Stands slot (h.input? f.name) := by
    intro f hf
    obtain ⟨slot, -, hslot⟩ := exists_of_mem_outcomes hs.flip hf
    exact ⟨slot, hslot⟩
  refine (Schema.construct_eq_ok_iff hb).mpr ⟨⟨?_, hn, ?_⟩, rfl, ?_⟩
  · intro e he
    obtain ⟨f, hmeant, -, hinput⟩ := exists_meant_of_mem_pairs hb he
    obtain ⟨slot, hslot⟩ := hstands f (Schema.mem_of_meant? hmeant)
    rw [hinput] at hslot
    exact ⟨f, hmeant, slot, hslot⟩
  · intro f hf hq
    obtain ⟨slot, hslot⟩ := hstands f hf
    cases hinput : h.input? f.name with
    | none =>
      rw [hinput] at hslot
      exact absurd hq (Bool.eq_false_iff.mp hslot.1)
    | some input =>
      exact ⟨(f.name, input), Entries.mem_collect.mpr ⟨f, hf, rfl, hinput⟩,
        Schema.meant?_name hb hf⟩
  · rw [List.forall₂_iff_zip]
    refine ⟨hs.length_eq, fun {f slot} hz ↦ ?_⟩
    have hf := (List.of_mem_zip hz).1
    have hslot : f.Stands slot (h.input? f.name) := List.forall₂_zip hs hz
    rw [Schema.settles_iff hb.names hm hf hn, rekey_pairs hb, get?_pairs hb hf]
    cases hinput : h.input? f.name with
    | none =>
      rw [hinput] at hslot
      exact .inl ⟨rfl, hslot.2⟩
    | some input =>
      rw [hinput] at hslot
      exact .inr ⟨input, rfl, hslot⟩

end History

namespace Schema

variable {s : Schema} {inputs moved : List (String × Input)} {r : Record}

def given? (s : Schema) (inputs : List (String × Input)) (name : String) : Option Input :=
  Entries.get? name (s.rekey Field.name inputs)

theorem sound_of_construct (hs : s.Built) (h : s.construct inputs = .ok r) :
    r.schema = s ∧ History.Sound ⟨r, s.given? inputs⟩ := by
  obtain ⟨hc, rfl, hslots⟩ := (construct_eq_ok_iff hs).mp h
  have hm : ∀ e ∈ inputs, ∃ f, r.schema.meant? e.1 = some f := by
    intro e he
    obtain ⟨f, hf, -⟩ := hc.meant e he
    exact ⟨f, hf⟩
  refine ⟨rfl, List.forall₂_iff_zip.mpr ⟨hslots.length_eq, fun {f slot} hz ↦ ?_⟩⟩
  have hf := (List.of_mem_zip hz).1
  have hsettles := List.forall₂_zip hslots hz
  obtain ⟨hnone, habsent⟩ | ⟨input, hinput, hslot⟩ :=
    (settles_iff hs.names hm hf hc.distinct).mp hsettles
  · simp only [given?, hnone]
    refine ⟨Bool.eq_false_iff.mpr fun hq ↦ ?_, habsent⟩
    obtain ⟨e, he, hmeant⟩ := hc.required f hf hq
    have hsome := (get?_rekey hs.names hm hf hc.distinct).mpr ⟨e, he, hmeant, rfl⟩
    rw [hnone] at hsome
    cases hsome
  · simp only [given?, hinput]
    exact hslot

theorem construct_of_perm (hs : s.Built) (hp : moved.Perm inputs)
    (h : s.construct inputs = .ok r) : s.construct moved = .ok r := by
  refine (construct_respelled hs ⟨moved, hp, ?_⟩).mp h
  exact List.forall₂_same.mpr fun e _ ↦ ⟨.inl rfl, fun _ _ ↦ .refl _⟩

/-- Calls that fail leave the record as it was, and which ones do is settled by the schema. In the end the
record is the one built at once from the inputs that stand, in any order; so calls for different
fields can be swapped. -/
theorem construct_after_edits (hs : s.Built) (hr : s.construct inputs = .ok r) :
    (∀ (h : History) (e : Edit) error, (e.perform h.record).1 = .error error →
      (e.perform h.record).2 = h.record ∧ h.step e = h) ∧
    (∀ e : Edit, ∀ r₁ r₂ : Record, r₁.schema = s → r₂.schema = s →
      (e.perform r₁).1 = (e.perform r₂).1) ∧
    (∀ edits : List Edit, ∀ moved, moved.Perm
      (edits.foldl History.step ⟨r, s.given? inputs⟩).pairs →
        s.construct moved = .ok (edits.foldl History.step ⟨r, s.given? inputs⟩).record) ∧
    ∀ h : History, ∀ e e' : Edit, e.name ≠ e'.name → (h.step e).step e' = (h.step e').step e := by
  refine ⟨?_, ?_, ?_, ?_⟩
  · intro h e error he
    exact ⟨Edit.perform_of_error he, h.step_of_error he⟩
  · exact fun e r₁ r₂ h₁ h₂ ↦ e.perform_congr (h₁.trans h₂.symm)
  · intro edits moved hp
    obtain ⟨rfl, hsound⟩ := sound_of_construct hs hr
    obtain ⟨hschema, hfinal⟩ := hsound.run hs.names edits
    apply construct_of_perm hs hp
    have hpairs := hfinal.construct_pairs (hschema.symm ▸ hs)
    rwa [hschema] at hpairs
  · exact fun h e e' hne ↦ h.step_comm hne

def rangeCondition (boolean matchAll : Slot) : Record := ⟨Catalog.fieldCondition,
  [.set (.scalar (.str "x")), boolean, matchAll, .absent, .set (.record ⟨Catalog.range,
    [.set (.scalar (.int 1)), .absent, .absent, .absent]⟩)]⟩

theorem rangeCondition_after_edits :
    let range : Input := .json (.obj [("gt", .int 1)])
    let inputs : List (String × Input) := [("range", range), ("field", .json (.str "x")),
      ("boolean", .json (.bool true))]
    let start : History := ⟨rangeCondition (.set (.scalar (.bool true))) .absent,
      Catalog.fieldCondition.given? inputs⟩
    let edits : List Edit := [.set "field" .null, .set "match_all" .null, .clear "boolean",
      .clear "field", .clear "fields"]
    Catalog.fieldCondition.Built ∧ Catalog.fieldCondition.construct inputs = .ok start.record ∧
      (∃ error, ((Edit.set "field" .null).perform start.record).1 = .error error) ∧
      ((Edit.set "field" .null).perform start.record).2 = start.record ∧
      start.step (.set "field" .null) = start ∧
      (edits.foldl History.step start).record = rangeCondition .absent .null ∧
      Catalog.fieldCondition.construct
        [("match_all", .null), ("range", range), ("field", .json (.str "x"))] =
          .ok (rangeCondition .absent .null) ∧
      (start.step (.set "match_all" .null)).step (.clear "boolean") =
        (start.step (.clear "boolean")).step (.set "match_all" .null) := by
  intro range inputs start edits
  have hr : Catalog.fieldCondition.construct inputs = .ok start.record := rfl
  have hfails : ∃ error, ((Edit.set "field" .null).perform start.record).1 = .error error :=
    ⟨_, rfl⟩
  obtain ⟨error, hfailed⟩ := hfails
  obtain ⟨hkeeps, -, hrun, hcomm⟩ := construct_after_edits Catalog.fieldCondition_built hr
  obtain ⟨hleft, hstep⟩ := hkeeps start _ error hfailed
  have hset : start.step (.set "match_all" .null) =
      ⟨rangeCondition (.set (.scalar (.bool true))) .null,
        Function.update start.input? "match_all" (some .null)⟩ := rfl
  have hfinal : edits.foldl History.step start = ⟨rangeCondition .absent .null,
      Function.update (Function.update start.input? "match_all" (some .null)) "boolean" none⟩ := by
    rw [List.foldl_cons, hstep, List.foldl_cons, hset]
    rfl
  have hpairs : (edits.foldl History.step start).pairs =
      [("field", .json (.str "x")), ("match_all", .null), ("range", range)] := by
    rw [hfinal]
    rfl
  refine ⟨Catalog.fieldCondition_built, hr, ⟨error, hfailed⟩, hleft, hstep, ?_, ?_, ?_⟩
  · rw [hfinal]
  · have hmade := hrun edits [("match_all", .null), ("range", range), ("field", .json (.str "x"))]
    rw [hpairs, hfinal] at hmade
    exact hmade (@List.perm_append_comm _ [("match_all", .null), ("range", range)] _)
  · exact hcomm start _ _ (by decide)

end Schema
end TypedRecord
