import TypedRecord.Proofs.Pointer
import TypedRecord.Proofs.Record.Reading
import TypedRecord.Proofs.Schema.Lookup
import TypedRecord.Record.Access

namespace TypedRecord

theorem Path.under_inj {p q : Path} {a b : Path.Step} : p.under a = q.under b ↔ a = b ∧ p = q := by
  obtain ⟨ps⟩ := p
  obtain ⟨qs⟩ := q
  simp [Path.under]

theorem Path.under_ne_root {p : Path} {a : Path.Step} : p.under a ≠ .root := by
  simp [Path.under, Path.root]

namespace FieldType

def step? (label : Field → String) : FieldType → Path.Step → Option FieldType
  | .record s, .key key => (s.fields.find? (label · = key)).map Field.type
  | .map values, .key _ => some values
  | .seq items _, .index _ => some items
  | _, _ => none

def follow? (label : Field → String) (t : FieldType) (p : Path) : Option FieldType :=
  p.steps.foldlM (step? label) t

variable {label : Field → String} {t u : FieldType}

theorem follow?_under {step : Path.Step} {p : Path} (h : t.step? label step = some u) :
    t.follow? label (p.under step) = u.follow? label p := by
  rw [follow?, Path.under, List.foldlM_cons, h]
  rfl

theorem step?_field {s : Schema} {f : Field} (hn : (s.fields.map label).Nodup)
    (hf : f ∈ s.fields) : (record s).step? label (.key (label f)) = some f.type := by
  rw [step?, find?_of_nodup hn hf]
  rfl

end FieldType

section

variable {unknown : UnknownKeys} {t u : FieldType} {json inner : Json} {p : Path}

theorem FieldType.Conforms.part {step : Path.Step} (h : t.Conforms unknown json)
    (ht : t.step? Field.wireKey step = some u) (hj : json.part? step.name = some inner) :
    inner = .null ∨ u.Conforms unknown inner := by
  cases t with
  | record s =>
    obtain ⟨entries, rfl, hf, -⟩ := conforms_record_iff.mp h
    cases step with
    | key name =>
      obtain ⟨f, hm, rfl⟩ := Option.map_eq_some_iff.mp ht
      obtain rfl : f.wireKey = name := by simpa using List.find?_some hm
      by_cases hn : inner = .null
      · exact .inl hn
      · exact .inr ((hf f (List.mem_of_find?_eq_some hm)).value inner hn hj)
    | index i => cases ht
  | seq items limits =>
    obtain ⟨elements, rfl, -, he⟩ := conforms_seq_iff.mp h
    cases step with
    | key name => cases ht
    | index i =>
      cases ht
      rw [Json.part?_index] at hj
      exact .inr (he inner (List.mem_of_getElem? hj))
  | map values =>
    obtain ⟨entries, rfl, he⟩ := conforms_map_iff.mp h
    cases step with
    | key name =>
      cases ht
      exact .inr (he _ (Entries.mem_of_get?_eq_some hj))
    | index i => cases ht
  | _ => cases ht

theorem Json.eq_null_of_pointer? (h : Json.null.pointer? p.pointer = some inner) :
    inner = .null := by
  obtain ⟨steps⟩ := p
  rw [Json.pointer?_pointer] at h
  cases steps with
  | nil =>
    cases h
    rfl
  | cons step rest => cases h

/-- What lies along a path of aliases conforms to the type along that path. -/
theorem FieldType.Conforms.follow (h : t.Conforms unknown json)
    (ht : t.follow? Field.wireKey p = some u) (hj : json.pointer? p.pointer = some inner) :
    inner = .null ∨ u.Conforms unknown inner := by
  obtain ⟨steps⟩ := p
  induction steps generalizing t json with
  | nil =>
    cases ht
    cases hj
    exact .inr h
  | cons step rest ih =>
    obtain ⟨v, hv, ht⟩ := Option.bind_eq_some_iff.mp ht
    obtain ⟨part, hp, hj⟩ :=
      Option.bind_eq_some_iff.mp ((Json.pointer?_under json step ⟨rest⟩).symm.trans hj)
    obtain rfl | hc := h.part hv hp
    · exact .inl (Json.eq_null_of_pointer? hj)
    · exact ih hc ht hj

end

namespace FieldType

/-- `u` is the type one step further in: payloads make the step `wire`, where fields go by alias,
and values the step `named`, where they go by name. -/
inductive Encloses : FieldType → Path.Step → Path.Step → FieldType → Prop
  | field {s : Schema} {f : Field} :
      f ∈ s.fields → Encloses (.record s) (.key f.wireKey) (.key f.name) f.type
  | element {items : FieldType} {limits : Limits} (i : Nat) :
      Encloses (.seq items limits) (.index i) (.index i) items
  | entry {values : FieldType} (key : String) : Encloses (.map values) (.key key) (.key key) values

inductive HasPart : FieldType → Path → Path → FieldType → Prop
  | here (t : FieldType) : HasPart t .root .root t
  | inside {t u v : FieldType} {step name : Path.Step} {wire named : Path} :
      t.Encloses step name u → HasPart u wire named v →
      HasPart t (wire.under step) (named.under name) v

variable {t u : FieldType} {step name : Path.Step}

theorem Encloses.built (h : t.Encloses step name u) (ht : t.Built) : u.Built := by
  cases h with
  | field hf => exact ht.record.field hf
  | element => exact ht.seq
  | entry => exact ht.map

theorem Encloses.step?_eq (h : t.Encloses step name u) (ht : t.Built) :
    t.step? Field.wireKey step = some u := by
  cases h with
  | field hf => exact step?_field ht.record.wireKeys hf
  | element => rfl
  | entry => rfl

end FieldType

theorem Value.follow?_under (v : Value) (step : Path.Step) (p : Path) :
    v.follow? (p.under step) = (v.step? step).bind fun part ↦ part.follow? p := rfl

end TypedRecord
