import TypedRecord.Proofs.Random.Draws
import TypedRecord.Proofs.Record.Acceptance
import TypedRecord.Proofs.Sample

namespace TypedRecord

variable {σ : Type} [WordSource σ]

namespace Draw

theorem letter_yields : (letter : Draw σ Char).Yields fun _ ↦ True :=
  (below_yields _ _ _).bind fun _ _ ↦ .pure trivial

theorem lengthWithin_yields (limits : Limits) (slack : ℕ) :
    (lengthWithin limits slack : Draw σ ℕ).Yields fun n ↦
      limits.min.getD 0 ≤ n ∧
        n ≤ max (limits.max.getD (limits.min.getD 0 + slack)) (limits.min.getD 0) :=
  (between_yields _ _).mono fun _ hn ↦ ⟨hn.1, hn.2 (Nat.le_max_right _ _)⟩

theorem text_yields {limits : Limits} {p : ℕ → Prop}
    (h : (lengthWithin limits textSlack : Draw σ ℕ).Yields p) :
    (text limits : Draw σ String).Yields fun s ↦ p s.length := by
  refine h.bind fun length hlength ↦ ?_
  refine (Yields.times (fun _ ↦ letter_yields) length).bind fun out hout ↦ .pure ?_
  rwa [String.length_ofList, hout.1]

theorem intWithin_yields (range : Range) :
    (intWithin range : Draw σ Binary64).Yields fun _ ↦ True :=
  .ite (.pure trivial) ((intBetween_yields _ _).bind fun _ _ ↦ .pure trivial)

theorem numWithin_yields (range : Range) :
    (numWithin range : Draw σ Binary64).Yields fun _ ↦ True :=
  unit_within.bind fun _ _ ↦ .pure trivial

theorem untyped_yields :
    (untyped : Draw σ Json).Yields fun json ↦ json.Proper ∧ json ≠ .null := by
  refine (below_yields _ _ _).bind fun choice _ ↦ ?_
  split
  · exact coin_yields.bind fun _ _ ↦ .pure ⟨.bool _, nofun⟩
  · exact (floatBetween_yields (by decide +kernel)).bind fun _ _ ↦ .pure ⟨.num _, nofun⟩
  · exact (text_yields (lengthWithin_yields _ _)).bind fun _ _ ↦ .pure ⟨.str _, nofun⟩
  · have hnum : ∀ x, (Json.obj [("n", .wholeNumber x)]).Proper := fun x ↦
      .obj (List.nodup_singleton _) (List.forall_mem_singleton.mpr (.num _))
    exact (floatBetween_yields (by decide +kernel)).bind fun _ _ ↦ .pure ⟨hnum _, nofun⟩

end Draw

open Draw

namespace Field

variable {p : Field → Json → Prop}

/-- One field is left out, null or drawn; either way its entry is supplied as it should be. -/
theorem random_yields {f : Field} (hn : f.nullable = true → p f .null)
    (h : (f.type.random : Draw σ Json).Yields (p f)) :
    (f.random : Draw σ _).Yields (Supplied p [f]) := by
  have hone : ∀ json, p f json → Supplied p [f] [(f.name, json)] := by
    intro json hj
    refine ⟨.refl _, ?_, ?_⟩
    · simpa using hj
    · simp
  have hvalue : (do return [(f.name, ← f.type.random)] : Draw σ _).Yields (Supplied p [f]) :=
    h.bind fun json hj ↦ .pure (hone json hj)
  have hpresent : (if f.nullable = true then do
        if ← oneInFour then return [(f.name, .null)]
        return [(f.name, ← f.type.random)]
      else do return [(f.name, ← f.type.random)] : Draw σ _).Yields (Supplied p [f]) :=
    .branch (fun hf ↦ oneInFour_yields.bind fun _ _ ↦ .ite (.pure (hone .null (hn hf))) hvalue)
      fun _ ↦ hvalue
  have hleft : f.required = false → Supplied p [f] [] := by
    intro hq
    exact ⟨List.nil_sublist _, by simp, by simp [hq]⟩
  cases f with
  | mk name wireKey type required nullable description =>
    refine .branch (fun hq ↦ coin_yields.bind fun _ _ ↦ .ite (.pure (hleft ?_)) hpresent)
      fun _ ↦ hpresent
    simpa using hq

theorem randomAll_yields {fields : List Field} (hn : ∀ f ∈ fields, f.nullable = true → p f .null)
    (h : ∀ f ∈ fields, (f.type.random : Draw σ Json).Yields (p f)) :
    (randomAll fields : Draw σ _).Yields (Supplied p fields) := by
  induction fields with
  | nil => exact .pure ⟨.refl _, by simp, by simp⟩
  | cons f rest ih =>
    rw [List.forall_mem_cons] at hn h
    rw [randomAll]
    exact (random_yields hn.1 h.1).bind fun entries he ↦
      (ih hn.2 h.2).bind fun others ho ↦ .pure (he.append ho)

end Field

theorem Schema.randomEntries_yields {p : Field → Json → Prop} {s : Schema}
    (hn : ∀ f ∈ s.fields, f.nullable = true → p f .null)
    (h : ∀ f ∈ s.fields, (f.type.random : Draw σ Json).Yields (p f)) :
    (s.randomEntries : Draw σ _).Yields (Field.Supplied p s.fields) := by
  cases s
  exact Field.randomAll_yields hn h

theorem Schema.randomEntries_proper {s : Schema} (hs : (s.fields.map Field.name).Nodup)
    (h : ∀ f ∈ s.fields, (f.type.random : Draw σ Json).Yields Json.Proper) :
    (s.randomEntries : Draw σ _).Yields fun entries ↦ (Json.obj entries).Proper := by
  refine (Schema.randomEntries_yields (p := fun _ ↦ Json.Proper) (fun _ _ _ ↦ .null) h).mono ?_
  intro entries he
  refine .obj (hs.sublist he.keys) fun e hm ↦ ?_
  obtain ⟨_, -, -, hv⟩ := he.values e hm
  exact hv

theorem Decimal.digitText_injective : Function.Injective digitText := by
  intro m n h
  have hd : Nat.toDigits 10 m = Nat.toDigits 10 n := String.ofList_injective h
  rw [← Nat.ofDigitChars_ten_toDigits (n := m), hd, Nat.ofDigitChars_ten_toDigits]

namespace FieldType

variable {p : Json → Prop}

theorem randomAt_yields {members : List FieldType} {i : ℕ} (hi : i < members.length)
    (h : ∀ t ∈ members, (t.random : Draw σ Json).Yields p) :
    (randomAt members i : Draw σ Json).Yields p := by
  induction members generalizing i with
  | nil => exact absurd hi (Nat.not_lt_zero i)
  | cons t rest ih =>
    cases i with
    | zero => exact h t List.mem_cons_self
    | succ i =>
      exact ih (Nat.lt_of_succ_lt_succ hi) fun u hu ↦ h u (List.mem_cons_of_mem _ hu)

theorem random_enum_yields {e : Enumeration} (hnull : e.values = [] → p .null)
    (h : ∀ value ∈ e.values, p (.str value)) : ((enum e).random : Draw σ Json).Yields p := by
  refine .branch (fun he ↦ .pure (hnull (List.isEmpty_iff.mp he))) fun he ↦ ?_
  have hlength := List.length_pos_iff.mpr fun hnil ↦ he (List.isEmpty_iff.mpr hnil)
  refine (between_yields _ _).bind fun i hi ↦ .pure ?_
  have hi' : i < e.values.length := by omega
  rw [List.getElem?_eq_getElem hi']
  exact h _ (List.getElem_mem hi')

theorem random_union_yields {members : List FieldType} (hnull : members = [] → p .null)
    (h : ∀ t ∈ members, (t.random : Draw σ Json).Yields p) :
    ((union members).random : Draw σ Json).Yields p := by
  refine .branch (fun hm ↦ .pure (hnull (List.isEmpty_iff.mp hm))) fun hm ↦ ?_
  have hlength := List.length_pos_iff.mpr fun hnil ↦ hm (List.isEmpty_iff.mpr hnil)
  exact (between_yields _ _).bind fun i hi ↦ randomAt_yields (by omega) h

theorem random_seq_yields {items : FieldType} {limits : Limits} {q : ℕ → Prop}
    (hq : (lengthWithin limits itemSlack : Draw σ ℕ).Yields q)
    (h : (items.random : Draw σ Json).Yields p) :
    ((seq items limits).random : Draw σ Json).Yields fun json ↦
      ∃ elements, json = .arr elements ∧ q elements.length ∧ ∀ j ∈ elements, p j := by
  refine hq.bind fun count hcount ↦ (Yields.times (fun _ ↦ h) count).bind fun out hout ↦ ?_
  exact .pure ⟨out, rfl, hout.1 ▸ hcount, hout.2⟩

/-- The keys are numbered, so none is repeated. -/
theorem random_map_yields {values : FieldType} (h : (values.random : Draw σ Json).Yields p) :
    ((map values).random : Draw σ Json).Yields fun json ↦
      ∃ entries, json = .obj entries ∧ (entries.map Prod.fst).Nodup ∧ ∀ e ∈ entries, p e.2 := by
  have hentry : ∀ i, (do return ("k" ++ Decimal.digitText i, ← values.random) : Draw σ _).Yields
      fun e ↦ e.1 = "k" ++ Decimal.digitText i ∧ p e.2 :=
    fun i ↦ h.bind fun json hj ↦ .pure ⟨rfl, hj⟩
  refine (between_yields _ _).bind fun count _ ↦ ?_
  refine (Yields.timesFrom hentry 0 count).bind fun out ho ↦ .pure ⟨out, rfl, ?_, fun e he ↦ ?_⟩
  · have hkeys : out.map Prod.fst = (List.range' 0 count).map ("k" ++ Decimal.digitText ·) :=
      map_outcomes_eq (ho.imp fun _ _ h ↦ h.1)
    rw [hkeys]
    refine List.Nodup.map (fun m n h ↦ Decimal.digitText_injective ?_) (List.nodup_range' 1)
    exact (String.append_right_inj _).mp h
  · obtain ⟨_, -, -, hp⟩ := exists_of_mem_outcomes ho he
    exact hp

theorem random_proper {t : FieldType} : t.Built → (t.random : Draw σ Json).Yields Json.Proper := by
  induction t using FieldType.induction with
  | scalar t hs ih =>
    intro ht
    cases t with
    | str => exact (text_yields (lengthWithin_yields _ _)).bind fun _ _ ↦ .pure (.str _)
    | int => exact (intWithin_yields _).bind fun _ _ ↦ .pure (.num _)
    | num => exact (numWithin_yields _).bind fun _ _ ↦ .pure (Json.proper_float _)
    | bool => exact coin_yields.bind fun _ _ ↦ .pure (.bool _)
    | any => exact untyped_yields.mono fun _ hj ↦ hj.1
    | enum e => exact random_enum_yields (fun _ ↦ .null) fun value _ ↦ .str value
    | union members => exact random_union_yields (fun _ ↦ .null) fun t hm ↦ ih t hm (ht.member hm)
    | record | seq | map => simp [isScalar] at hs
  | record s ih =>
    intro ht
    have hs := ht.record
    exact (Schema.randomEntries_proper hs.names fun f hf ↦ ih f hf (hs.field hf)).bind
      fun entries he ↦ .pure he
  | seq items limits ih =>
    intro ht
    refine (random_seq_yields (lengthWithin_yields _ _) (ih ht.seq)).mono ?_
    rintro _ ⟨elements, rfl, -, hp⟩
    exact .arr hp
  | map values ih =>
    intro ht
    refine (random_map_yields (ih ht.map)).mono ?_
    rintro _ ⟨entries, rfl, hk, hp⟩
    exact .obj hk hp

/-- The draws of a value end if no single draw runs out of patience. -/
theorem random_returns {t : FieldType} (ht : t.Built) (hp : Draw.Patient σ) (state : σ) :
    ∃ json next, t.random state = some (json, next) :=
  (random_proper ht).returns hp state

end FieldType

namespace Schema

theorem Family.random_yields {known : Schema → Prop} {adopts : Schema → Schema → Prop}
    (hf : Family known adopts) {s : Schema} (hs : known s) :
    (s.random : Draw σ _).Yields fun outcome ↦
      ∀ r, outcome = .ok r → r.schema = s ∧ r.Whole adopts := by
  have hb := hf.built s hs
  refine (randomEntries_proper hb.names fun f hm ↦
    FieldType.random_proper (hb.field hm)).bind fun entries he ↦ .pure fun r hr ↦ ?_
  refine hf.construct_whole hs ?_ hr
  rw [List.forall_mem_map]
  exact fun e hm ↦ Input.sound_ofJson (he.entries e hm)

theorem Family.random_whole {known : Schema → Prop} {adopts : Schema → Schema → Prop}
    (hf : Family known adopts) {s : Schema} {state next : σ} {r : Record} (hs : known s)
    (h : s.random state = some (.ok r, next)) : r.schema = s ∧ r.Whole adopts :=
  (hf.random_yields hs).outcome state _ next h r rfl

theorem random_returns {s : Schema} (hs : s.Built) (hp : Draw.Patient σ) (state : σ) :
    ∃ outcome next, s.random state = some (outcome, next) :=
  (Family.ofBuilt.random_yields hs).returns hp state

end Schema

end TypedRecord
