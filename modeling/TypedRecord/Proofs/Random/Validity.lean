import TypedRecord.Proofs.Random
import TypedRecord.Proofs.Random.Numbers
import TypedRecord.Proofs.Schema.Integrity

namespace TypedRecord

/-- If the type is one of numbers, its bounds are whole and of moderate size, and allow a number. -/
def FieldType.Drawable : FieldType → Prop
  | .int r => r.Whole ∧ ∃ n : ℤ, r.Holds n
  | .num r => r.Whole ∧ ∃ q : ℚ, r.Holds q
  | _ => True

variable {σ : Type} [WordSource σ]

theorem Draw.lengthWithin_allowed {limits : Limits} (hl : limits.Ordered) (slack : ℕ) :
    (lengthWithin limits slack : Draw σ ℕ).Yields limits.Allows := by
  refine (lengthWithin_yields limits slack).mono fun n hn ↦ ⟨fun m hm ↦ ?_, fun m hm ↦ ?_⟩
  · rw [hm] at hn
    exact hn.1
  · cases hmin : limits.min with
    | none =>
      rw [hmin, hm] at hn
      simpa using hn.2
    | some least =>
      have hle := hl least m hmin hm
      rw [hmin, hm] at hn
      exact hn.2.trans (Nat.max_le.mpr ⟨Nat.le_refl m, hle⟩)

namespace FieldType

theorem admits_wholeNumber {r : Range} (hr : r.isFinite = true) {x : Binary64} {n : ℤ}
    (hn : |n| ≤ 2 ^ 51) (hx : x.Denotes n) (h : r.Holds n) :
    (int r).Admits (.wholeNumber x) := by
  have hword : leastInt64 ≤ n ∧ n ≤ greatestInt64 := by
    rw [abs_le] at hn
    simp only [leastInt64, greatestInt64, Nat.pow_eq]
    omega
  rw [Json.wholeNumber, hx.toInt64 hword.1 hword.2]
  refine .int ((Range.allows_iff_holds hr ?_).mpr h)
  exact Binary64.denotes_ofInt (by omega)

theorem admits_float {r : Range} (hr : r.isFinite = true) {x : Binary64} {q : ℚ}
    (hx : x.Denotes q) (h : r.Holds q) : (num r).Admits (.float x) := by
  obtain ⟨f, rfl, hf⟩ := hx
  exact .num ((Range.allows_iff_holds hr ⟨f, rfl, hf⟩).mpr h)

theorem random_admits {t : FieldType} : t.isScalar → t.Built →
    (∀ u, t.Reaches (fun _ ↦ True) u → u.Drawable) →
    (t.random : Draw σ Json).Yields t.Admits := by
  induction t using FieldType.induction with
  | scalar t _ ih =>
    intro hs ht hd
    have hself := hd t (.refl t)
    have hw := flaw?_eq_none_iff.mp ht.flawless
    cases t with
    | str limits =>
      cases hw with
      | str hl =>
        exact (Draw.text_yields (Draw.lengthWithin_allowed hl _)).bind fun s hs ↦ .pure (.str hs)
    | int range =>
      refine (Draw.intWithin_holds hself.1 hself.2).bind fun x hx ↦ .pure ?_
      obtain ⟨n, hn, hx, h⟩ := hx
      exact admits_wholeNumber hself.1.isFinite hn hx h
    | num range =>
      refine (Draw.numWithin_holds hself.1 hself.2).bind fun x hx ↦ .pure ?_
      obtain ⟨q, hx, h⟩ := hx
      exact admits_float hself.1.isFinite hx h
    | bool => exact Draw.coin_yields.bind fun b _ ↦ .pure (.bool b)
    | any => exact Draw.untyped_yields.mono fun json hj ↦ .any hj.2
    | enum e =>
      cases hw with
      | enum hne => exact random_enum_yields (fun hnil ↦ absurd hnil hne) fun value hm ↦ .enum hm
    | union members =>
      cases hw with
      | union hne =>
        refine random_union_yields (fun hnil ↦ absurd hnil hne) fun u hu ↦ ?_
        exact (ih u hu (isScalar_of_isPrimitive (ht.members u hu).1) (ht.member hu)
          fun w hr ↦ hd w (.member hu hr)).mono fun json hj ↦ .union hu hj
    | record | seq | map => simp [isScalar] at hs
  | record | seq | map => intro hs; simp [isScalar] at hs

end FieldType

theorem Schema.randomEntries_accepted {s : Schema} (hs : s.Built)
    (h : ∀ f ∈ s.fields, (f.type.random : Draw σ Json).Yields f.type.Takes) :
    (s.randomEntries : Draw σ _).Yields fun entries ↦ ∃ r, s.accept .names entries = .ok r := by
  refine (Schema.randomEntries_yields (p := Field.Takes) (fun f _ hn ↦ ?_) fun f hf ↦ ?_).mono
    fun entries he ↦ (accept_names_iff hs he.keys).mpr he
  · exact Field.takes_iff.mpr (.inl ⟨rfl, hn⟩)
  · exact (h f hf).mono fun json hj ↦ Field.takes_iff.mpr (.inr hj)

theorem FieldType.random_taken {t : FieldType} : t.Built →
    (∀ u, t.Reaches (fun _ ↦ True) u → u.Drawable) →
    (t.random : Draw σ Json).Yields t.Takes := by
  induction t using FieldType.induction with
  | scalar t hs =>
    intro ht hd
    exact (random_admits hs ht hd).mono fun json hj ↦ (takes_scalar_iff hs ht).mpr hj
  | record s ih =>
    intro ht hd
    have hs := ht.record
    have hfields : ∀ f ∈ s.fields, (f.type.random : Draw σ Json).Yields f.type.Takes :=
      fun f hf ↦ ih f hf (hs.field hf) fun u hr ↦ hd u (.field hf trivial hr)
    exact (Schema.randomEntries_accepted hs hfields).bind fun entries he ↦
      .pure (takes_record_iff.mpr he)
  | seq items limits ih =>
    intro ht hd
    cases flaw?_eq_none_iff.mp ht.flawless with
    | seq hl =>
      refine (random_seq_yields (Draw.lengthWithin_allowed hl _)
        (ih ht.seq fun u hr ↦ hd u (.items hr))).mono ?_
      rintro _ ⟨elements, rfl, hcount, htaken⟩
      exact takes_seq_iff.mpr ⟨hcount, htaken⟩
  | map values ih =>
    intro ht hd
    refine (random_map_yields (ih ht.map fun u hr ↦ hd u (.values hr))).mono ?_
    rintro _ ⟨entries, rfl, -, htaken⟩
    exact takes_map_iff.mpr htaken

namespace Schema

/-- A record that is drawn is made, valid, and of the schema; and the value drawn for a type in it
is one that the type takes from a caller, never null. The draws come to an end if the source lets
each of them. -/
theorem random_valid {s : Schema} (hs : s.Built)
    (hd : ∀ t, (FieldType.record s).Reaches (fun _ ↦ True) t → t.Drawable) :
    (∀ (state : σ) outcome next, s.random state = some (outcome, next) →
      ∃ r, outcome = .ok r ∧ r.schema = s ∧ r.Valid) ∧
    (∀ t, (FieldType.record s).Reaches (fun _ ↦ True) t → ∀ (state : σ) json next,
      t.random state = some (json, next) → json ≠ .null ∧ ∃ v, t.check .names json = .ok v) ∧
    (Draw.Patient σ → ∀ state : σ, (∃ outcome next, s.random state = some (outcome, next)) ∧
      ∀ t, (FieldType.record s).Reaches (fun _ ↦ True) t →
        ∃ json next, t.random state = some (json, next)) := by
  have htaken : ∀ t, (FieldType.record s).Reaches (fun _ ↦ True) t →
      (t.random : Draw σ Json).Yields t.Takes :=
    fun t ht ↦ FieldType.random_taken (ht.built (.ofSchema hs)) fun u hu ↦ hd u (ht.trans hu)
  have hfields : ∀ f ∈ s.fields, (f.type.random : Draw σ Json).Yields f.type.Takes :=
    fun f hf ↦ htaken f.type (.field hf trivial (.refl _))
  have hmade : (s.random : Draw σ _).Yields fun outcome ↦ ∃ r, outcome = .ok r := by
    refine (randomEntries_accepted hs hfields).bind fun entries he ↦ .pure ?_
    rwa [← construct_ofJson] at he
  refine ⟨fun state outcome next h ↦ ?_, fun t ht state json next h ↦ ?_, fun hp state ↦ ?_⟩
  · obtain ⟨r, rfl⟩ := hmade.outcome state outcome next h
    exact ⟨r, rfl, Family.ofBuilt.random_whole hs h⟩
  · have hjson := (htaken t ht).outcome state json next h
    exact ⟨hjson.ne_null, hjson⟩
  · exact ⟨random_returns hs hp state, fun t ht ↦
      FieldType.random_returns (ht.built (.ofSchema hs)) hp state⟩

def mirror : Schema := ⟨7, "Mirror", none,
  [{ Field.plain "x" (.int { gt := some 0 }) true with wireKey := "y" },
    { Field.plain "y" (.num { lte := some 1 }) true with wireKey := "x", nullable := true }]⟩

def cabinet : Schema := ⟨8, "Cabinet", none, [.plain "mirror" (.record mirror) true]⟩

theorem cabinet_built : cabinet.Built := by
  refine .intro rfl fun t ht ↦ ?_
  obtain rfl := List.mem_singleton.mp ht
  exact .intro rfl nofun

theorem cabinet_drawable :
    ∀ t, (FieldType.record cabinet).Reaches (fun _ ↦ True) t → t.Drawable := by
  have hzero : (0 : Binary64).Denotes (0 : ℤ) := Binary64.denotes_ofInt (by decide)
  have hint : (FieldType.int { gt := some 0 }).Drawable := by
    refine ⟨fun x hx ↦ ?_, 1, (Range.holds_gt_iff hzero).mpr (by norm_num)⟩
    have hx : x = 0 := by simpa [Range.HasBound] using hx
    exact ⟨0, by decide, by rwa [hx]⟩
  have hnum : (FieldType.num { lte := some 1 }).Drawable := by
    refine ⟨fun x hx ↦ ?_, 1, (Range.holds_lte_iff Binary64.denotes_one).mpr (by norm_num)⟩
    have hx : x = 1 := by simpa [Range.HasBound] using hx
    exact ⟨1, by decide, by rw [hx]; exact Binary64.denotes_one⟩
  intro t ht
  simp +decide only [FieldType.reaches_record_iff, FieldType.reaches_primitive_iff, cabinet, mirror,
    Field.plain, List.mem_cons, List.not_mem_nil, or_false, exists_eq_or_imp, exists_eq_left,
    true_and] at ht
  obtain rfl | rfl | rfl | rfl := ht
  · trivial
  · trivial
  · exact hint
  · exact hnum

/-- The words never run out, so a record is drawn, and it is valid. Its keys are the names: the
second field is null under its own name. -/
theorem cabinet_random :
    let state : SuppliedWords := ⟨[0, 1, 2], ⟨0⟩⟩
    (∃ r next, cabinet.random state = some (.ok r, next) ∧ r.schema = cabinet ∧ r.Valid) ∧
      ∃ json next, (FieldType.record mirror).random state = some (json, next) ∧
        json ≠ .null ∧ ∃ v, (FieldType.record mirror).check .names json = .ok v := by
  intro state
  obtain ⟨hrecord, hvalue, hreturns⟩ :=
    random_valid (σ := SuppliedWords) cabinet_built cabinet_drawable
  obtain ⟨⟨outcome, next, h⟩, hvalues⟩ := hreturns SuppliedWords.patient state
  have hreached : (FieldType.record cabinet).Reaches (fun _ ↦ True) (.record mirror) :=
    .field (.head _) trivial (.refl _)
  obtain ⟨r, rfl, hr⟩ := hrecord state outcome next h
  obtain ⟨json, next', h'⟩ := hvalues _ hreached
  exact ⟨⟨r, next, h, hr⟩, json, next', h', hvalue _ hreached state json next' h'⟩

end Schema

end TypedRecord
