import TypedRecord.Proofs.Json.Validation
import TypedRecord.Proofs.Record.Refusal
import TypedRecord.Schema.Export

namespace TypedRecord

section Comparison

theorem Binary64.le_eq_not_lt {x y : Binary64} (hx : x ≠ .nan) (hy : y ≠ .nan) :
    x.le y = !y.lt x := by
  cases x with
  | nan => exact absurd rfl hx
  | infinite a =>
    cases y with
    | nan => exact absurd rfl hy
    | infinite b => cases a <;> cases b <;> rfl
    | finite y => cases a <;> rfl
  | finite x =>
    cases y with
    | nan => exact absurd rfl hy
    | infinite b => cases b <;> rfl
    | finite y =>
      rw [le_finite, lt, ← decide_not]
      simp only [Int.not_lt]

theorem Binary64.ofQuotient_ne_nan (negative : Bool) (num den : Nat) :
    ofQuotient negative num den ≠ .nan := by
  rw [ofQuotient]
  split
  · simp
  · simp

theorem Json.Number.toBinary64_ne_nan (n : Json.Number) : n.toBinary64 ≠ .nan := by
  cases n with
  | int n =>
    rw [toBinary64, Binary64.ofInt]
    exact Binary64.ofQuotient_ne_nan _ _ _
  | float x => nofun

theorem Bound.holds_eq_not_violated (bound : Bound) {limit x : Binary64} (hl : limit ≠ .nan)
    (hx : x ≠ .nan) : bound.holds limit x = !bound.violated limit x := by
  have hnot : ∀ {y z : Binary64}, y ≠ .nan → z ≠ .nan → y.lt z = !z.le y :=
    fun hy hz ↦ by rw [Binary64.le_eq_not_lt hz hy, Bool.not_not]
  cases bound with
  | gt => exact hnot hl hx
  | gte => exact Binary64.le_eq_not_lt hl hx
  | lt => exact hnot hx hl
  | lte => exact Binary64.le_eq_not_lt hx hl

theorem Bound.holds_nan (bound : Bound) (x : Binary64) : bound.holds .nan x = false := by
  cases bound <;> cases x <;> simp [holds, Binary64.lt, Binary64.le, Binary64.equal]

theorem Bound.violated_nan (bound : Bound) (x : Binary64) : bound.violated .nan x = false := by
  cases bound <;> cases x <;> simp [violated, Binary64.lt, Binary64.le, Binary64.equal]

end Comparison

def Range.isFinite (r : Range) : Bool :=
  [r.gt, r.gte, r.lt, r.lte].all fun bound ↦ bound.all Binary64.isFinite

theorem FieldType.documents_eq_map (members : List FieldType) :
    documents members = members.map jsonSchema := by
  induction members with
  | nil => rfl
  | cons t rest ih =>
    rw [documents, ih]
    rfl

theorem Limits.keywords_eq (l : Limits) (minKey maxKey : String) : l.keywords minKey maxKey =
    Json.optionalEntry minKey (l.min.map fun n ↦ .num (.int (Int.ofNat n))) ++
      Json.optionalEntry maxKey (l.max.map fun n ↦ .num (.int (Int.ofNat n))) := by
  obtain ⟨min, max⟩ := l
  cases min <;> cases max <;> rfl

namespace Json

variable {document value : Json} {keywords : List Keyword}

theorem hasType_null_iff : value.HasType "null" ↔ value = .null := by
  cases value <;> simp [HasType, kind, Kind.name]

theorem hasType_boolean_iff : value.HasType "boolean" ↔ ∃ b, value = .bool b := by
  cases value <;> simp [HasType, kind, Kind.name]

theorem hasType_integer_iff : value.HasType "integer" ↔ ∃ n, value = .num (.int n) := by
  cases value <;> simp [HasType, kind, Kind.name]

theorem hasType_number_iff : value.HasType "number" ↔ ∃ n, value = .num n := by
  cases value <;> simp [HasType, kind, Kind.name]

theorem hasType_string_iff : value.HasType "string" ↔ ∃ s, value = .str s := by
  cases value <;> simp [HasType, kind, Kind.name]

theorem hasType_array_iff : value.HasType "array" ↔ ∃ elements, value = .arr elements := by
  cases value <;> simp [HasType, kind, Kind.name]

theorem hasType_object_iff : value.HasType "object" ↔ ∃ entries, value = .obj entries := by
  cases value <;> simp [HasType, kind, Kind.name]

theorem filterMap_string?_map (names : List String) : (names.map .str).filterMap string? = names := by
  induction names with
  | nil => rfl
  | cons name rest ih => simp [string?, ih]

theorem validates_append_iff {entries comments : List (String × Json)}
    (hc : ∀ e ∈ comments, Keyword.ofEntry e = .comment) :
    Validates document (.obj (entries ++ comments)) value ↔
      ∀ keyword ∈ entries.map Keyword.ofEntry,
        Meets document ((entries ++ comments).map Keyword.ofEntry) keyword value := by
  rw [validates_obj_iff]
  constructor
  · intro h keyword hm
    apply h
    rw [List.map_append]
    exact List.mem_append_left _ hm
  · intro h keyword hm
    rw [List.map_append, List.mem_append] at hm
    obtain hm | hm := hm
    · exact h keyword hm
    · obtain ⟨e, he, rfl⟩ := List.mem_map.mp hm
      rw [hc e he]
      exact .comment

theorem forall_optionalEntry_iff {p : Keyword → Prop} {key : String} {arg : Option Json} :
    (∀ keyword ∈ (optionalEntry key arg).map Keyword.ofEntry, p keyword) ↔
      ∀ x, arg = some x → p (Keyword.ofEntry (key, x)) := by
  cases arg with
  | none => simp [optionalEntry]
  | some x => simp [optionalEntry]

/-- A keyword that is left out where it would say nothing. -/
theorem forall_listed_iff {α : Type} {p : Keyword → Prop} {items : List α} {entry : String × Json}
    (h : items = [] → p (Keyword.ofEntry entry)) :
    (∀ keyword ∈ (if items.isEmpty then [] else [entry]).map Keyword.ofEntry, p keyword) ↔
      p (Keyword.ofEntry entry) := by
  cases items with
  | nil => simpa using h rfl
  | cons => simp

theorem meets_type_iff {name : String} :
    Meets document keywords (Keyword.ofEntry ("type", .str name)) value ↔ value.HasType name := by
  refine meets_assertion_iff.trans ?_
  simp [Assertion.Holds]

theorem meets_limits_iff (measured : Measured) {minKey maxKey : String}
    (hmin : ∀ n, Keyword.ofEntry (minKey, .num (.int n)) = .assertion (.least measured n))
    (hmax : ∀ n, Keyword.ofEntry (maxKey, .num (.int n)) = .assertion (.most measured n))
    {limits : Limits} :
    (∀ keyword ∈ (limits.keywords minKey maxKey).map Keyword.ofEntry,
      Meets document keywords keyword value) ↔
      ∀ length, value.length? measured = some length → limits.Allows length := by
  simp only [Limits.keywords_eq, List.map_append, List.forall_mem_append, forall_optionalEntry_iff,
    Option.map_eq_some_iff, forall_exists_index, and_imp, forall_apply_eq_imp_iff₂, hmin, hmax,
    meets_assertion_iff, Assertion.Holds, Int.ofNat_eq_natCast, Int.ofNat_le]
  constructor
  · intro h length hl
    exact ⟨fun m hm ↦ h.1 m hm length hl, fun m hm ↦ h.2 m hm length hl⟩
  · intro h
    exact ⟨fun m hm length hl ↦ (h length hl).min m hm, fun m hm length hl ↦ (h length hl).max m hm⟩

theorem meets_stringLimits_iff {limits : Limits} :
    (∀ keyword ∈ (limits.keywords "minLength" "maxLength").map Keyword.ofEntry,
      Meets document keywords keyword value) ↔
      ∀ s, value = .str s → limits.Allows s.length := by
  refine (meets_limits_iff .string (fun _ ↦ rfl) fun _ ↦ rfl).trans ?_
  cases value <;> simp [length?]

theorem meets_arrayLimits_iff {limits : Limits} :
    (∀ keyword ∈ (limits.keywords "minItems" "maxItems").map Keyword.ofEntry,
      Meets document keywords keyword value) ↔
      ∀ elements, value = .arr elements → limits.Allows elements.length := by
  refine (meets_limits_iff .array (fun _ ↦ rfl) fun _ ↦ rfl).trans ?_
  cases value <;> simp [length?]

theorem meets_bound_iff (bound : Bound) {key : String}
    (hkey : ∀ n, Keyword.ofEntry (key, .num n) = .assertion (.bound bound n.toBinary64))
    {limit : Option Binary64} (hlimit : limit.all Binary64.isFinite = true) :
    (∀ keyword ∈ (optionalEntry key (limit.map .float)).map Keyword.ofEntry,
      Meets document keywords keyword value) ↔
      ∀ n, value = .num n → ∀ x, limit = some x → bound.violated x n.toBinary64 = false := by
  rw [forall_optionalEntry_iff]
  cases limit with
  | none => simp
  | some x =>
    cases x with
    | finite x =>
      have hk : Keyword.ofEntry (key, float (.finite x)) = .assertion (.bound bound (.finite x)) :=
        hkey (.float x)
      have hx : ∀ n : Number, bound.holds (.finite x) n.toBinary64 =
          !bound.violated (.finite x) n.toBinary64 :=
        fun n ↦ bound.holds_eq_not_violated nofun n.toBinary64_ne_nan
      simp only [Option.map_some, Option.some.injEq, forall_eq', hk, meets_assertion_iff,
        Assertion.Holds, hx, Bool.not_eq_true']
    | nan | infinite => cases hlimit

theorem meets_range_iff {r : Range} (hr : r.isFinite = true) :
    (∀ keyword ∈ r.keywords.map Keyword.ofEntry, Meets document keywords keyword value) ↔
      ∀ n, value = .num n → r.Allows n := by
  simp only [Range.isFinite, List.all_cons, List.all_nil, Bool.and_true, Bool.and_eq_true] at hr
  obtain ⟨hgt, hgte, hlt, hlte⟩ := hr
  simp only [Range.keywords, List.map_append, List.forall_mem_append]
  rw [meets_bound_iff .gt (fun _ ↦ rfl) hgt, meets_bound_iff .gte (fun _ ↦ rfl) hgte,
    meets_bound_iff .lt (fun _ ↦ rfl) hlt, meets_bound_iff .lte (fun _ ↦ rfl) hlte]
  constructor
  · intro h n hn
    exact ⟨h.1.1.1 n hn, h.1.1.2 n hn, h.1.2 n hn, h.2 n hn⟩
  · intro h
    exact ⟨⟨⟨fun n hn ↦ (h n hn).gt, fun n hn ↦ (h n hn).gte⟩, fun n hn ↦ (h n hn).lt⟩,
      fun n hn ↦ (h n hn).lte⟩

end Json

end TypedRecord
