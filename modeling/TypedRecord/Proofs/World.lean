import TypedRecord.Proofs.Catalog
import TypedRecord.Proofs.Random
import TypedRecord.Proofs.Record.RoundTrip
import TypedRecord.Proofs.Schema.Reach

namespace TypedRecord

inductive Action : Type 1
  | declare (name : String) (description : Option String) (fields : List Field)
  | construct (s : Schema) (inputs : List (String × Input))
  | decode (s : Schema) (unknown : UnknownKeys) (payload : Json)
  | set (r : Record) (name : String) (input : Input)
  | clear (r : Record) (name : String)
  | sample (s : Schema) (withOptional : Bool)
  | random (s : Schema) {σ : Type} [WordSource σ] (state : σ)
  /-- Takes out a record that is nested in another. -/
  | part (r : Record) (path : Path)

structure World where
  registry : Registry
  schemas : List Schema
  records : List Record

/-- The record that a call gives, if it succeeds with one, or else leaves. -/
def Action.outcome? : Action → Option Record
  | .declare _ _ _ => none
  | .construct s inputs => (s.construct inputs).toOption
  | .decode s unknown payload => (s.decode unknown payload).toOption.join
  | .set r name input => some (Change.set name input r).2
  | .clear r name => some (Change.clear name r).2
  | .sample s withOptional => (s.sample withOptional).toOption
  | @random s _ _ state => (s.random state).bind fun outcome ↦ outcome.1.toOption
  | .part r path => ((Value.record r).follow? path).bind Value.record?

/-- Inputs can only be built from JSON, where objects repeat no key, and from records at hand. -/
def Input.Available (w : World) : Input → Prop
  | .null => True
  | .json value => value.Proper
  | .record r => r ∈ w.records
  | .records rs => ∀ r ∈ rs, r ∈ w.records

def Action.Permitted (w : World) : Action → Prop
  | .declare _ _ fields => ∀ f ∈ fields, ∀ s ∈ f.type.nested, s ∈ w.schemas
  | .construct s inputs => s ∈ w.schemas ∧ ∀ e ∈ inputs, e.2.Available w
  | .decode s _ payload => s ∈ w.schemas ∧ payload.Proper
  | .set r _ input => r ∈ w.records ∧ input.Available w
  | .clear r _ => r ∈ w.records
  | .sample s _ => s ∈ w.schemas
  | @random s _ _ _ => s ∈ w.schemas
  | .part r _ => r ∈ w.records

namespace World

def perform (w : World) (a : Action) : World :=
  match a with
  | .declare name description fields =>
    match w.registry.declare name description fields with
    | .ok (s, registry) => { w with registry, schemas := s :: w.schemas }
    | .error _ => w
  | a =>
    match a.outcome? with
    | some r => { w with records := r :: w.records }
    | none => w

/-- A program starts without any schema or record. -/
inductive Reachable : World → Prop
  | start (registry : Registry) : Reachable ⟨registry, [], []⟩
  | step {w : World} {a : Action} : Reachable w → a.Permitted w → Reachable (w.perform a)

/-- A schema at hand may stand for one that is the same declaration or equal. -/
def Adopts (w : World) (s t : Schema) : Prop := t ∈ w.schemas ∧ (s = t ∨ s.equal t = true)

structure Sound (w : World) : Prop where
  fresh : ∀ s ∈ w.schemas, s.serial < w.registry.next
  serial : ∀ s ∈ w.schemas, ∀ t ∈ w.schemas, s.serial = t.serial → s = t
  built : ∀ s ∈ w.schemas, s.Built
  nested : ∀ s ∈ w.schemas, ∀ t ∈ s.nested, t ∈ w.schemas
  schema : ∀ r ∈ w.records, r.schema ∈ w.schemas
  whole : ∀ r ∈ w.records, r.Whole w.Adopts

namespace Sound

variable {w : World}

/-- One serial number is one declaration, so what `sameAs` lets pass is adopted. -/
theorem family (hw : w.Sound) : Schema.Family (· ∈ w.schemas) w.Adopts where
  built := hw.built
  nested := hw.nested
  adopts s t hs ht h := by
    refine ⟨ht, ?_⟩
    rw [Schema.sameAs, Bool.or_eq_true, decide_eq_true_eq] at h
    exact h.imp_left (hw.serial s hs t ht)

theorem registered (hw : w.Sound) : Schema.Registered (· ∈ w.schemas) := ⟨hw.nested, hw.serial⟩

theorem input (hw : w.Sound) {input : Input} (h : input.Available w) :
    input.Sound (· ∈ w.schemas) w.Adopts := by
  cases input with
  | null => trivial
  | json value => exact h
  | record r => exact ⟨hw.schema r h, hw.whole r h⟩
  | records rs => exact fun r hr ↦ ⟨hw.schema r (h r hr), hw.whole r (h r hr)⟩

theorem start (registry : Registry) : Sound ⟨registry, [], []⟩ :=
  ⟨nofun, nofun, nofun, nofun, nofun, nofun⟩

/-- Whichever call gives a record, it is one of a schema at hand and whole. -/
theorem outcome (hw : w.Sound) {a : Action} (ha : a.Permitted w) {r : Record}
    (h : a.outcome? = some r) : r.schema ∈ w.schemas ∧ r.Whole w.Adopts := by
  have hf := hw.family
  have hknown : ∀ {s : Schema} {r : Record}, s ∈ w.schemas → r.schema = s ∧ r.Whole w.Adopts →
      r.schema ∈ w.schemas ∧ r.Whole w.Adopts :=
    fun hs hr ↦ ⟨hr.1 ▸ hs, hr.2⟩
  cases a with
  | declare => cases h
  | construct s inputs =>
    have hr := toOption_eq_some.mp h
    exact hknown ha.1 (hf.construct_whole ha.1 (fun e he ↦ hw.input (ha.2 e he)) hr)
  | decode s unknown payload =>
    have hr := toOption_eq_some.mp (Option.join_eq_some_iff.mp h)
    exact hknown ha.1 (hf.decode_whole ha.1 ha.2 hr)
  | set r₀ name input =>
    cases h
    have hs := hw.schema r₀ ha.1
    have hi : ∀ i, (Edit.set name input).input? = some i → i.Sound (· ∈ w.schemas) w.Adopts := by
      rintro _ ⟨⟩
      exact hw.input ha.2
    exact hknown hs (hf.perform_whole hs (hw.whole r₀ ha.1) hi)
  | clear r₀ name =>
    cases h
    have hs := hw.schema r₀ ha
    exact hknown hs (hf.perform_whole (e := .clear name) hs (hw.whole r₀ ha) nofun)
  | sample s withOptional =>
    have hr := toOption_eq_some.mp h
    exact hknown ha (hf.sample_whole ha hr)
  | random s state =>
    obtain ⟨⟨outcome, next⟩, hs, h⟩ := Option.bind_eq_some_iff.mp h
    have hr := toOption_eq_some.mp h
    subst hr
    exact hknown ha (hf.random_whole ha hs)
  | part r₀ path =>
    obtain ⟨v, hv, hr⟩ := Option.bind_eq_some_iff.mp h
    cases v with
    | record part =>
      cases hr
      have hs := hf.refl (hw.schema r₀ ha)
      obtain ⟨⟨s, hp⟩, hwhole⟩ := Record.follow?_whole hs (hw.whole r₀ ha) hv
      exact ⟨hp.1, hwhole⟩
    | scalar | list | map => cases hr

theorem declare (hw : w.Sound) {name : String} {description : Option String} {fields : List Field}
    (ha : ∀ f ∈ fields, ∀ s ∈ f.type.nested, s ∈ w.schemas) {s : Schema} {registry : Registry}
    (h : w.registry.declare name description fields = .ok (s, registry)) :
    Sound { w with registry, schemas := s :: w.schemas } := by
  unfold Registry.declare at h
  simp only at h
  split at h
  next => cases h
  next he =>
    cases h
    have hn : ∀ t ∈ Schema.nested ⟨w.registry.next, name, description, fields⟩, t ∈ w.schemas := by
      intro t ht
      obtain ⟨f, hf, ht⟩ := List.mem_flatMap.mp ht
      exact ha f hf t ht
    refine ⟨?_, ?_, ?_, ?_, ?_, ?_⟩
    · rw [List.forall_mem_cons]
      exact ⟨Nat.lt_succ_self _, fun t ht ↦ Nat.lt_succ_of_lt (hw.fresh t ht)⟩
    · rw [List.forall_mem_cons]
      refine ⟨List.forall_mem_cons.mpr ⟨fun _ ↦ rfl, fun u hu hs ↦ ?_⟩, fun t ht ↦
        List.forall_mem_cons.mpr ⟨fun hs ↦ ?_, hw.serial t ht⟩⟩
      · exact absurd hs (Nat.ne_of_gt (hw.fresh u hu))
      · exact absurd hs (Nat.ne_of_lt (hw.fresh t ht))
    · rw [List.forall_mem_cons]
      exact ⟨.intro he fun t ht ↦ hw.built t (hn t ht), hw.built⟩
    · rw [List.forall_mem_cons]
      exact ⟨fun t ht ↦ List.mem_cons_of_mem _ (hn t ht),
        fun u hu t ht ↦ List.mem_cons_of_mem _ (hw.nested u hu t ht)⟩
    · exact fun r hr ↦ List.mem_cons_of_mem _ (hw.schema r hr)
    · exact fun r hr ↦ (hw.whole r hr).mono fun _ _ h ↦ ⟨List.mem_cons_of_mem _ h.1, h.2⟩

theorem perform (hw : w.Sound) {a : Action} (ha : a.Permitted w) : (w.perform a).Sound := by
  have hrecord : ∀ r, r.schema ∈ w.schemas ∧ r.Whole w.Adopts →
      Sound { w with records := r :: w.records } := by
    intro r hr
    refine ⟨hw.fresh, hw.serial, hw.built, hw.nested, ?_, ?_⟩
    · exact List.forall_mem_cons.mpr ⟨hr.1, hw.schema⟩
    · exact List.forall_mem_cons.mpr ⟨hr.2, hw.whole⟩
  unfold World.perform
  split
  next name description fields =>
    split
    next s registry h => exact hw.declare ha h
    next => exact hw
  next =>
    split
    next r h => exact hrecord r (hw.outcome ha h)
    next => exact hw

end Sound

theorem Reachable.sound {w : World} (h : w.Reachable) : w.Sound := by
  induction h with
  | start registry => exact .start registry
  | step _ ha ih => exact ih.perform ha

theorem Adopts.sameAs {w : World} {s t : Schema} (h : w.Adopts s t) : s.sameAs t = true := by
  obtain ⟨-, rfl | h⟩ := h
  · exact s.sameAs_self
  · simp [Schema.sameAs, h]

theorem permitted_declare {w : World} {s : Schema} (h : ∀ t ∈ s.nested, t ∈ w.schemas) :
    (Action.declare s.name s.description s.fields).Permitted w :=
  fun f hf t ht ↦ h t (List.mem_flatMap.mpr ⟨f, hf, ht⟩)

def rangeFromOne : Record := ⟨Catalog.range, [.set (.scalar (.int 1)), .absent, .null, .absent]⟩

def condition (boolean matchAll : Slot) : Record := ⟨Catalog.fieldCondition,
  [.set (.scalar (.str "x")), boolean, matchAll, .absent, .set (.record rangeFromOne)]⟩

/-- One record nested in another one as it was, then an assignment that fails, one that succeeds,
and a field cleared. -/
theorem condition_reachable : ∃ w : World, w.Reachable ∧ Catalog.fieldCondition ∈ w.schemas ∧
    condition .absent .null ∈ w.records := by
  have h₁ : Reachable ⟨⟨1⟩, [Catalog.range], []⟩ :=
    (Reachable.start ⟨0⟩).step (permitted_declare (s := Catalog.range) nofun)
  have h₂ : Reachable ⟨⟨2⟩, [Catalog.fieldCondition, Catalog.range], []⟩ :=
    h₁.step (permitted_declare (s := Catalog.fieldCondition) fun _ ht ↦ ht)
  have h₃ : Reachable ⟨⟨2⟩, [Catalog.fieldCondition, Catalog.range], [rangeFromOne]⟩ :=
    h₂.step (a := .construct Catalog.range [("gt", .json (.int 1)), ("lt", .null)])
      ⟨.tail _ (.head _), List.forall_mem_cons.mpr ⟨.num _, List.forall_mem_singleton.mpr trivial⟩⟩
  have h₄ : Reachable ⟨⟨2⟩, [Catalog.fieldCondition, Catalog.range],
      [condition (.set (.scalar (.bool true))) .absent, rangeFromOne]⟩ := by
    refine h₃.step (a := .construct Catalog.fieldCondition
      [("range", .record rangeFromOne), ("field", .json (.str "x")),
        ("boolean", .json (.bool true))]) ⟨.head _, ?_⟩
    simp only [List.forall_mem_cons]
    exact ⟨.head _, .str _, .bool _, nofun⟩
  have h₅ := h₄.step (a := .set (condition (.set (.scalar (.bool true))) .absent) "field" .null)
    ⟨.head _, trivial⟩
  have h₆ := h₅.step (a := .set (condition (.set (.scalar (.bool true))) .absent) "match_all" .null)
    ⟨.head _, trivial⟩
  have h₇ := h₆.step (a := .clear (condition (.set (.scalar (.bool true))) .null) "boolean")
    (.head _)
  exact ⟨_, h₇, .head _, .head _⟩

/-- Every record that a program ever holds is valid, and its slots are found where the schema says
that they are. -/
theorem Reachable.record_valid {w : World} (hw : w.Reachable) {r : Record} (hr : r ∈ w.records) :
    r.schema.Built ∧ r.Valid ∧
      ∀ name f i, r.schema.locate? name = some (f, i) → i < r.slots.length := by
  have hs := hw.sound
  have hv : r.Valid := (hs.whole r hr).mono fun _ _ ↦ Adopts.sameAs
  refine ⟨hs.built _ (hs.schema r hr), hv, ?_⟩
  intro name f i h
  rw [hv.length]
  exact (List.getElem?_eq_some_iff.mp (Schema.getElem?_of_locate? h).1).1

theorem condition_valid : (∃ w : World, w.Reachable ∧ condition .absent .null ∈ w.records) ∧
    Catalog.fieldCondition.Built ∧ (condition .absent .null).Valid ∧
      ∀ name f i, Catalog.fieldCondition.locate? name = some (f, i) →
        i < (condition .absent .null).slots.length := by
  obtain ⟨w, hw, -, hr⟩ := condition_reachable
  exact ⟨⟨w, hw, hr⟩, hw.record_valid hr⟩

/-- Every record that a program ever holds can be encoded, and decodes to an equal one, with or
without tolerance for unknown keys. -/
theorem Reachable.round_trip {w : World} (hw : w.Reachable) {s : Schema} (hs : s ∈ w.schemas)
    (hn : s.nanFree = true) {r : Record} (hr : r ∈ w.records) (hsr : s.sameAs r.schema = true)
    (unknown : UnknownKeys) :
    ∃ payload, s.encode r = .ok payload ∧
      ∃ r', s.decode unknown payload = .ok (some r') ∧ r'.equal r = true := by
  have hsound := hw.sound
  have hf := hsound.family
  have hrs := hsound.schema r hr
  have hadopts : ∀ t u, w.Adopts t u → u.Built ∧ (t = u ∨ t.equal u = true) :=
    fun t u h ↦ ⟨hsound.built u h.1, h.2⟩
  have he : s.equal r.schema = true := by
    obtain ⟨-, he | he⟩ := hf.adopts s r.schema hs hrs hsr
    · exact he ▸ Schema.equal_self hn
    · exact he
  obtain ⟨entries, henc, hc, heq⟩ := Schema.record_returns (hsound.built s hs)
    (hsound.built r.schema hrs) he (hsound.whole r hr)
    fun f hm ↦ FieldType.value_returns hadopts ((hsound.built s hs).field hm)
  refine ⟨.obj entries, ?_, s.read entries, ?_, heq⟩
  · rw [Schema.encode, henc]
    rfl
  · rw [Schema.decode_eq_some, Schema.decodeRecord_eq_ok (hsound.built s hs)]
    exact ⟨entries, rfl, hc, rfl⟩

theorem condition_round_trip : ∃ w : World, w.Reachable ∧ Catalog.fieldCondition ∈ w.schemas ∧
    Catalog.fieldCondition.nanFree = true ∧ condition .absent .null ∈ w.records ∧
    Catalog.fieldCondition.sameAs (condition .absent .null).schema = true ∧
    ∃ payload, Catalog.fieldCondition.encode (condition .absent .null) = .ok payload ∧
      ∃ r', Catalog.fieldCondition.decode .reject payload = .ok (some r') ∧
        r'.equal (condition .absent .null) = true := by
  obtain ⟨w, hw, hs, hr⟩ := condition_reachable
  have hn : Catalog.fieldCondition.nanFree = true := rfl
  have hsr := Schema.sameAs_self Catalog.fieldCondition
  exact ⟨w, hw, hs, hn, hr, hsr, hw.round_trip hs hn hr hsr .reject⟩

end World

end TypedRecord
