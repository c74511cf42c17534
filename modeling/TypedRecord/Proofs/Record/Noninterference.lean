import Mathlib.Logic.Relation
import TypedRecord.Proofs.Record.Refusal

namespace TypedRecord

/-- Payloads that agree on all that the type looks at: in objects of a record the values under its
aliases, in other places everything. -/
inductive FieldType.Indistinct : FieldType → Json → Json → Prop
  | refl (t : FieldType) (json : Json) : FieldType.Indistinct t json json
  | record {s : Schema} {xs ys : List (String × Json)} :
      (∀ f ∈ s.fields,
        Entries.get? f.wireKey xs = none ↔ Entries.get? f.wireKey ys = none) →
      (∀ f ∈ s.fields, ∀ x y, Entries.get? f.wireKey xs = some x →
        Entries.get? f.wireKey ys = some y → FieldType.Indistinct f.type x y) →
      FieldType.Indistinct (.record s) (.obj xs) (.obj ys)
  | seq {items : FieldType} {limits : Limits} {xs ys : List Json} : xs.length = ys.length →
      (∀ x y, (x, y) ∈ xs.zip ys → FieldType.Indistinct items x y) →
      FieldType.Indistinct (.seq items limits) (.arr xs) (.arr ys)
  | map {values : FieldType} {xs ys : List (String × Json)} :
      xs.map Prod.fst = ys.map Prod.fst →
      (∀ x y, (x, y) ∈ xs.zip ys → FieldType.Indistinct values x.2 y.2) →
      FieldType.Indistinct (.map values) (.obj xs) (.obj ys)

/-- One change that no alias sees. In an object of a record, at any depth, a key that is no alias is
inserted, removed or given another value, or the keys are put in another order. -/
inductive FieldType.Disturbs : FieldType → Json → Json → Prop
  | insert {s : Schema} {before after : List (String × Json)} {key : String} {x : Json} :
      (∀ f ∈ s.fields, f.wireKey ≠ key) →
      FieldType.Disturbs (.record s) (.obj (before ++ after)) (.obj (before ++ (key, x) :: after))
  | remove {s : Schema} {before after : List (String × Json)} {key : String} {x : Json} :
      (∀ f ∈ s.fields, f.wireKey ≠ key) →
      FieldType.Disturbs (.record s) (.obj (before ++ (key, x) :: after)) (.obj (before ++ after))
  | change {s : Schema} {before after : List (String × Json)} {key : String} {x y : Json} :
      (∀ f ∈ s.fields, f.wireKey ≠ key) →
      FieldType.Disturbs (.record s) (.obj (before ++ (key, x) :: after))
        (.obj (before ++ (key, y) :: after))
  | reorder {s : Schema} {xs ys : List (String × Json)} :
      (xs.map Prod.fst).Nodup → xs.Perm ys → FieldType.Disturbs (.record s) (.obj xs) (.obj ys)
  | field {s : Schema} {before after : List (String × Json)} {f : Field} {x y : Json} :
      f ∈ s.fields → FieldType.Disturbs f.type x y →
      FieldType.Disturbs (.record s) (.obj (before ++ (f.wireKey, x) :: after))
        (.obj (before ++ (f.wireKey, y) :: after))
  | element {items : FieldType} {limits : Limits} {before after : List Json} {x y : Json} :
      FieldType.Disturbs items x y →
      FieldType.Disturbs (.seq items limits) (.arr (before ++ x :: after))
        (.arr (before ++ y :: after))
  | entry {values : FieldType} {before after : List (String × Json)} {key : String} {x y : Json} :
      FieldType.Disturbs values x y →
      FieldType.Disturbs (.map values) (.obj (before ++ (key, x) :: after))
        (.obj (before ++ (key, y) :: after))

section

variable {s : Schema} {f : Field} {t : FieldType} {x y : Json} {xs ys : List (String × Json)}

theorem Intake.readAliases_congr {α : Type} {intakes : List (Intake α)}
    {xs ys : List (String × α)}
    (h : ∀ intake ∈ intakes, (Entries.get? intake.field.wireKey xs).map intake.convert =
      (Entries.get? intake.field.wireKey ys).map intake.convert) :
    readAliases xs intakes = readAliases ys intakes := by
  induction intakes with
  | nil => rfl
  | cons intake rest ih =>
    have hfirst := h intake List.mem_cons_self
    have hrest := ih fun other hm ↦ h other (List.mem_cons_of_mem _ hm)
    rw [readAliases, readAliases, hrest]
    cases hx : Entries.get? intake.field.wireKey xs with
    | none =>
      cases hy : Entries.get? intake.field.wireKey ys with
      | none => rfl
      | some b => simp [hx, hy] at hfirst
    | some a =>
      cases hy : Entries.get? intake.field.wireKey ys with
      | none => simp [hx, hy] at hfirst
      | some b =>
        rw [hx, hy, Option.map_some, Option.map_some, Option.some.injEq] at hfirst
        simp only [hfirst]

namespace FieldType.Indistinct

theorem null_iff (h : t.Indistinct x y) : x = .null ↔ y = .null := by
  cases h <;> simp

theorem refuseNull (h : t.Indistinct x y)
    (ha : t.accept (.aliases .ignore) x = t.accept (.aliases .ignore) y) :
    TypedRecord.refuseNull (t.accept (.aliases .ignore)) x =
      TypedRecord.refuseNull (t.accept (.aliases .ignore)) y := by
  by_cases hx : x = .null
  · rw [hx, h.null_iff.mp hx]
  · rw [refuseNull_of_ne_null hx, refuseNull_of_ne_null (mt h.null_iff.mpr hx), ha]

theorem check (h : f.type.Indistinct x y)
    (ha : f.type.accept (.aliases .ignore) x = f.type.accept (.aliases .ignore) y) :
    f.check (.aliases .ignore) x = f.check (.aliases .ignore) y := by
  by_cases hx : x = .null
  · rw [hx, h.null_iff.mp hx]
  · rw [Field.check, slotOf_of_ne_null hx, slotOf_of_ne_null (mt h.null_iff.mpr hx), ha]

theorem accept_record
    (hnone : ∀ f ∈ s.fields, Entries.get? f.wireKey xs = none ↔ Entries.get? f.wireKey ys = none)
    (h : ∀ f ∈ s.fields, ∀ x y, Entries.get? f.wireKey xs = some x →
      Entries.get? f.wireKey ys = some y →
      f.check (.aliases .ignore) x = f.check (.aliases .ignore) y) :
    s.accept (.aliases .ignore) xs = s.accept (.aliases .ignore) ys := by
  have hread : Intake.readAliases xs (s.fields.map fun f ↦ ⟨f, f.check (.aliases .ignore)⟩) =
      Intake.readAliases ys (s.fields.map fun f ↦ ⟨f, f.check (.aliases .ignore)⟩) := by
    refine Intake.readAliases_congr (List.forall_mem_map.mpr fun f hf ↦ ?_)
    cases hx : Entries.get? f.wireKey xs with
    | none => rw [(hnone f hf).mp hx]
    | some x =>
      cases hy : Entries.get? f.wireKey ys with
      | none =>
        rw [(hnone f hf).mpr hy] at hx
        cases hx
      | some y => exact congrArg some (h f hf x y hx hy)
  rw [Schema.accept_eq, Schema.accept_eq, Intake.assemble, Intake.assemble, Intake.fill,
    Intake.fill, hread]

/-- What cannot be told apart is accepted alike and refused alike. -/
theorem accept (h : t.Indistinct x y) :
    t.accept (.aliases .ignore) x = t.accept (.aliases .ignore) y := by
  induction h with
  | refl => rfl
  | record hnone hsome ih =>
    have haccept := accept_record hnone fun f hf x y hx hy ↦
      (hsome f hf x y hx hy).check (ih f hf x y hx hy)
    simp only [FieldType.accept, ofObject, haccept]
  | @seq items _ xs ys hl helements ih =>
    have hitems : List.Forall₂ (fun x y ↦
        TypedRecord.refuseNull (items.accept (.aliases .ignore)) x =
          TypedRecord.refuseNull (items.accept (.aliases .ignore)) y) xs ys :=
      List.forall₂_iff_zip.mpr ⟨hl, fun {x y} hm ↦ (helements x y hm).refuseNull (ih x y hm)⟩
    simp only [FieldType.accept, ofArray, hl, Located.traverse_congr hitems]
  | @map values xs ys hkeys hvalues ih =>
    have hkey : List.Forall₂ (· = ·) (xs.map Prod.fst) (ys.map Prod.fst) := by
      rw [hkeys, List.forall₂_same]
      exact fun _ _ ↦ rfl
    rw [List.forall₂_map_left_iff, List.forall₂_map_right_iff] at hkey
    have hentries : List.Forall₂ (fun x y : String × Json ↦ x.1 = y.1 ∧
        TypedRecord.refuseNull (values.accept (.aliases .ignore)) x.2 =
          TypedRecord.refuseNull (values.accept (.aliases .ignore)) y.2) xs ys :=
      List.forall₂_iff_zip.mpr ⟨hkey.length_eq, fun {x y} hm ↦
        ⟨List.forall₂_zip hkey hm, (hvalues x y hm).refuseNull (ih x y hm)⟩⟩
    simp only [FieldType.accept, ofObject, Located.traverseEntries_congr hentries]

end FieldType.Indistinct

theorem FieldType.indistinct_of_get?_eq
    (h : ∀ f ∈ s.fields, Entries.get? f.wireKey xs = Entries.get? f.wireKey ys) :
    (record s).Indistinct (.obj xs) (.obj ys) := by
  refine .record (fun f hf ↦ by rw [h f hf]) fun f hf x y hx hy ↦ ?_
  rw [h f hf, hy] at hx
  cases hx
  exact .refl f.type x

/-- At all places but one the two lists are the same. -/
theorem eq_or_eq_of_mem_zip_replaced {α : Type} {before after : List α} {a b x y : α}
    (h : (x, y) ∈ (before ++ a :: after).zip (before ++ b :: after)) :
    x = y ∨ x = a ∧ y = b := by
  rw [List.zip_append rfl, List.zip_cons_cons, List.mem_append, List.mem_cons] at h
  obtain h | h | h := h
  · exact .inl (eq_of_mem_zip_self h)
  · cases h
    exact .inr ⟨rfl, rfl⟩
  · exact .inl (eq_of_mem_zip_self h)

/-- Aliases are distinct, so the value under one of them concerns no other field. -/
theorem FieldType.indistinct_of_field (hs : s.Built) (hf : f ∈ s.fields)
    (h : f.type.Indistinct x y) (before after : List (String × Json)) :
    (record s).Indistinct (.obj (before ++ (f.wireKey, x) :: after))
      (.obj (before ++ (f.wireKey, y) :: after)) := by
  have hget : ∀ (key : String) (value : Json),
      Entries.get? key (before ++ (f.wireKey, value) :: after) =
        (Entries.get? key before).or
          (if f.wireKey = key then some value else Entries.get? key after) := by
    intro key value
    rw [Entries.get?_append, Entries.get?]
  refine .record (fun g hg ↦ ?_) fun g hg v w hv hw ↦ ?_
  · rw [hget, hget]
    split <;> simp
  · rw [hget] at hv hw
    cases hb : Entries.get? g.wireKey before with
    | some v =>
      rw [hb] at hv hw
      cases hv
      cases hw
      exact .refl g.type v
    | none =>
      -- the values differ under the alias of `f` alone, which is that of no other field
      rw [hb, Option.none_or] at hv hw
      split at hv
      next he =>
        rw [if_pos he] at hw
        cases hv
        cases hw
        rwa [List.inj_on_of_nodup_map hs.wireKeys hg hf he.symm]
      next he =>
        rw [if_neg he, hv] at hw
        cases hw
        exact .refl g.type v

/-- A change that no alias sees cannot be told. -/
theorem FieldType.Disturbs.indistinct (h : t.Disturbs x y) : t.Built → t.Indistinct x y := by
  induction h with
  | insert hkey =>
    exact fun _ ↦ indistinct_of_get?_eq fun f hf ↦
      (Entries.get?_append_cons_of_ne (hkey f hf) _ _ _).symm
  | remove hkey =>
    exact fun _ ↦ indistinct_of_get?_eq fun f hf ↦
      Entries.get?_append_cons_of_ne (hkey f hf) _ _ _
  | change hkey =>
    intro _
    refine indistinct_of_get?_eq fun f hf ↦ ?_
    rw [Entries.get?_append_cons_of_ne (hkey f hf), Entries.get?_append_cons_of_ne (hkey f hf)]
  | reorder hn hp => exact fun _ ↦ indistinct_of_get?_eq fun f _ ↦ Entries.get?_perm hn hp f.wireKey
  | field hf _ ih =>
    intro ht
    exact indistinct_of_field ht.record hf (ih (ht.record.field hf)) _ _
  | @element items _ _ _ _ _ _ ih =>
    intro ht
    refine .seq (by simp) fun v w hm ↦ ?_
    obtain rfl | ⟨rfl, rfl⟩ := eq_or_eq_of_mem_zip_replaced hm
    · exact .refl items v
    · exact ih ht.seq
  | @entry values _ _ _ _ _ _ ih =>
    intro ht
    refine .map (by simp) fun v w hm ↦ ?_
    obtain rfl | ⟨rfl, rfl⟩ := eq_or_eq_of_mem_zip_replaced hm
    · exact .refl values v.2
    · exact ih ht.map

namespace Schema

theorem decode_eq_of_indistinct (h : (FieldType.record s).Indistinct x y) :
    s.decode .ignore x = s.decode .ignore y := by
  have hrecord : s.decodeRecord .ignore x = s.decodeRecord .ignore y := by
    have hmap := congrArg (Except.mapError (Located.map WireFault.ofDecoding)) h.accept
    rw [← map_record_decodeRecord, ← map_record_decodeRecord] at hmap
    exact eq_of_map_eq (fun _ _ ↦ Value.record.inj) hmap
  cases h with
  | refl => rfl
  | record => simp only [decode, hrecord]

/-- Decoding cannot tell payloads apart that agree under the aliases, however many changes that no
alias sees lie between them: the records are the same, and so are the errors. -/
theorem decode_sees_only_aliases (hs : s.Built) :
    (∀ x y, (FieldType.record s).Indistinct x y → s.decode .ignore x = s.decode .ignore y) ∧
    (∀ x y, Relation.ReflTransGen (FieldType.record s).Disturbs x y →
      s.decode .ignore x = s.decode .ignore y) := by
  refine ⟨fun _ _ ↦ decode_eq_of_indistinct, fun x y h ↦ ?_⟩
  induction h with
  | refl => rfl
  | tail _ hstep ih => exact ih.trans (decode_eq_of_indistinct (hstep.indistinct (.ofSchema hs)))

/-- A key goes in beside the members, and one, named as the field, into the member that lacks its
alias. -/
theorem team_decode_undisturbed :
    let x : Json := .obj [("teamMembers", .arr [.obj [("userId", .str "a")], .obj []])]
    let y : Json := .obj [("color", .null),
      ("teamMembers", .arr [.obj [("userId", .str "a")], .obj [("user_id", .str "b")]])]
    let e : WireError := ⟨⟨[.key "teamMembers", .index 1, .key "user_id"]⟩,
      .validation (.missingField "User" "user_id")⟩
    team.Built ∧ (FieldType.record team).Indistinct x y ∧
    Relation.ReflTransGen (FieldType.record team).Disturbs x y ∧
    team.decode .ignore x = .error e ∧ team.decode .ignore y = .error e ∧
    team.decode .ignore x = team.decode .ignore y := by
  intro x y e
  have hcolor : ∀ f ∈ team.fields, f.wireKey ≠ "color" := by decide
  have hmember : ∀ f ∈ user.fields, f.wireKey ≠ "user_id" := by decide
  have hmembers : (FieldType.seq (.record user) {}).Disturbs
      (.arr [.obj [("userId", .str "a")], .obj []])
      (.arr [.obj [("userId", .str "a")], .obj [("user_id", .str "b")]]) :=
    @FieldType.Disturbs.element _ _ [.obj [("userId", .str "a")]] [] _ _
      (@FieldType.Disturbs.insert _ [] [] _ _ hmember)
  have hfirst : (FieldType.record team).Disturbs x (.obj [("color", .null),
      ("teamMembers", .arr [.obj [("userId", .str "a")], .obj []])]) :=
    @FieldType.Disturbs.insert _ [] _ _ _ hcolor
  have hsecond : (FieldType.record team).Disturbs (.obj [("color", .null),
      ("teamMembers", .arr [.obj [("userId", .str "a")], .obj []])]) y :=
    @FieldType.Disturbs.field team [("color", .null)] [] (team.fields.head nofun) _ _
      (List.head_mem _) hmembers
  have hruns := Relation.ReflTransGen.tail (.single hfirst) hsecond
  have hsame : (FieldType.record team).Indistinct x y := by
    refine .record (by decide) fun f hf v w hv hw ↦ ?_
    have ht := team_built.field hf
    obtain rfl := List.mem_singleton.mp hf
    cases hv
    cases hw
    exact hmembers.indistinct ht
  have hx : team.decode .ignore x = .error e := rfl
  exact ⟨team_built, hsame, hruns, hx, ((decode_sees_only_aliases team_built).1 x y hsame) ▸ hx,
    (decode_sees_only_aliases team_built).2 x y hruns⟩

end Schema

end

end TypedRecord
