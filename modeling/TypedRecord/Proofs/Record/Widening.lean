import TypedRecord.Proofs.Record.Presence
import TypedRecord.Proofs.Record.Recasting
import TypedRecord.Proofs.Record.Supply

namespace TypedRecord

/-- The second list has each field of the first one, in the same order, and others among them. -/
inductive Field.Inserted (kept : Field → Field → Prop) (extra : Field → Prop) :
    List Field → List Field → Prop
  | nil : Field.Inserted kept extra [] []
  | keep {f g : Field} {fs gs : List Field} : kept f g → Field.Inserted kept extra fs gs →
      Field.Inserted kept extra (f :: fs) (g :: gs)
  | insert {g : Field} {fs gs : List Field} : extra g → Field.Inserted kept extra fs gs →
      Field.Inserted kept extra fs (g :: gs)

def Schema.Lacks (s : Schema) (g : Field) : Prop :=
  ∀ f ∈ s.fields, f.name ≠ g.name ∧ f.wireKey ≠ g.wireKey

/-- The second type is the first one with fields inserted into its records. -/
inductive FieldType.Widens (extra : Field → Prop) : FieldType → FieldType → Prop
  | scalar {t : FieldType} : t.isScalar = true → FieldType.Widens extra t t
  | record {s t : Schema} : s.name = t.name → s.description = t.description →
      Field.Inserted Field.Kept (fun g ↦ s.Lacks g ∧ extra g) s.fields t.fields →
      (∀ f ∈ s.fields, ∀ g ∈ t.fields, f.name = g.name → FieldType.Widens extra f.type g.type) →
      FieldType.Widens extra (.record s) (.record t)
  | seq {items items' : FieldType} {limits : Limits} : FieldType.Widens extra items items' →
      FieldType.Widens extra (.seq items limits) (.seq items' limits)
  | map {values values' : FieldType} : FieldType.Widens extra values values' →
      FieldType.Widens extra (.map values) (.map values')

theorem Field.Kept.symm {f g : Field} (h : f.Kept g) : g.Kept f :=
  ⟨h.name.symm, h.wireKey.symm, h.required.symm, h.nullable.symm, h.description.symm⟩

namespace Field.Inserted

variable {kept kept' : Field → Field → Prop} {extra extra' : Field → Prop} {fs gs : List Field}

theorem exists_kept (h : Field.Inserted kept extra fs gs) : ∀ f ∈ fs, ∃ g ∈ gs, kept f g := by
  induction h with
  | nil => exact List.forall_mem_nil _
  | keep hfg _ ih =>
    rw [List.forall_mem_cons]
    refine ⟨⟨_, List.mem_cons_self, hfg⟩, fun f hf ↦ ?_⟩
    obtain ⟨g, hg, hfg⟩ := ih f hf
    exact ⟨g, List.mem_cons_of_mem _ hg, hfg⟩
  | insert _ _ ih =>
    intro f hf
    obtain ⟨g, hg, hfg⟩ := ih f hf
    exact ⟨g, List.mem_cons_of_mem _ hg, hfg⟩

theorem kept_or_extra (h : Field.Inserted kept extra fs gs) :
    ∀ g ∈ gs, (∃ f ∈ fs, kept f g) ∨ extra g := by
  induction h with
  | nil => exact List.forall_mem_nil _
  | keep hfg _ ih =>
    rw [List.forall_mem_cons]
    refine ⟨.inl ⟨_, List.mem_cons_self, hfg⟩, fun g hg ↦ (ih g hg).imp_left fun h ↦ ?_⟩
    obtain ⟨f, hf, hfg⟩ := h
    exact ⟨f, List.mem_cons_of_mem _ hf, hfg⟩
  | insert hg _ ih =>
    rw [List.forall_mem_cons]
    exact ⟨.inr hg, ih⟩

theorem imp (h : Field.Inserted kept extra fs gs)
    (hk : ∀ f ∈ fs, ∀ g ∈ gs, kept f g → kept' f g) (he : ∀ g ∈ gs, extra g → extra' g) :
    Field.Inserted kept' extra' fs gs := by
  induction h with
  | nil => exact .nil
  | keep hfg _ ih =>
    refine .keep (hk _ List.mem_cons_self _ List.mem_cons_self hfg) (ih ?_ ?_)
    · exact fun f hf g hg ↦ hk f (List.mem_cons_of_mem _ hf) g (List.mem_cons_of_mem _ hg)
    · exact fun g hg ↦ he g (List.mem_cons_of_mem _ hg)
  | insert hg _ ih =>
    refine .insert (he _ List.mem_cons_self hg) (ih ?_ ?_)
    · exact fun f hf g hg ↦ hk f hf g (List.mem_cons_of_mem _ hg)
    · exact fun g hg ↦ he g (List.mem_cons_of_mem _ hg)

end Field.Inserted

theorem Schema.kept_of_shared {s t : Schema} {extra : Field → Prop} (hs : s.Built)
    (h : Field.Inserted Field.Kept (fun g ↦ s.Lacks g ∧ extra g) s.fields t.fields)
    {f g : Field} (hf : f ∈ s.fields) (hg : g ∈ t.fields)
    (hfg : f.name = g.name ∨ f.wireKey = g.wireKey) : f.Kept g := by
  obtain ⟨f', hf', hkept⟩ | ⟨hlacks, -⟩ := h.kept_or_extra g hg
  · have hff : f = f' := by
      obtain hname | hwireKey := hfg
      · exact List.inj_on_of_nodup_map hs.names hf hf' (hname.trans hkept.name.symm)
      · exact List.inj_on_of_nodup_map hs.wireKeys hf hf' (hwireKey.trans hkept.wireKey.symm)
    exact hff ▸ hkept
  · obtain ⟨hname, hwireKey⟩ := hlacks f hf
    exact absurd hfg (not_or.mpr ⟨hname, hwireKey⟩)

namespace FieldType.Widens

variable {extra : Field → Prop} {t u : FieldType}

theorem narrow_reads_wide (h : t.Widens extra u) : t.Built → t.ReadsFrom u := by
  induction h with
  | scalar hs => exact fun _ ↦ .scalar hs
  | record _ _ hfields _ ih =>
    intro ht
    have hs := ht.record
    refine .record ?_ ?_ ?_
    · exact fun f hf g hg ↦ Schema.kept_of_shared hs hfields hf hg
    · intro f hf
      obtain ⟨g, hg, hkept⟩ := hfields.exists_kept f hf
      exact .inl ⟨g, hg, hkept.name⟩
    · exact fun f hf g hg hname ↦ ih f hf g hg hname (hs.field hf)
  | seq _ ih => exact fun ht ↦ .seq (ih ht.seq)
  | map _ ih => exact fun ht ↦ .map (ih ht.map)

theorem wide_reads_narrow (he : ∀ g, extra g → g.required = false) (h : t.Widens extra u) :
    t.Built → u.ReadsFrom t := by
  induction h with
  | scalar hs => exact fun _ ↦ .scalar hs
  | record _ _ hfields _ ih =>
    intro ht
    have hs := ht.record
    refine .record ?_ ?_ ?_
    · intro g hg f hf hgf
      exact (Schema.kept_of_shared hs hfields hf hg (hgf.imp Eq.symm Eq.symm)).symm
    · intro g hg
      refine (hfields.kept_or_extra g hg).imp (fun h ↦ ?_) fun h ↦ he g h.2
      obtain ⟨f, hf, hkept⟩ := h
      exact ⟨f, hf, hkept.name.symm⟩
    · exact fun g hg f hf hname ↦ ih f hf g hg hname.symm (hs.field hf)
  | seq _ ih => exact fun ht ↦ .seq (ih ht.seq)
  | map _ ih => exact fun ht ↦ .map (ih ht.map)

end FieldType.Widens

section

variable {adopts : Schema → Schema → Prop} {extra : Field → Prop}

theorem Field.encodeAll_inserted {r : Record} {fs gs : List Field}
    (h : Field.Inserted (fun f g ↦ f.encode r = g.encode r) (fun g ↦ g.encode r = .ok []) fs gs) :
    Field.encodeAll fs r = Field.encodeAll gs r := by
  induction h with
  | nil => rfl
  | keep hfg _ ih => rw [Field.encodeAll, Field.encodeAll, hfg, ih]
  | @insert g fs gs hg _ ih =>
    rw [Field.encodeAll, hg, ih]
    cases Field.encodeAll gs r <;> rfl

theorem Schema.encodeEntries_widened {s t : Schema} {r : Record} (hs : s.Alike r.schema)
    (hr : r.schema.Built) (hw : r.Whole adopts)
    (h : Field.Inserted Field.Kept (fun g ↦ s.Lacks g ∧ extra g) s.fields t.fields)
    (ih : ∀ f ∈ s.fields, ∀ g ∈ t.fields, f.name = g.name → ∀ u v, f.type.Alike u →
      v.Fits adopts u → f.type.encode v = g.type.encode v) :
    s.encodeEntries r = t.encodeEntries r := by
  have hnarrow : r.refuseUnknown s.name s.fields = .ok () := by
    rw [Record.refuseUnknown_eq_ok]
    intro p hp _
    obtain ⟨f, hf, hfp⟩ := hs.exists_field hp
    exact ⟨f, hf, hfp.name⟩
  have hwide : r.refuseUnknown t.name t.fields = .ok () := by
    rw [Record.refuseUnknown_eq_ok]
    intro p hp _
    obtain ⟨f, hf, hfp⟩ := hs.exists_field hp
    obtain ⟨g, hg, hfg⟩ := h.exists_kept f hf
    exact ⟨g, hg, hfg.name.symm.trans hfp.name⟩
  rw [encodeEntries_eq, encodeEntries_eq, hnarrow, hwide]
  refine Field.encodeAll_inserted (h.imp ?_ ?_)
  · intro f hf g hg hfg
    obtain ⟨p, -, hfp, hslot, hfit⟩ := hs.exists_slot hr.names hw hf
    rw [Field.encode_eq, Field.encode_eq, ← hfg.name, ← hfg.wireKey, ← hfg.nullable, hslot]
    cases hp : p.2 with
    | absent | null => rfl
    | set v =>
      rw [hp] at hfit
      rw [Slot.encode, Slot.encode, ih f hf g hg hfg.name p.1.type v hfp.type hfit]
  · intro g _ hg
    rw [Field.encode_eq]
    cases hslot : r.slot? g.name with
    | none => rfl
    | some slot =>
      obtain ⟨f, hf, hname⟩ := hs.exists_field_of_slot? hslot
      exact absurd hname (hg.1 f hf).1

/-- Values of the narrower type are encoded alike under the wider one. -/
theorem FieldType.Widens.encode_eq (ha : ∀ s u, adopts s u → u.Built ∧ s.Alike u)
    {t u : FieldType} (h : t.Widens extra u) :
    ∀ w v, t.Alike w → v.Fits adopts w → t.encode v = u.encode v := by
  induction h with
  | scalar => exact fun _ _ _ _ ↦ rfl
  | @record s t _ _ hfields _ ih =>
    intro w v hw hv
    obtain ⟨s', hs, rfl⟩ := alike_record_iff.mp hw
    obtain ⟨r, rfl, had, hwhole⟩ := Value.fits_record_iff.mp hv
    obtain ⟨hr, hsr⟩ := ha _ _ had
    rw [encode, encode, Value.encodeRecord, Value.encodeRecord,
      Schema.encodeEntries_widened (hs.trans hsr) hr hwhole hfields ih]
  | @seq items items' limits _ ih =>
    intro w v hw hv
    obtain ⟨items'', hi, rfl⟩ := alike_seq_iff.mp hw
    cases hv with
    | scalar h => cases h
    | list hl hv =>
      rw [encode, encode, Value.encodeList, Value.encodeList,
        Located.traverse_congr (List.forall₂_same.mpr fun v hm ↦ ih items'' v hi (hv v hm))]
  | @map values values' _ ih =>
    intro w v hw hv
    obtain ⟨values'', hi, rfl⟩ := alike_map_iff.mp hw
    cases hv with
    | scalar h => cases h
    | map _ hv =>
      rw [encode, encode, Value.encodeMap, Value.encodeMap,
        Located.traverseEntries_congr
          (List.forall₂_same.mpr fun e hm ↦ ⟨rfl, ih values'' e.2 hi (hv e hm)⟩)]

end

/-- What can be read back decodes to nothing else, with tolerance for unknown keys or, if there are
none, without it. -/
theorem Schema.decode_eq_ok_iff {s : Schema} {r : Record} {entries : List (String × Json)}
    {unknown : UnknownKeys} {out : Option Record} (hs : s.Built)
    (h : (FieldType.record s).ReadsBack (.record r) (.obj entries)) :
    s.decode unknown (.obj entries) = .ok out ↔
      (unknown = .reject → (Value.record r).Within (.record s)) ∧ out = some (s.recast r) := by
  have hread : s.read entries = s.recast r := by
    have hvalue := h.read
    rw [FieldType.read_record, FieldType.recast] at hvalue
    exact Value.record.inj hvalue
  cases out with
  | none => simp [decode, Located.map_eq_ok]
  | some r' =>
    simp only [decode_eq_some, decodeRecord_eq_ok hs, Json.obj.injEq, exists_eq_left',
      h.conforms unknown, hread, Option.some.injEq]

namespace World

open Schema (guest booking bookingGuests booking_built)

/-- A schema and a wider one read what is written under the other: a record of the narrower one is
written alike under both, and the fields it lacks are absent; a record of the wider one loses them,
unless unknown keys are refused and it has supplied any. -/
theorem Reachable.widening_compatible {w : World} (hw : w.Reachable) {s t : Schema} (hs : s.Built)
    (ht : t.Built) {r : Record} (hr : r ∈ w.records) :
    ((FieldType.record s).Widens (·.required = false) (.record t) → s.Alike r.schema →
      ∃ json, s.encode r = .ok json ∧ t.encode r = .ok json ∧
        ∀ unknown, t.decode unknown json = .ok (some (t.recast r))) ∧
    ((FieldType.record s).Widens (fun _ ↦ True) (.record t) → t.Alike r.schema →
      ∃ json, t.encode r = .ok json ∧ s.decode .ignore json = .ok (some (s.recast r)) ∧
        ∀ out, s.decode .reject json = .ok out ↔
          (Value.record r).Within (.record s) ∧ out = some (s.recast r)) := by
  have hadopts := hw.sound.adopted
  have hfit : (Value.record r).Fits w.Adopts (.record r.schema) :=
    Value.fits_record_iff.mpr ⟨r, rfl, ⟨hw.sound.schema r hr, .inl rfl⟩, hw.sound.whole r hr⟩
  have hencode : ∀ {u : Schema}, u.Alike r.schema → ∃ entries, u.encode r = .ok (.obj entries) := by
    intro u hu
    obtain ⟨json, he, -⟩ := FieldType.encode_shown hadopts (.record r.schema) (.record r)
      (FieldType.alike_record_iff.mpr ⟨r.schema, hu, rfl⟩) hfit
    obtain ⟨_, entries, -, -, rfl⟩ := FieldType.encode_record_eq_ok.mp he
    exact ⟨entries, he⟩
  constructor
  · intro hwidens hsr
    have halike := FieldType.alike_record_iff.mpr ⟨r.schema, hsr, rfl⟩
    obtain ⟨entries, he⟩ := hencode hsr
    have ht' : t.encode r = .ok (.obj entries) :=
      (hwidens.encode_eq hadopts _ _ halike hfit).symm.trans he
    have hsuits : (Value.record r).Suits (.record t) :=
      (FieldType.exists_encode_iff (.record r)).mp ⟨.obj entries, ht'⟩
    have hread := hwidens.wide_reads_narrow (fun _ hq ↦ hq) (.ofSchema hs)
    have hback := FieldType.readsBack hadopts _ _ _ _ hread (.ofSchema hs) halike hfit he
    refine ⟨.obj entries, he, ht', fun unknown ↦ ?_⟩
    exact (Schema.decode_eq_ok_iff ht hback).mpr ⟨fun _ ↦ hsuits.within, rfl⟩
  · intro hwidens htr
    have halike := FieldType.alike_record_iff.mpr ⟨r.schema, htr, rfl⟩
    obtain ⟨entries, he⟩ := hencode htr
    have hread := hwidens.narrow_reads_wide (.ofSchema hs)
    have hback := FieldType.readsBack hadopts _ _ _ _ hread (.ofSchema ht) halike hfit he
    refine ⟨.obj entries, he, (Schema.decode_eq_ok_iff hs hback).mpr ⟨nofun, rfl⟩, fun out ↦ ?_⟩
    simp only [Schema.decode_eq_ok_iff hs hback, true_implies]

def wideGuest : Schema := ⟨2, "Guest", none,
  [{ Field.plain "full_name" (.str {}) true with wireKey := "fullName" },
    { Field.plain "email" .any false with nullable := true },
    Field.plain "age" (.int {}) false]⟩

def wideBooking : Schema := ⟨3, "Booking", none,
  [{ Field.plain "people" (.int {}) false with wireKey := "count" },
    { Field.plain "guests" (.seq (.record wideGuest) {}) true with wireKey := "people" },
    { Field.plain "seat" (.str {}) true with wireKey := "guests" }]⟩

theorem wideBooking_built : wideBooking.Built := by
  refine .intro rfl fun t ht ↦ ?_
  obtain rfl := List.mem_singleton.mp ht
  exact .intro rfl nofun

theorem guest_widens {extra : Field → Prop} (he : ∀ g : Field, g.required = false → extra g) :
    (FieldType.record guest).Widens extra (.record wideGuest) := by
  refine .record rfl rfl (.keep ⟨rfl, rfl, rfl, rfl, rfl⟩
    (.insert ⟨?_, he _ rfl⟩ (.keep ⟨rfl, rfl, rfl, rfl, rfl⟩ .nil))) ?_
  · unfold Schema.Lacks
    decide
  · simp only [guest, wideGuest, List.forall_mem_cons]
    have hnil {p : Field → Prop} : ∀ f ∈ [], p f := List.forall_mem_nil p
    exact ⟨⟨fun _ ↦ .scalar rfl, nofun, nofun, hnil⟩,
      ⟨nofun, nofun, fun _ ↦ .scalar rfl, hnil⟩, hnil⟩

theorem booking_widens {extra : Field → Prop} (he : ∀ g : Field, g.required = false → extra g) :
    (FieldType.record booking).Widens extra (.record wideBooking) := by
  refine .record rfl rfl (.insert ⟨?_, he _ rfl⟩ (.keep ⟨rfl, rfl, rfl, rfl, rfl⟩
    (.keep ⟨rfl, rfl, rfl, rfl, rfl⟩ .nil))) ?_
  · unfold Schema.Lacks
    decide
  · simp only [booking, bookingGuests, wideBooking, List.forall_mem_cons]
    have hnil {p : Field → Prop} : ∀ f ∈ [], p f := List.forall_mem_nil p
    exact ⟨⟨nofun, fun _ ↦ .seq (guest_widens he), nofun, hnil⟩,
      ⟨nofun, nofun, fun _ ↦ .scalar rfl, hnil⟩, hnil⟩

def guestOf (name : String) : Record := ⟨guest, [.set (.scalar (.str name)), .absent]⟩

def wideGuestOf (name : String) (email : Slot) : Record :=
  ⟨wideGuest, [.set (.scalar (.str name)), email, .absent]⟩

def bookingOf (guests : List Record) : Record :=
  ⟨booking, [.set (.list (guests.map .record)), .set (.scalar (.str "1"))]⟩

def wideBookingOf (guests : List Record) : Record :=
  ⟨wideBooking, [.absent, .set (.list (guests.map .record)), .set (.scalar (.str "1"))]⟩

def guestJson (name : String) : Json := .obj [("fullName", .str name)]

def nullEmailJson (name : String) : Json := .obj [("fullName", .str name), ("email", .null)]

def bookingJson (guests : List Json) : Json := .obj [("people", .arr guests), ("guests", .str "1")]

theorem proper_bookingJson {guests : List Json} (h : ∀ j ∈ guests, j.Proper) :
    (bookingJson guests).Proper := by
  refine .obj (by decide : ["people", "guests"].Nodup) ?_
  rw [List.forall_mem_cons, List.forall_mem_singleton]
  exact ⟨.arr h, .str _⟩

theorem bookings_reachable : ∃ w : World, w.Reachable ∧ bookingOf [guestOf "a"] ∈ w.records ∧
    wideBookingOf [wideGuestOf "a" .absent, wideGuestOf "b" .null] ∈ w.records := by
  have hguest : (guestJson "a").Proper :=
    .obj (List.nodup_singleton _) (List.forall_mem_singleton.mpr (.str _))
  have hemail : (nullEmailJson "b").Proper := by
    refine .obj (by decide : ["fullName", "email"].Nodup) ?_
    rw [List.forall_mem_cons, List.forall_mem_singleton]
    exact ⟨.str _, .null⟩
  have h₁ : Reachable ⟨⟨1⟩, [guest], []⟩ :=
    (Reachable.start ⟨0⟩).step (permitted_declare (s := guest) nofun)
  have h₂ : Reachable ⟨⟨2⟩, [booking, guest], []⟩ :=
    h₁.step (permitted_declare (s := booking) fun _ ht ↦ ht)
  have h₃ : Reachable ⟨⟨3⟩, [wideGuest, booking, guest], []⟩ :=
    h₂.step (permitted_declare (s := wideGuest) nofun)
  have h₄ : Reachable ⟨⟨4⟩, [wideBooking, wideGuest, booking, guest], []⟩ := by
    refine h₃.step (permitted_declare (s := wideBooking) fun t ht ↦ ?_)
    obtain rfl := List.mem_singleton.mp ht
    exact .head _
  have h₅ : Reachable ⟨⟨4⟩, [wideBooking, wideGuest, booking, guest],
      [bookingOf [guestOf "a"]]⟩ :=
    h₄.step (a := .decode booking .reject (bookingJson [guestJson "a"]))
      ⟨.tail _ (.tail _ (.head _)), proper_bookingJson (List.forall_mem_singleton.mpr hguest)⟩
  have h₆ : Reachable ⟨⟨4⟩, [wideBooking, wideGuest, booking, guest],
      [wideBookingOf [wideGuestOf "a" .absent, wideGuestOf "b" .null],
        bookingOf [guestOf "a"]]⟩ := by
    refine h₅.step (a := .decode wideBooking .reject
      (bookingJson [guestJson "a", nullEmailJson "b"])) ⟨.head _, proper_bookingJson ?_⟩
    exact List.forall_mem_cons.mpr ⟨hguest, List.forall_mem_singleton.mpr hemail⟩
  exact ⟨_, h₆, .tail _ (.head _), .head _⟩

/-- A guest of a sequence has supplied the new field, as null. -/
theorem booking_widening_compatible :
    let r := bookingOf [guestOf "a"]
    let r' := wideBookingOf [wideGuestOf "a" .absent, wideGuestOf "b" .null]
    (∃ w : World, w.Reachable ∧ r ∈ w.records ∧ r' ∈ w.records) ∧
      booking.Built ∧ wideBooking.Built ∧
      (FieldType.record booking).Widens (·.required = false) (.record wideBooking) ∧
      (FieldType.record booking).Widens (fun _ ↦ True) (.record wideBooking) ∧
      (∀ unknown, wideBooking.decode unknown (bookingJson [guestJson "a"]) =
        .ok (some (wideBookingOf [wideGuestOf "a" .absent]))) ∧
      booking.decode .ignore (bookingJson [guestJson "a", nullEmailJson "b"]) =
        .ok (some (bookingOf [guestOf "a", guestOf "b"])) ∧
      ∀ out, booking.decode .reject (bookingJson [guestJson "a", nullEmailJson "b"]) ≠ .ok out := by
  intro r r'
  obtain ⟨w, hw, hr, hr'⟩ := bookings_reachable
  have hoptional : (FieldType.record booking).Widens (·.required = false) (.record wideBooking) :=
    booking_widens fun _ hq ↦ hq
  have hany : (FieldType.record booking).Widens (fun _ ↦ True) (.record wideBooking) :=
    booking_widens fun _ _ ↦ trivial
  obtain ⟨json, he, -, hback⟩ :=
    (hw.widening_compatible booking_built wideBooking_built hr).1 hoptional (.inl rfl)
  obtain ⟨json', he', hforward, hreject⟩ :=
    (hw.widening_compatible booking_built wideBooking_built hr').2 hany (.inl rfl)
  cases he
  cases he'
  refine ⟨⟨w, hw, hr, hr'⟩, booking_built, wideBooking_built, hoptional, hany, hback, hforward, ?_⟩
  intro out hout
  obtain ⟨hwithin, -⟩ := (hreject out).mp hout
  have hguests := (Value.within_record_iff.mp hwithin).2 bookingGuests (.head _) _ rfl
  have hguest := Value.within_list_iff.mp hguests _ (.tail _ (.head _))
  have hknown := (Value.within_record_iff.mp hguest).1 _ (.tail _ (.head _)) rfl
  exact absurd hknown (by decide)

end World

end TypedRecord
