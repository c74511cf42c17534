import Mathlib.Data.List.Basic
import TypedRecord.Proofs.Schema.Built
import TypedRecord.Proofs.Schema.Induction
import TypedRecord.Schema.Export

namespace TypedRecord

mutual

def Schema.preorder : Schema → List Schema
  | ⟨serial, name, description, fields⟩ =>
    ⟨serial, name, description, fields⟩ :: Field.preorderAll fields

def Field.preorderAll : List Field → List Schema
  | [] => []
  | f :: rest => f.preorder ++ Field.preorderAll rest

def Field.preorder : Field → List Schema
  | ⟨_, _, type, _, _, _⟩ => type.preorder

def FieldType.preorder : FieldType → List Schema
  | .record schema => schema.preorder
  | .seq items _ => items.preorder
  | .map values => values.preorder
  | .union members => FieldType.preorderAll members
  | .str _ | .int _ | .num _ | .bool | .any | .enum _ => []

def FieldType.preorderAll : List FieldType → List Schema
  | [] => []
  | t :: rest => t.preorder ++ FieldType.preorderAll rest

end

theorem FieldType.mem_nestedAll {members : List FieldType} {s : Schema} :
    s ∈ nestedAll members ↔ ∃ t ∈ members, s ∈ t.nested := by
  induction members with
  | nil => simp [nestedAll]
  | cons t rest ih => simp [nestedAll, ih]

theorem Schema.mem_nested {s t : Schema} : t ∈ s.nested ↔ ∃ f ∈ s.fields, t ∈ f.type.nested :=
  List.mem_flatMap

/-- Induction over schemas by the schemas that they name. -/
@[elab_as_elim]
theorem Schema.induction {motive : Schema → Prop}
    (nested : ∀ s : Schema, (∀ t ∈ s.nested, motive t) → motive s) (s : Schema) : motive s := by
  have htype : ∀ t : FieldType, ∀ s ∈ t.nested, motive s := by
    intro t
    induction t using FieldType.induction with
    | scalar t hs ih =>
      intro s hm
      cases t with
      | union members =>
        obtain ⟨t, ht, hm⟩ := FieldType.mem_nestedAll.mp hm
        exact ih t ht s hm
      | record | seq | map => simp [FieldType.isScalar] at hs
      | str | int | num | bool | any | enum => simp [FieldType.nested] at hm
    | record s ih =>
      intro t hm
      obtain rfl := List.mem_singleton.mp hm
      refine nested t fun u hu ↦ ?_
      obtain ⟨f, hf, hu⟩ := Schema.mem_nested.mp hu
      exact ih f hf u hu
    | seq items limits ih => exact ih
    | map values ih => exact ih
  exact htype (.record s) s (List.mem_singleton_self s)

theorem FieldType.preorder_eq (t : FieldType) : t.preorder = t.nested.flatMap Schema.preorder := by
  induction t using FieldType.induction with
  | scalar t hs ih =>
    cases t with
    | union members =>
      change preorderAll members = (nestedAll members).flatMap Schema.preorder
      replace ih : ∀ t ∈ members, t.preorder = t.nested.flatMap Schema.preorder := ih
      induction members with
      | nil => rfl
      | cons t rest ihr =>
        rw [preorderAll, nestedAll, List.flatMap_append, ih t List.mem_cons_self,
          ihr rfl fun u hu ↦ ih u (List.mem_cons_of_mem _ hu)]
    | record | seq | map => simp [isScalar] at hs
    | str | int | num | bool | any | enum => rfl
  | record s ih => exact (List.flatMap_singleton Schema.preorder s).symm
  | seq items limits ih => exact ih
  | map values ih => exact ih

theorem Schema.preorder_eq (s : Schema) : s.preorder = s :: s.nested.flatMap Schema.preorder := by
  obtain ⟨serial, name, description, fields⟩ := s
  have hfields : Field.preorderAll fields =
      (fields.flatMap (·.type.nested)).flatMap Schema.preorder := by
    induction fields with
    | nil => rfl
    | cons f rest ih =>
      cases f
      rw [Field.preorderAll, Field.preorder, List.flatMap_cons, List.flatMap_append, ih,
        FieldType.preorder_eq]
  rw [preorder, hfields]
  rfl

theorem FieldType.visit_eq (t : FieldType) : ∀ seen,
    t.visit seen = t.nested.foldl (fun seen s ↦ s.visit seen) seen := by
  induction t using FieldType.induction with
  | scalar t hs ih =>
    intro seen
    cases t with
    | union members =>
      change visitAll members seen = (nestedAll members).foldl (fun seen s ↦ s.visit seen) seen
      replace ih : ∀ t ∈ members, ∀ seen, t.visit seen = _ := ih
      induction members generalizing seen with
      | nil => rfl
      | cons t rest ihr =>
        rw [visitAll, nestedAll, List.foldl_append, ← ih t List.mem_cons_self,
          ihr _ rfl fun u hu ↦ ih u (List.mem_cons_of_mem _ hu)]
    | record | seq | map => simp [isScalar] at hs
    | str | int | num | bool | any | enum => rfl
  | record s ih => exact fun seen ↦ rfl
  | seq items limits ih => exact ih
  | map values ih => exact ih

theorem Schema.visit_eq (s : Schema) (seen : List Schema) : s.visit seen =
    if seen.any (·.serial = s.serial) then seen
    else s.nested.foldl (fun seen t ↦ t.visit seen) (seen ++ [s]) := by
  obtain ⟨serial, name, description, fields⟩ := s
  have hfields : ∀ seen, Field.visitAll fields seen =
      (fields.flatMap (·.type.nested)).foldl (fun seen t ↦ t.visit seen) seen := by
    induction fields with
    | nil => exact fun _ ↦ rfl
    | cons f rest ih =>
      intro seen
      cases f
      rw [Field.visitAll, Field.visit, List.flatMap_cons, List.foldl_append, ih,
        FieldType.visit_eq]
  rw [visit, hfields]
  rfl

namespace Schema

variable {s t u : Schema}

theorem mem_preorder_self (s : Schema) : s ∈ s.preorder := by
  rw [preorder_eq]
  exact List.mem_cons_self

theorem mem_preorder : t ∈ s.preorder ↔ t = s ∨ ∃ u ∈ s.nested, t ∈ u.preorder := by
  rw [preorder_eq, List.mem_cons, List.mem_flatMap]

theorem preorder_isInfix (ht : t ∈ s.preorder) : t.preorder <:+: s.preorder := by
  induction s using Schema.induction with
  | nested s ih =>
    obtain rfl | ⟨u, hu, ht⟩ := mem_preorder.mp ht
    · exact List.infix_rfl
    · have hflat : u.preorder <:+: s.nested.flatMap preorder :=
        List.infix_flatMap_of_mem hu preorder
      rw [preorder_eq s]
      exact ((ih u hu ht).trans hflat).trans (List.suffix_cons _ _).isInfix

theorem mem_preorder_trans (htu : t ∈ u.preorder) (hus : u ∈ s.preorder) : t ∈ s.preorder :=
  (preorder_isInfix hus).subset htu

theorem Built.of_mem_preorder (hs : s.Built) : ∀ t ∈ s.preorder, t.Built := by
  induction s using Schema.induction with
  | nested s ih =>
    intro t ht
    obtain rfl | ⟨u, hu, ht⟩ := mem_preorder.mp ht
    · exact hs
    · obtain ⟨-, hn⟩ := hs
      exact ih u hu (hn u hu) t ht

/-- What a schema of the walk names comes strictly below its start. -/
theorem mem_flatMap_of_nested (ht : t ∈ s.preorder) (hu : u ∈ t.nested) :
    u ∈ s.nested.flatMap preorder := by
  obtain rfl | ⟨v, hv, ht⟩ := mem_preorder.mp ht
  · exact List.mem_flatMap.mpr ⟨u, hu, mem_preorder_self u⟩
  · have hut : u ∈ t.preorder := mem_preorder.mpr (.inr ⟨u, hu, mem_preorder_self u⟩)
    exact List.mem_flatMap.mpr ⟨v, hv, mem_preorder_trans hut ht⟩

/-- No schema lies below itself. -/
theorem notMem_flatMap_preorder (s : Schema) : s ∉ s.nested.flatMap preorder := by
  intro h
  obtain ⟨u, hu, hs⟩ := List.mem_flatMap.mp h
  have hflat : u.preorder <:+: s.nested.flatMap preorder :=
    List.infix_flatMap_of_mem hu preorder
  have hle := Nat.le_trans (preorder_isInfix hs).length_le hflat.length_le
  rw [preorder_eq s, List.length_cons] at hle
  omega

end Schema

/-- Schemas that are closed under nesting, each known by its serial number. -/
structure Schema.Registered (known : Schema → Prop) : Prop where
  nested : ∀ s, known s → ∀ t ∈ s.nested, known t
  serial : ∀ s, known s → ∀ t, known t → s.serial = t.serial → s = t

def Schema.addNew (seen : List Schema) (s : Schema) : List Schema :=
  if seen.any (·.serial = s.serial) then seen else seen ++ [s]

namespace Schema.Registered

variable {known : Schema → Prop} (hk : Schema.Registered known) {s t u : Schema}
  {seen pending : List Schema}

include hk

theorem preorder (hs : known s) : ∀ t ∈ s.preorder, known t := by
  induction s using Schema.induction with
  | nested s ih =>
    intro t ht
    obtain rfl | ⟨u, hu, ht⟩ := mem_preorder.mp ht
    · exact hs
    · exact ih u hu (hk.nested s hs u hu) t ht

theorem any_serial_iff (hseen : ∀ t ∈ seen, known t) (hs : known s) :
    seen.any (·.serial = s.serial) = true ↔ s ∈ seen := by
  rw [List.any_eq_true]
  constructor
  · intro h
    obtain ⟨t, ht, he⟩ := h
    exact hk.serial t (hseen t ht) s hs (of_decide_eq_true he) ▸ ht
  · exact fun h ↦ ⟨s, h, decide_eq_true rfl⟩

theorem mem_addNew (hseen : ∀ t ∈ seen, known t) (hs : known s) :
    t ∈ addNew seen s ↔ t ∈ seen ∨ t = s := by
  unfold addNew
  split
  next h =>
    have hm := (hk.any_serial_iff hseen hs).mp h
    exact ⟨.inl, fun ht ↦ ht.elim id fun he ↦ he ▸ hm⟩
  next => rw [List.mem_append, List.mem_singleton]

theorem mem_foldl_addNew (hseen : ∀ t ∈ seen, known t) (hp : ∀ t ∈ pending, known t) :
    t ∈ pending.foldl addNew seen ↔ t ∈ seen ∨ t ∈ pending := by
  induction pending generalizing seen with
  | nil => simp
  | cons s rest ih =>
    obtain ⟨hs, hrest⟩ := List.forall_mem_cons.mp hp
    have hadd : ∀ t ∈ addNew seen s, known t := fun t ht ↦
      ((hk.mem_addNew hseen hs).mp ht).elim (hseen t) fun he ↦ he ▸ hs
    rw [List.foldl_cons, ih hadd hrest, hk.mem_addNew hseen hs, List.mem_cons, or_assoc]

theorem foldl_addNew_of_subset (hp : ∀ t ∈ pending, known t) (hseen : ∀ t ∈ seen, known t)
    (h : ∀ t ∈ pending, t ∈ seen) : pending.foldl addNew seen = seen := by
  induction pending with
  | nil => rfl
  | cons s rest ih =>
    obtain ⟨hs, hrest⟩ := List.forall_mem_cons.mp h
    rw [List.foldl_cons, addNew,
      if_pos ((hk.any_serial_iff hseen (hp s List.mem_cons_self)).mpr hs)]
    exact ih (fun t ht ↦ hp t (List.mem_cons_of_mem _ ht)) hrest

end Schema.Registered

/-- What was seen and is met again has all that lies below it seen as well. What is still being
walked is seen too, but is never met again below itself. -/
def Schema.Settled (seen pending : List Schema) : Prop :=
  ∀ s ∈ seen, s ∈ pending → ∀ t ∈ s.preorder, t ∈ seen

namespace Schema.Registered

variable {known : Schema → Prop} (hk : Schema.Registered known) {s t u : Schema}

include hk

theorem foldl_visit_eq {schemas : List Schema} (hs : ∀ s ∈ schemas, known s)
    (ih : ∀ s ∈ schemas, ∀ seen, (∀ t ∈ seen, known t) → Settled seen s.preorder →
      s.visit seen = s.preorder.foldl addNew seen)
    {seen : List Schema} (hseen : ∀ t ∈ seen, known t)
    (h : Settled seen (schemas.flatMap Schema.preorder)) :
    schemas.foldl (fun seen s ↦ s.visit seen) seen =
      (schemas.flatMap Schema.preorder).foldl addNew seen := by
  induction schemas generalizing seen with
  | nil => rfl
  | cons s rest ihr =>
    obtain ⟨hks, hrest⟩ := List.forall_mem_cons.mp hs
    have hbelow := hk.preorder hks
    rw [List.flatMap_cons] at h
    have hvisit : s.visit seen = s.preorder.foldl addNew seen :=
      ih s List.mem_cons_self seen hseen fun u hu hm ↦ h u hu (List.mem_append_left _ hm)
    have hmem : ∀ {t}, t ∈ s.preorder.foldl addNew seen ↔ t ∈ seen ∨ t ∈ s.preorder :=
      hk.mem_foldl_addNew hseen hbelow
    rw [List.foldl_cons, List.flatMap_cons, List.foldl_append, hvisit]
    refine ihr hrest (fun u hu ↦ ih u (List.mem_cons_of_mem _ hu)) ?_ ?_
    · exact fun t ht ↦ (hmem.mp ht).elim (hseen t) (hbelow t)
    · intro u hu hm v hv
      -- what the first walk adds, it adds with all that lies below
      obtain hu | hu := hmem.mp hu
      · exact hmem.mpr (.inl (h u hu (List.mem_append_right _ hm) v hv))
      · exact hmem.mpr (.inr (mem_preorder_trans hv hu))

theorem visit_eq_foldl (hs : known s) : ∀ seen, (∀ t ∈ seen, known t) → Settled seen s.preorder →
    s.visit seen = s.preorder.foldl addNew seen := by
  induction s using Schema.induction with
  | nested s ih =>
    intro seen hseen h
    have hnested := hk.nested s hs
    rw [visit_eq]
    split
    next hany =>
      -- nothing below is new either
      have hm := (hk.any_serial_iff hseen hs).mp hany
      have hbelow := h s hm s.mem_preorder_self
      exact (hk.foldl_addNew_of_subset (hk.preorder hs) hseen hbelow).symm
    next hany =>
      have hadd : addNew seen s = seen ++ [s] := if_neg hany
      rw [preorder_eq, List.foldl_cons, hadd]
      refine hk.foldl_visit_eq hnested (fun t ht ↦ ih t ht (hnested t ht)) ?_ ?_
      · exact List.forall_mem_append.mpr ⟨hseen, List.forall_mem_singleton.mpr hs⟩
      · intro u hu hm v hv
        -- the schema just added has not been walked yet, but is not met again below itself
        obtain hu | hu := List.mem_append.mp hu
        · have hus : u ∈ s.preorder := s.preorder_eq ▸ List.mem_cons_of_mem s hm
          exact List.mem_append_left _ (h u hu hus v hv)
        · exact absurd (List.mem_singleton.mp hu ▸ hm) s.notMem_flatMap_preorder

/-- The declarations reached are those of the plain walk, each at its first occurrence. -/
theorem reachable_eq (hs : known s) : s.reachable = s.preorder.foldl addNew [] :=
  hk.visit_eq_foldl hs [] (by simp) (by simp [Settled])

theorem mem_reachable (hs : known s) : t ∈ s.reachable ↔ t ∈ s.preorder := by
  rw [hk.reachable_eq hs, hk.mem_foldl_addNew (by simp) (hk.preorder hs)]
  simp

theorem reachable_known (hs : known s) (ht : t ∈ s.reachable) : known t :=
  hk.preorder hs t ((hk.mem_reachable hs).mp ht)

/-- What a reached schema names is reached as well, and is never the root. -/
theorem nested_reachable (hs : known s) (ht : t ∈ s.reachable) (hu : u ∈ t.nested) :
    u ∈ s.reachable ∧ u.serial ≠ s.serial := by
  rw [hk.mem_reachable hs] at ht ⊢
  have hbelow := mem_flatMap_of_nested ht hu
  have hm : u ∈ s.preorder := s.preorder_eq ▸ List.mem_cons_of_mem s hbelow
  refine ⟨hm, fun he ↦ ?_⟩
  obtain rfl := hk.serial u (hk.preorder hs u hm) s hs he
  exact u.notMem_flatMap_preorder hbelow

end Schema.Registered

end TypedRecord
