import TypedRecord.Schema.Basic

namespace TypedRecord

def FieldType.isScalar : FieldType → Bool
  | .str _ | .int _ | .num _ | .bool | .any | .enum _ | .union _ => true
  | .record _ | .seq _ _ | .map _ => false

theorem FieldType.isScalar_of_isPrimitive {t : FieldType} (h : t.isPrimitive = true) :
    t.isScalar = true := by
  cases t with
  | str | int | num | bool | enum => rfl
  | any | union | record | seq | map => simp [isPrimitive] at h

def FieldType.members : FieldType → List FieldType
  | .union members => members
  | _ => []

variable {motive : FieldType → Prop}
  (scalar : ∀ t : FieldType, t.isScalar → (∀ u ∈ t.members, motive u) → motive t)
  (record : ∀ s : Schema, (∀ f ∈ s.fields, motive f.type) → motive (.record s))
  (seq : ∀ items limits, motive items → motive (.seq items limits))
  (map : ∀ values, motive values → motive (.map values))

-- The four cases are used by way of the other theorems of the block.
set_option linter.unusedSectionVars false

include scalar record seq map

mutual

@[elab_as_elim]
theorem FieldType.induction : ∀ t : FieldType, motive t
  | .record s => record s (Schema.fieldInduction s)
  | .seq items limits => seq items limits (FieldType.induction items)
  | .map values => map values (FieldType.induction values)
  | .union members => scalar _ rfl (FieldType.memberInduction members)
  | .str _ | .int _ | .num _ | .bool | .any | .enum _ => scalar _ rfl nofun

theorem FieldType.memberInduction : ∀ members : List FieldType, ∀ u ∈ members, motive u
  | [] => nofun
  | t :: rest => by
    intro u h
    rcases h with _ | ⟨_, hu⟩
    · exact FieldType.induction t
    · exact FieldType.memberInduction rest u hu

theorem Schema.fieldInduction : ∀ s : Schema, ∀ f ∈ s.fields, motive f.type
  | ⟨_, _, _, fields⟩ => Field.allInduction fields

theorem Field.allInduction : ∀ fields : List Field, ∀ f ∈ fields, motive f.type
  | [] => nofun
  | ⟨_, _, type, _, _, _⟩ :: rest => by
    intro f h
    rcases h with _ | ⟨_, hf⟩
    · exact FieldType.induction type
    · exact Field.allInduction rest f hf

end

end TypedRecord
