import TypedRecord.Json.Reader
import TypedRecord.Proofs.Json.Proper

namespace TypedRecord.Json

namespace Reader

variable {stack : List Frame} {value : Json} {token : Token} {state next : State}

def ProperEntries (entries : List (String × Json)) : Prop :=
  (entries.map Prod.fst).Nodup ∧ ∀ e ∈ entries, e.2.Proper

def Frame.Proper : Frame → Prop
  | .array items => ∀ j ∈ items, j.Proper
  | .object entries _ => ProperEntries entries

def ProperStack (stack : List Frame) : Prop := ∀ frame ∈ stack, frame.Proper

def State.Proper : State → Prop
  | .value stack | .firstItem stack | .firstKey stack => ProperStack stack
  | .key entries stack | .colon entries _ stack | .afterEntry entries stack =>
    ProperEntries entries ∧ ProperStack stack
  | .afterItem items stack => (∀ j ∈ items, j.Proper) ∧ ProperStack stack
  | .done value => value.Proper

theorem properEntries_nil : ProperEntries [] := ⟨.nil, nofun⟩

theorem properEntries_put {entries : List (String × Json)} (h : ProperEntries entries)
    (key : String) (hv : value.Proper) : ProperEntries (Entries.put key value entries) := by
  obtain ⟨hk, he⟩ := h
  refine ⟨Entries.nodup_put hk, fun e hm ↦ ?_⟩
  obtain rfl | hm := Entries.mem_put hm
  · exact hv
  · exact he e hm

theorem deliver_proper (hs : ProperStack stack) (hv : value.Proper) :
    (deliver value stack).Proper := by
  cases stack with
  | nil => exact hv
  | cons frame rest =>
    obtain ⟨hf, hr⟩ := List.forall_mem_cons.mp hs
    cases frame with
    | array items => exact ⟨List.forall_mem_cons.mpr ⟨hv, hf⟩, hr⟩
    | object entries key => exact ⟨properEntries_put hf key hv, hr⟩

theorem start_proper (hs : ProperStack stack) (h : start stack token = some next) :
    next.Proper := by
  cases token with
  | null =>
    cases h
    exact deliver_proper hs .null
  | bool b =>
    cases h
    exact deliver_proper hs (.bool b)
  | num n =>
    cases h
    exact deliver_proper hs (.num n)
  | str s =>
    cases h
    exact deliver_proper hs (.str s)
  | beginArray | beginObject =>
    obtain ⟨-, h⟩ := Option.ite_none_right_eq_some.mp h
    cases h
    exact hs
  | _ => cases h

/-- One token leads from a proper state to a proper one. -/
theorem step_proper (hs : state.Proper) (h : step state token = some next) : next.Proper := by
  unfold step at h
  -- the cases come in the order of the clauses
  split at h
  next => exact start_proper hs h
  next =>
    cases h
    exact deliver_proper hs (.arr nofun)
  next =>
    have hf : (Frame.array []).Proper := List.forall_mem_nil _
    exact start_proper (List.forall_mem_cons.mpr ⟨hf, hs⟩) h
  next =>
    cases h
    exact deliver_proper hs (.obj .nil nofun)
  next =>
    cases h
    exact ⟨properEntries_nil, hs⟩
  next =>
    cases h
    exact hs
  next =>
    cases h
    exact List.forall_mem_cons.mpr hs
  next =>
    cases h
    exact List.forall_mem_cons.mpr hs
  next =>
    cases h
    exact deliver_proper hs.2 (.arr fun j hj ↦ hs.1 j (List.mem_reverse.mp hj))
  next =>
    cases h
    exact hs
  next =>
    cases h
    exact deliver_proper hs.2 (.obj hs.1.1 hs.1.2)
  next => cases h

theorem foldlM_step_proper {tokens : List Token} (hs : state.Proper)
    (h : tokens.foldlM step state = some next) : next.Proper := by
  induction tokens generalizing state with
  | nil =>
    cases h
    exact hs
  | cons token rest ih =>
    rw [List.foldlM_cons] at h
    obtain ⟨mid, hm, h⟩ := Option.bind_eq_some_iff.mp h
    exact ih (step_proper hs hm) h

end Reader

theorem parse?_proper {text : String} {json : Json} (h : parse? text = some json) :
    json.Proper := by
  obtain ⟨tokens, -, h⟩ := Option.bind_eq_some_iff.mp h
  obtain ⟨state, hs, h⟩ := Option.bind_eq_some_iff.mp h
  have hstart : (Reader.State.value []).Proper := List.forall_mem_nil _
  have hp : state.Proper := Reader.foldlM_step_proper hstart hs
  cases state with
  | done value =>
    cases h
    exact hp
  | _ => cases h

end TypedRecord.Json
