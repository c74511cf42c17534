import TypedRecord.Catalog.Models
import TypedRecord.Proofs.Schema.Built

namespace TypedRecord.Catalog

theorem built_of_nested {s : Schema} (hs : s ∈ all) (hn : ∀ t ∈ s.nested, t.Built) : s.Built :=
  .intro (error?_eq_none_of_mem_all s hs) hn

theorem range_built : range.Built :=
  built_of_nested (by simp [all]) nofun

theorem fieldCondition_built : fieldCondition.Built := by
  have hn : fieldCondition.nested = [range] := rfl
  refine built_of_nested (by simp [all]) fun t ht ↦ ?_
  rw [hn, List.mem_singleton] at ht
  exact ht ▸ range_built

theorem chunkFilter_built : chunkFilter.Built := by
  have hn : chunkFilter.nested = [fieldCondition, fieldCondition, fieldCondition] := rfl
  refine built_of_nested (by simp [all]) fun t ht ↦ ?_
  simp only [hn, List.mem_cons, List.not_mem_nil, or_false, or_self] at ht
  exact ht ▸ fieldCondition_built

/-- A shipped schema names only schemas shipped before it. -/
theorem built_of_mem_all : ∀ s ∈ all, s.Built := by
  have hcontext : contextOptions.Built := built_of_nested (by simp [all]) nofun
  have hhighlight : highlightOptions.Built := built_of_nested (by simp [all]) nofun
  have hllm : llmOptions.Built := built_of_nested (by simp [all]) nofun
  have hsort : sortOptions.Built := built_of_nested (by simp [all]) nofun
  have hmessage : createMessage.Built := by
    have hn : createMessage.nested =
      [contextOptions, chunkFilter, highlightOptions, llmOptions, sortOptions] := rfl
    refine built_of_nested (by simp [all]) fun t ht ↦ ?_
    simp only [hn, List.mem_cons, List.not_mem_nil, or_false] at ht
    rcases ht with rfl | rfl | rfl | rfl | rfl
    · exact hcontext
    · exact chunkFilter_built
    · exact hhighlight
    · exact hllm
    · exact hsort
  have hrating : queryRating.Built := built_of_nested (by simp [all]) nofun
  intro s hs
  simp only [all, List.mem_cons, List.not_mem_nil, or_false] at hs
  rcases hs with rfl | rfl | rfl | rfl | rfl | rfl | rfl | rfl | rfl
  · exact range_built
  · exact fieldCondition_built
  · exact chunkFilter_built
  · exact hcontext
  · exact hhighlight
  · exact hllm
  · exact hsort
  · exact hmessage
  · exact hrating

end TypedRecord.Catalog
