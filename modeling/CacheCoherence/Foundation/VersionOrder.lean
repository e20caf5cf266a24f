import Mathlib.Data.List.Nodup

/-! # The order of versions

A value that is only ever replaced has a list of versions, oldest first. The list grows at its end.
-/
namespace CacheCoherence.VersionOrder
variable {α : Type*} [DecidableEq α] {vs ws : List α} {u v w : α}

/-- `w` is a version in `vs`, and `v` is one that is not newer. -/
def NoNewer (vs : List α) (v w : α) : Prop := vs.idxOf v ≤ vs.idxOf w ∧ w ∈ vs

theorem NoNewer.mem (h : NoNewer vs v w) : v ∈ vs := by
  have hw : vs.idxOf w < vs.length := List.idxOf_lt_length_iff.mpr h.2
  have hle := h.1
  exact List.idxOf_lt_length_iff.mp (by omega)

theorem NoNewer.refl (h : v ∈ vs) : NoNewer vs v v := ⟨Nat.le_refl _, h⟩

theorem NoNewer.append (h : NoNewer vs v w) (ws : List α) : NoNewer (vs ++ ws) v w := by
  have hv := h.mem
  obtain ⟨hle, hw⟩ := h
  refine ⟨?_, List.mem_append_left ws hw⟩
  rw [List.idxOf_append_of_mem hv, List.idxOf_append_of_mem hw]
  exact hle

theorem noNewer_concat (hw : w ∉ vs) (hv : v ∈ vs ++ [w]) : NoNewer (vs ++ [w]) v w := by
  refine ⟨?_, by simp⟩
  have hlast : (vs ++ [w]).idxOf w = vs.length := by
    simp [List.idxOf_append_of_notMem hw]
  have hlt : (vs ++ [w]).idxOf v < (vs ++ [w]).length := List.idxOf_lt_length_iff.mpr hv
  rw [List.length_append, List.length_singleton] at hlt
  omega

theorem noNewer_getLast (hn : vs.Nodup) (hl : vs.getLast? = some w) (hv : v ∈ vs) : NoNewer vs v w := by
  obtain ⟨us, rfl⟩ := List.getLast?_eq_some_iff.mp hl
  have hw : w ∉ us := by
    intro h
    exact List.disjoint_of_nodup_append hn h (List.mem_singleton_self w)
  exact noNewer_concat hw hv

end CacheCoherence.VersionOrder
