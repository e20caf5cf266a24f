import Mathlib

/-! # Sums over the entries of a map

The sum of a natural number for each entry of an ordered map, and how an insertion or an erasure changes it.
-/
namespace CacheCoherence.MapSums
variable {K V : Type*} [Ord K] [Std.TransOrd K] [Std.LawfulEqOrd K]

def total (f : V → ℕ) (m : Std.TreeMap K V) : ℕ := (m.toList.map fun p => f p.2).sum

variable {f : V → ℕ} {m : Std.TreeMap K V} {k : K} {v w : V}

omit [Std.TransOrd K] [Std.LawfulEqOrd K] in
@[simp] theorem total_empty : total f (∅ : Std.TreeMap K V) = 0 := by
  have hnil : (∅ : Std.TreeMap K V).toList = [] := List.isEmpty_iff.mp (by simp)
  rw [total, hnil]
  rfl

theorem toList_perm_erase (h : m[k]? = some v) : m.toList.Perm ((k, v) :: (m.erase k).toList) := by
  refine (List.perm_ext_iff_of_nodup ?_ ?_).mpr fun p => ?_
  · exact List.Nodup.of_map Prod.fst (by simpa using m.nodup_keys)
  · refine List.nodup_cons.mpr ⟨by simp, List.Nodup.of_map Prod.fst (by simpa using (m.erase k).nodup_keys)⟩
  · obtain ⟨a, b⟩ := p
    rw [List.mem_cons, Std.TreeMap.mem_toList_iff_getElem?_eq_some, Std.TreeMap.mem_toList_iff_getElem?_eq_some,
      Std.TreeMap.getElem?_erase]
    by_cases hk : k = a
    · subst hk
      simp [h, eq_comm]
    · simp [hk, Ne.symm hk]

theorem total_eq_add_erase (h : m[k]? = some v) : total f m = f v + total f (m.erase k) := by
  rw [total, ((toList_perm_erase h).map _).sum_eq]
  rfl

theorem total_congr {m' : Std.TreeMap K V} (h : ∀ a : K, m[a]? = m'[a]?) : total f m = total f m' := by
  have hperm : m.toList.Perm m'.toList := by
    refine (List.perm_ext_iff_of_nodup ?_ ?_).mpr fun p => ?_
    · exact List.Nodup.of_map Prod.fst (by simpa using m.nodup_keys)
    · exact List.Nodup.of_map Prod.fst (by simpa using m'.nodup_keys)
    · obtain ⟨a, b⟩ := p
      rw [Std.TreeMap.mem_toList_iff_getElem?_eq_some, Std.TreeMap.mem_toList_iff_getElem?_eq_some, h a]
  exact (hperm.map _).sum_eq

theorem total_erase_of_not_mem (h : k ∉ m) : total f (m.erase k) = total f m := by
  refine total_congr fun a => ?_
  rw [Std.TreeMap.getElem?_erase]
  by_cases hk : k = a
  · subst hk
    simp [Std.TreeMap.getElem?_eq_none h]
  · simp [hk]

theorem total_insert_of_not_mem (h : k ∉ m) : total f (m.insert k v) = f v + total f m := by
  have herase : total f ((m.insert k v).erase k) = total f m := by
    refine total_congr fun a => ?_
    rw [Std.TreeMap.getElem?_erase, Std.TreeMap.getElem?_insert]
    by_cases hk : k = a
    · subst hk
      simp [Std.TreeMap.getElem?_eq_none h]
    · simp [hk]
  rw [total_eq_add_erase (k := k) (v := v) (by simp), herase]

/-- A replacement trades the old value for the new one. -/
theorem total_insert_of_mem (h : m[k]? = some w) : f w + total f (m.insert k v) = f v + total f m := by
  have herase : total f ((m.insert k v).erase k) = total f (m.erase k) := by
    refine total_congr fun a => ?_
    rw [Std.TreeMap.getElem?_erase, Std.TreeMap.getElem?_erase, Std.TreeMap.getElem?_insert]
    by_cases hk : k = a
    · simp [hk]
    · simp [hk]
  have hnew := total_eq_add_erase (f := f) (m := m.insert k v) (k := k) (v := v) (by simp)
  have hold := total_eq_add_erase (f := f) h
  omega

end CacheCoherence.MapSums
