import CacheCoherence.Model.Cache

/-! # Sequences of cache calls

The public operations of `Cache` as the steps of one cache, and what the eviction loop does.
-/
namespace CacheCoherence.Cache
variable {V : Type}

inductive Call (V : Type) where
  | add (ga : GlobalAddress) (ci : CacheItem V)
  | remove (ga : GlobalAddress)
  | get (now : ℤ) (ga : GlobalAddress)
  | alter (ci : CacheItem V) (ga : GlobalAddress)

/-- `none` when the call does not return. -/
def perform (c : Cache V) : Call V → Option (Cache V)
  | .add ga ci => c.addCacheItem ga ci
  | .remove ga => some (c.removeCacheItem ga).1
  | .get now ga => some (c.getCacheItem now ga).1
  | .alter ci ga => c.alterCacheItem ci ga

def Call.Within (m : UInt64) : Call V → Prop
  | .add ga ci | .alter ci ga => ga.size ≤ m ∧ ci.globalAddress.size ≤ m
  | .remove ga | .get _ ga => ga.size ≤ m

def Call.Dated : Call V → Prop
  | .add _ ci | .alter ci _ => 0 < ci.lastused
  | .get now _ => 0 < now
  | .remove _ => True

instance (m : UInt64) : DecidablePred (Call.Within (V := V) m)
  | .add ga ci | .alter ci ga => inferInstanceAs (Decidable (ga.size ≤ m ∧ ci.globalAddress.size ≤ m))
  | .remove ga | .get _ ga => inferInstanceAs (Decidable (ga.size ≤ m))

instance : DecidablePred (Call.Dated (V := V))
  | .add _ ci | .alter ci _ => inferInstanceAs (Decidable (0 < ci.lastused))
  | .get now _ => inferInstanceAs (Decidable (0 < now))
  | .remove _ => isTrue trivial

def EvictionEnds (c : Cache V) (size : UInt64) : Prop := ∃ fuel, (evict size fuel c).isSome

variable {c c' : Cache V} {k : UInt64} {it : CacheItem V} {size : UInt64} {fuel : ℕ}
    {items : Std.TreeMap UInt64 (CacheItem V)}

theorem getCacheItem_snd (c : Cache V) (now : ℤ) (ga : GlobalAddress) :
    (c.getCacheItem now ga).2 = c.items[ga.hash]?.map fun it => { it with lastused := now } := by
  unfold getCacheItem
  cases c.items[ga.hash]? <;> rfl

theorem latest_scan (l : List (UInt64 × CacheItem V)) (acc : Option (UInt64 × CacheItem V)) :
    let r := l.foldl (fun latest p => if latest.elim 0 (fun q => q.2.lastused) < p.2.lastused then some (p.1, p.2)
      else latest) acc
    (r = acc ∨ ∃ p ∈ l, r = some p) ∧ (r = none → ∀ p ∈ l, p.2.lastused ≤ 0) := by
  induction l generalizing acc with
  | nil => exact ⟨Or.inl rfl, fun _ p hp => absurd hp List.not_mem_nil⟩
  | cons p l ih =>
    simp only [List.foldl_cons]
    obtain ⟨hfrom, hnone⟩ := ih (if acc.elim 0 (fun q => q.2.lastused) < p.2.lastused then some (p.1, p.2) else acc)
    refine ⟨?_, fun hr q hq => ?_⟩
    · rcases hfrom with hr | ⟨q, hq, hr⟩
      · rw [hr]
        split
        · exact Or.inr ⟨p, List.mem_cons_self, rfl⟩
        · exact Or.inl rfl
      · exact Or.inr ⟨q, List.mem_cons_of_mem _ hq, hr⟩
    · rcases List.mem_cons.mp hq with rfl | hq
      · rcases hfrom with hstart | ⟨q', -, hq'⟩
        · rw [hstart] at hr
          split at hr
          · cases hr
          · rename_i hle
            rw [hr] at hle
            exact not_lt.mp hle
        · rw [hr] at hq'
          cases hq'
      · exact hnone hr q hq

theorem latest_mem (h : latest items = some (k, it)) : items[k]? = some it := by
  rw [latest, Std.TreeMap.foldl_eq_foldl_toList] at h
  rcases (latest_scan items.toList none).1 with hr | ⟨p, hp, hr⟩
  · rw [h] at hr
    cases hr
  · rw [h] at hr
    cases hr
    exact Std.TreeMap.mem_toList_iff_getElem?_eq_some.mp hp

theorem latest_eq_none : latest items = none ↔ ∀ (k : UInt64) (it : CacheItem V), items[k]? = some it →
    it.lastused ≤ 0 := by
  constructor
  · intro h k it hit
    rw [latest, Std.TreeMap.foldl_eq_foldl_toList] at h
    exact (latest_scan items.toList none).2 h (k, it) (Std.TreeMap.mem_toList_iff_getElem?_eq_some.mpr hit)
  · intro h
    rw [latest, Std.TreeMap.foldl_eq_foldl_toList]
    have hnone : ∀ l : List (UInt64 × CacheItem V), (∀ p ∈ l, p.2.lastused ≤ 0) →
        l.foldl (fun latest p => if latest.elim 0 (fun q => q.2.lastused) < p.2.lastused then some (p.1, p.2)
          else latest) none = none := by
      intro l hl
      induction l with
      | nil => rfl
      | cons p l ih =>
        have hp : ¬ (0 : ℤ) < p.2.lastused := not_lt.mpr (hl p List.mem_cons_self)
        simp only [List.foldl_cons, Option.elim_none, hp, ↓reduceIte]
        exact ih fun q hq => hl q (List.mem_cons_of_mem _ hq)
    exact hnone items.toList fun p hp => h p.1 p.2 (Std.TreeMap.mem_toList_iff_getElem?_eq_some.mp hp)

/-- Once no item was used after the epoch, the rounds free nothing. -/
theorem evict_stuck (h : latest c.items = none) (hlt : c.availablesize < size) : evict size fuel c = none := by
  induction fuel generalizing c with
  | zero => rw [evict, if_pos hlt]
  | succ fuel ih =>
    have hround : c.removeOldestItem = { c with items := c.items.erase 0 } := by rw [removeOldestItem, h]
    rw [evict, if_pos hlt, hround]
    refine ih ?_ hlt
    exact latest_eq_none.mpr fun k it hit =>
      latest_eq_none.mp h k it ((shrinks_erase c 0 c.availablesize).items k it hit)

theorem removeOldestItem_of_latest (h : latest c.items = some (k, it)) :
    c.removeOldestItem =
      { c with availablesize := c.availablesize + it.globalAddress.size, items := c.items.erase k } := by
  rw [removeOldestItem, h]

theorem size_removeOldestItem (h : latest c.items = some (k, it)) :
    c.removeOldestItem.items.size + 1 = c.items.size := by
  have hmem : k ∈ c.items := Std.TreeMap.mem_iff_isSome_getElem?.mpr (by simp [latest_mem h])
  have hpos : c.items.size ≠ 0 := by
    intro hzero
    have hempty : c.items.isEmpty = true := by rw [Std.TreeMap.isEmpty_eq_size_eq_zero]; simp [hzero]
    exact Std.TreeMap.isEmpty_iff_forall_not_mem.mp hempty k hmem
  rw [removeOldestItem_of_latest h]
  rw [Std.TreeMap.size_erase, if_pos (Std.TreeMap.mem_iff_contains.mp hmem)]
  omega

/-- As many rounds as there are items decide whether the loop ends. -/
theorem evict_size_enough (h : EvictionEnds c size) : (evict size c.items.size c).isSome := by
  obtain ⟨fuel, hf⟩ := h
  induction fuel generalizing c with
  | zero =>
    have hge : ¬ c.availablesize < size := by
      intro hlt
      rw [evict, if_pos hlt] at hf
      cases hf
    cases c.items.size <;> rw [evict, if_neg hge] <;> rfl
  | succ fuel ih =>
    by_cases hlt : c.availablesize < size
    · cases hl : latest c.items with
      | none =>
        rw [evict_stuck hl hlt] at hf
        cases hf
      | some p =>
        obtain ⟨k, it⟩ := p
        rw [evict, if_pos hlt] at hf
        have hend := ih hf
        rw [← size_removeOldestItem hl, evict, if_pos hlt]
        exact hend
    · cases c.items.size <;> rw [evict, if_neg hlt] <;> rfl

theorem addCacheItem_isSome_iff {ga : GlobalAddress} {ci : CacheItem V} (hsize : ga.size ≤ c.maxsize) :
    (c.addCacheItem ga ci).isSome ↔ EvictionEnds c ga.size := by
  by_cases hroom : ga.size ≤ c.availablesize
  · have hend : EvictionEnds c ga.size := ⟨0, by simpa [evict] using hroom⟩
    simp [addCacheItem, hsize, hroom, hend]
  · simp only [addCacheItem, hsize, hroom, ↓reduceIte]
    exact ⟨fun h => ⟨_, h⟩, evict_size_enough⟩

end CacheCoherence.Cache
