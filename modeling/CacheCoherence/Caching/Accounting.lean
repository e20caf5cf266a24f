import CacheCoherence.Caching.Calls
import CacheCoherence.Foundation.MapSums
import CacheCoherence.Foundation.TransitionRuns

/-! # The space of a cache

`availablesize` and the sizes of the stored items, over sequences of calls. An insertion that makes room and
a lookup keep their sum; the other calls change it by what is named here.
-/
namespace CacheCoherence.Cache
open TransitionRuns MapSums
variable {V : Type}

def itemSpace (it : CacheItem V) : ℕ := it.globalAddress.size.toNat

def used (c : Cache V) : ℕ := total itemSpace c.items

def Accounted (c : Cache V) : Prop := c.availablesize.toNat + c.used = c.maxsize.toNat

def Ends (c : Cache V) : Prop := ∀ ga : GlobalAddress, ga.size ≤ c.maxsize → c.EvictionEnds ga.size

def spaceAt (c : Cache V) (ga : GlobalAddress) : ℕ := c.items[ga.hash]?.elim 0 itemSpace

/-- The space that `addCacheItem` takes off the counter, and the space of the item that it stores. -/
def addBalance (c : Cache V) (ga : GlobalAddress) (ci : CacheItem V) : ℕ × ℕ :=
  if ga.size ≤ c.availablesize then (ga.size.toNat, if ga.hash ∈ c.items then 0 else itemSpace ci) else (0, 0)

def Call.balance (c : Cache V) : Call V → ℕ × ℕ
  | .add ga ci => c.addBalance ga ci
  | .remove ga => (c.spaceAt ga, 0)
  | .get _ _ => (0, 0)
  | .alter ci ga => if ga.hash ∈ c.items then (c.spaceAt ga, itemSpace ci) else c.addBalance ga ci

def Balanced (c : Cache V) (a : Call V) : Prop := (a.balance c).1 = (a.balance c).2

instance (c : Cache V) (a : Call V) : Decidable (Balanced c a) := inferInstanceAs (Decidable (_ = _))

/-- The counter and the items still add up to the capacity after the call, or to more. -/
def SpaceKept (c : Cache V) (a : Call V) : Prop :=
  c.maxsize.toNat + (a.balance c).1 ≤ c.availablesize.toNat + c.used + (a.balance c).2

instance (c : Cache V) (a : Call V) : Decidable (SpaceKept c a) := inferInstanceAs (Decidable (_ ≤ _))

/-- The capacity is the constructor's, and every item fits into it. -/
structure Fits (c : Cache V) : Prop where
  capacity : c.maxsize = 512
  item : ∀ (k : UInt64) (it : CacheItem V), c.items[k]? = some it → itemSpace it ≤ 512

def DatedItems (c : Cache V) : Prop := ∀ (k : UInt64) (it : CacheItem V), c.items[k]? = some it → 0 < it.lastused

section
variable {c c' : Cache V} {k : UInt64} {it ci : CacheItem V} {size : UInt64} {fuel : ℕ} {ga : GlobalAddress}
    {a : Call V}

theorem used_new : (new : Cache V).used = 0 := total_empty

theorem spaceAt_of_some (h : c.items[ga.hash]? = some it) : c.spaceAt ga = itemSpace it := by
  rw [spaceAt, h]
  rfl

theorem spaceAt_of_not_mem (h : ga.hash ∉ c.items) : c.spaceAt ga = 0 := by
  rw [spaceAt, Std.TreeMap.getElem?_eq_none h]
  rfl

theorem exists_of_mem (h : k ∈ c.items) : ∃ it, c.items[k]? = some it :=
  Option.isSome_iff_exists.mp (Std.TreeMap.mem_iff_isSome_getElem?.mp h)

theorem removeOldestItem_space (hfits : c.Fits) (hsize : size ≤ 512) (hlt : c.availablesize < size)
    (hl : latest c.items = some (k, it)) :
    c.removeOldestItem.availablesize.toNat + c.removeOldestItem.used = c.availablesize.toNat + c.used := by
  have hit := latest_mem hl
  have hspace := hfits.item k it hit
  have htotal := total_eq_add_erase (f := itemSpace) hit
  have hbound : c.availablesize.toNat < 512 :=
    lt_of_lt_of_le (UInt64.lt_iff_toNat_lt.mp hlt) (UInt64.le_iff_toNat_le.mp hsize)
  have hadd : (c.availablesize + it.globalAddress.size).toNat = c.availablesize.toNat + itemSpace it := by
    rw [UInt64.toNat_add, Nat.mod_eq_of_lt, itemSpace]
    rw [itemSpace] at hspace
    omega
  rw [removeOldestItem_of_latest hl, used, used]
  simp only
  omega

theorem Fits.of_shrinks (h : c.Fits) (hs : Shrinks c c') : c'.Fits :=
  ⟨hs.maxsize.trans h.capacity, fun k it hit => h.item k it (hs.items k it hit)⟩

theorem DatedItems.of_shrinks (h : c.DatedItems) (hs : Shrinks c c') : c'.DatedItems :=
  fun k it hit => h k it (hs.items k it hit)

theorem evict_space (hfits : c.Fits) (hsize : size ≤ 512) (he : evict size fuel c = some c') :
    c'.availablesize.toNat + c'.used = c.availablesize.toNat + c.used ∧ c'.Fits ∧ size ≤ c'.availablesize := by
  induction fuel generalizing c with
  | zero =>
    rw [evict] at he
    split at he
    · cases he
    · rename_i hge
      cases he
      exact ⟨rfl, hfits, UInt64.not_lt.mp hge⟩
  | succ fuel ih =>
    by_cases hlt : c.availablesize < size
    · cases hl : latest c.items with
      | none =>
        rw [evict_stuck hl hlt] at he
        cases he
      | some p =>
        obtain ⟨k, it⟩ := p
        rw [evict, if_pos hlt] at he
        obtain ⟨hsum, hrest⟩ := ih (hfits.of_shrinks (shrinks_removeOldestItem c)) he
        exact ⟨hsum.trans (removeOldestItem_space hfits hsize hlt hl), hrest⟩
    · rw [evict, if_neg hlt] at he
      cases he
      exact ⟨rfl, hfits, UInt64.not_lt.mp hlt⟩

/-- With items used after the epoch, the loop ends exactly if counter and items have the space. -/
theorem evictionEnds_iff (hfits : c.Fits) (hdated : c.DatedItems) (hsize : size ≤ 512) :
    c.EvictionEnds size ↔ size.toNat ≤ c.availablesize.toNat + c.used := by
  constructor
  · rintro ⟨fuel, hf⟩
    obtain ⟨c', he⟩ := Option.isSome_iff_exists.mp hf
    obtain ⟨hsum, -, hroom⟩ := evict_space hfits hsize he
    have hroom' := UInt64.le_iff_toNat_le.mp hroom
    omega
  · intro hle
    induction hn : c.items.size generalizing c with
    | zero =>
      have hempty : c.items.isEmpty = true := by
        rw [Std.TreeMap.isEmpty_eq_size_eq_zero]
        simp [hn]
      have hnone : ∀ k : UInt64, c.items[k]? = (∅ : Std.TreeMap UInt64 (CacheItem V))[k]? := by
        intro k
        rw [Std.TreeMap.getElem?_eq_none (Std.TreeMap.isEmpty_iff_forall_not_mem.mp hempty k)]
        simp
      have hused : c.used = 0 := by
        rw [used, total_congr hnone, total_empty]
      have hroom : size ≤ c.availablesize := UInt64.le_iff_toNat_le.mpr (by omega)
      exact ⟨0, by simpa [evict] using hroom⟩
    | succ n ih =>
      by_cases hlt : c.availablesize < size
      · cases hl : latest c.items with
        | none =>
          have hpos : c.items.isEmpty = false := by
            rw [Std.TreeMap.isEmpty_eq_size_eq_zero]
            simp [hn]
          obtain ⟨k, hk⟩ := Std.TreeMap.isEmpty_eq_false_iff_exists_mem.mp hpos
          obtain ⟨it, hit⟩ := exists_of_mem hk
          have hpast := latest_eq_none.mp hl k it hit
          have hafter := hdated k it hit
          omega
        | some p =>
          obtain ⟨k, it⟩ := p
          have hsum := removeOldestItem_space hfits hsize hlt hl
          have hcount := size_removeOldestItem hl
          have hshrinks := shrinks_removeOldestItem c
          obtain ⟨fuel, hf⟩ := ih (hfits.of_shrinks hshrinks) (hdated.of_shrinks hshrinks) (by omega) (by omega)
          exact ⟨fuel + 1, by rwa [evict, if_pos hlt]⟩
      · exact ⟨0, by rw [evict, if_neg hlt]; rfl⟩

theorem ends_iff (hfits : c.Fits) (hdated : c.DatedItems) : c.Ends ↔
    c.maxsize.toNat ≤ c.availablesize.toNat + c.used := by
  constructor
  · intro h
    exact (evictionEnds_iff hfits hdated (hfits.capacity ▸ UInt64.le_refl _)).mp
      (h ⟨c.maxsize, 0, 0⟩ (UInt64.le_refl _))
  · intro hle ga hga
    have hga' := UInt64.le_iff_toNat_le.mp hga
    exact (evictionEnds_iff hfits hdated (hfits.capacity ▸ hga)).mpr (by omega)

theorem Fits.insert {items : Std.TreeMap UInt64 (CacheItem V)} {available : UInt64} (h : c.Fits)
    (hit : ∀ (k : UInt64) (jt : CacheItem V), items[k]? = some jt → c.items[k]? = some jt ∨ itemSpace jt ≤ 512) :
    Fits { c with items := items, availablesize := available } :=
  ⟨h.capacity, fun k jt hjt => (hit k jt hjt).elim (h.item k jt) id⟩

theorem addCacheItem_space (hfits : c.Fits) (hga : ga.size ≤ 512) (hci : ci.globalAddress.size ≤ 512)
    (h : c.addCacheItem ga ci = some c') :
    c'.availablesize.toNat + c'.used + (c.addBalance ga ci).1 = c.availablesize.toNat + c.used +
      (c.addBalance ga ci).2 ∧
      c'.Fits := by
  rw [addCacheItem, if_pos (hfits.capacity ▸ hga)] at h
  by_cases hroom : ga.size ≤ c.availablesize
  · rw [if_pos hroom] at h
    cases h
    have hsub : (c.availablesize - ga.size).toNat = c.availablesize.toNat - ga.size.toNat :=
      UInt64.toNat_sub_of_le _ _ hroom
    have hle := UInt64.le_iff_toNat_le.mp hroom
    have hused :
      total itemSpace (c.items.insertIfNew ga.hash ci) = c.used + if ga.hash ∈ c.items then 0 else itemSpace ci := by
      by_cases hmem : ga.hash ∈ c.items
      · rw [if_pos hmem, used, Nat.add_zero]
        refine total_congr fun k => ?_
        rw [Std.TreeMap.getElem?_insertIfNew, if_neg (by simp [hmem])]
      · rw [if_neg hmem, used, Nat.add_comm, ← total_insert_of_not_mem hmem]
        refine total_congr fun k => ?_
        rw [Std.TreeMap.getElem?_insertIfNew, Std.TreeMap.getElem?_insert]
        simp [hmem]
    refine ⟨?_, hfits.insert fun k jt hjt => ?_⟩
    · rw [addBalance, if_pos hroom, used]
      simp only [hsub, hused]
      omega
    · rw [Std.TreeMap.getElem?_insertIfNew] at hjt
      split at hjt
      · cases hjt
        exact Or.inr (UInt64.le_iff_toNat_le.mp hci)
      · exact Or.inl hjt
  · rw [if_neg hroom] at h
    obtain ⟨hsum, hfits', -⟩ := evict_space hfits hga h
    rw [addBalance, if_neg hroom]
    exact ⟨hsum, hfits'⟩

theorem perform_space (hfits : c.Fits) (ha : a.Within 512) (h : c.perform a = some c') :
    c'.availablesize.toNat + c'.used + (a.balance c).1 = c.availablesize.toNat + c.used + (a.balance c).2 ∧
      c'.Fits := by
  cases a with
  | add ga ci => exact addCacheItem_space hfits ha.1 ha.2 h
  | remove ga =>
    cases h
    refine ⟨?_, hfits.of_shrinks (shrinks_removeCacheItem c ga)⟩
    simp only [removeCacheItem, Call.balance, used]
    by_cases hmem : ga.hash ∈ c.items
    · obtain ⟨it, hit⟩ := exists_of_mem hmem
      have htotal := total_eq_add_erase (f := itemSpace) hit
      rw [spaceAt_of_some hit]
      omega
    · rw [spaceAt_of_not_mem hmem, total_erase_of_not_mem hmem]
  | get now ga =>
    cases h
    unfold getCacheItem
    cases hit : c.items[ga.hash]? with
    | none => exact ⟨rfl, hfits⟩
    | some it =>
      refine ⟨?_, hfits.insert fun k jt hjt => ?_⟩
      · have htotal := total_insert_of_mem (f := itemSpace) (v := { it with lastused := now }) hit
        have hsame : itemSpace { it with lastused := now } = itemSpace it := rfl
        simp only [Call.balance, used]
        omega
      · rw [Std.TreeMap.getElem?_insert] at hjt
        split at hjt
        · cases hjt
          exact Or.inr (show itemSpace it ≤ 512 from hfits.item ga.hash it hit)
        · exact Or.inl hjt
  | alter ci ga =>
    simp only [perform, alterCacheItem] at h
    by_cases hmem : ga.hash ∈ c.items
    · rw [if_pos hmem] at h
      cases h
      obtain ⟨it, hit⟩ := exists_of_mem hmem
      refine ⟨?_, hfits.insert fun k jt hjt => ?_⟩
      · have htotal := total_insert_of_mem (f := itemSpace) (v := ci) hit
        simp only [Call.balance, if_pos hmem, used, spaceAt_of_some hit]
        omega
      · rw [Std.TreeMap.getElem?_insert] at hjt
        split at hjt
        · cases hjt
          exact Or.inr (UInt64.le_iff_toNat_le.mp ha.2)
        · exact Or.inl hjt
    · rw [if_neg hmem] at h
      simp only [Call.balance, if_neg hmem]
      exact addCacheItem_space hfits ha.1 ha.2 h

theorem addCacheItem_dated (hd : c.DatedItems) (hci : 0 < ci.lastused) (h : c.addCacheItem ga ci = some c') :
    c'.DatedItems := by
  unfold addCacheItem at h
  split at h
  · split at h
    · cases h
      intro k it hit
      rw [Std.TreeMap.getElem?_insertIfNew] at hit
      split at hit
      · cases hit
        exact hci
      · exact hd k it hit
    · exact hd.of_shrinks (shrinks_evict h)
  · cases h

theorem insert_dated {items : Std.TreeMap UInt64 (CacheItem V)} (hd : ∀ (k : UInt64) (it : CacheItem V),
    items[k]? = some it → 0 < it.lastused) (hci : 0 < ci.lastused) (h : (items.insert k ci)[size]? = some it) :
    0 < it.lastused := by
  rw [Std.TreeMap.getElem?_insert] at h
  split at h
  · cases h
    exact hci
  · exact hd _ _ h

theorem perform_dated (hd : c.DatedItems) (ha : a.Dated) (h : c.perform a = some c') : c'.DatedItems := by
  cases a with
  | add ga ci => exact addCacheItem_dated hd ha h
  | remove ga =>
    cases h
    exact hd.of_shrinks (shrinks_removeCacheItem c ga)
  | get now ga =>
    cases h
    unfold getCacheItem
    cases hit : c.items[ga.hash]? with
    | none => exact hd
    | some it =>
      have hnow : 0 < ({ it with lastused := now } : CacheItem V).lastused := ha
      exact fun k jt hjt => insert_dated hd hnow hjt
  | alter ci ga =>
    simp only [perform, alterCacheItem] at h
    split at h
    · cases h
      exact fun k jt hjt => insert_dated hd ha hjt
    · exact addCacheItem_dated hd ha h

theorem fits_new : (new : Cache V).Fits := ⟨rfl, fun k it hit => by simp [new] at hit⟩

theorem dated_new : (new : Cache V).DatedItems := fun k it hit => by simp [new] at hit

end

def twoStored : List (Call ℕ) :=
  let a : GlobalAddress := ⟨256, 4096, 3000⟩
  let b : GlobalAddress := ⟨128, 8192, 3000⟩
  [.add a ⟨a, 7, 1, 1⟩, .get 2 a, .alter ⟨b, 8, 3, 3⟩ b]

/-- In a sequence of calls with sizes that fit and times after the epoch, the eviction loop ends in every
state for every address that fits exactly if no call takes more space than it stores and was left over. -/
theorem eviction_ends_iff (cs : List (Call V)) (hcs : ∀ a ∈ cs, a.Within 512 ∧ a.Dated) :
    Always perform Ends (new : Cache V) cs ↔ Meets perform SpaceKept (new : Cache V) cs := by
  refine always_iff_meets_of (p := fun a => a.Within 512 ∧ a.Dated) (J := fun c => c.Fits ∧ c.DatedItems) ?_ ?_ hcs
    ⟨fits_new, dated_new⟩ ?_
  · rintro c a c' ⟨ha, hdate⟩ ⟨hfits, hdated⟩ - h -
    exact ⟨(perform_space hfits ha h).2, perform_dated hdated hdate h⟩
  · rintro c a c' ⟨ha, hdate⟩ ⟨hfits, hdated⟩ - h
    obtain ⟨hsum, hfits'⟩ := perform_space hfits ha h
    rw [ends_iff hfits' (perform_dated hdated hdate h), SpaceKept, hfits.capacity, hfits'.capacity]
    constructor <;> intro hle <;> omega
  · have hle : (new : Cache V).maxsize.toNat ≤ (new : Cache V).availablesize.toNat := by simp [new]
    exact (ends_iff fits_new dated_new).mpr (by omega)

def storedAndRemoved : List (Call ℕ) :=
  let ga : GlobalAddress := ⟨512, 4096, 3000⟩
  [.add ga ⟨ga, 7, 1, 1⟩, .remove ga]

/-- The space is not given back, and the loop for eight bytes runs on over an empty map. -/
theorem eviction_runs_on :
    ¬ ∀ cs : List (Call ℕ), (∀ a ∈ cs, a.Within 512 ∧ a.Dated) → Always perform Ends (new : Cache ℕ) cs := by
  intro h
  have hcs : ∀ a ∈ storedAndRemoved, a.Within 512 ∧ a.Dated := by decide
  have hend := always_iff_passed.mp (h storedAndRemoved hcs) storedAndRemoved
  have hlast : (run perform (new : Cache ℕ) storedAndRemoved).isSome = true := by decide +kernel
  obtain ⟨c, hrun⟩ := Option.isSome_iff_exists.mp hlast
  have hmax : c.maxsize = 512 := by
    have heq : (run perform (new : Cache ℕ) storedAndRemoved).map maxsize = some 512 := by decide +kernel
    simpa [hrun] using heq
  have hfull : c.availablesize = 0 := by
    have heq : (run perform (new : Cache ℕ) storedAndRemoved).map availablesize = some 0 := by decide +kernel
    simpa [hrun] using heq
  have hempty : latest c.items = none := by
    have heq :
      (run perform (new : Cache ℕ) storedAndRemoved).map (fun c => latest c.items) = some none := by decide +kernel
    simpa [hrun] using heq
  obtain ⟨fuel, hf⟩ := hend c (List.prefix_refl _) hrun ⟨8, 8192, 3000⟩ (by rw [hmax]; decide)
  rw [evict_stuck hempty (by rw [hfull]; decide)] at hf
  cases hf

theorem eviction_ends_twoStored : Always perform Ends (new : Cache ℕ) twoStored := by
  have hcs : ∀ a ∈ twoStored, a.Within 512 ∧ a.Dated := by decide
  exact (eviction_ends_iff twoStored hcs).mpr (by decide +kernel)

/-- In a sequence of calls with sizes that fit, the counter and the stored items add up to the capacity in
every state exactly if every call stores an item of the space it takes. -/
theorem accounted_iff (cs : List (Call V)) (hcs : ∀ a ∈ cs, a.Within 512) :
    Always perform Accounted (new : Cache V) cs ↔ Meets perform Balanced (new : Cache V) cs := by
  refine always_iff_meets_of (p := fun a => a.Within 512) (J := fun c => c.Fits) ?_ ?_ hcs fits_new ?_
  · exact fun c a c' ha hfits _ h _ => (perform_space hfits ha h).2
  · intro c a c' ha hfits hacc h
    obtain ⟨hsum, hfits'⟩ := perform_space hfits ha h
    rw [Accounted, hfits.capacity] at hacc
    rw [Accounted, Balanced, hfits'.capacity]
    constructor <;> intro heq <;> omega
  · rw [Accounted, used_new]
    rfl

/-- After the removal the counter and the items add up to nothing. -/
theorem space_lost :
    ¬ ∀ cs : List (Call ℕ), (∀ a ∈ cs, a.Within 512) → Always perform Accounted (new : Cache ℕ) cs := by
  intro h
  have hcs : ∀ a ∈ storedAndRemoved, a.Within 512 := by decide
  have hsum : (run perform (new : Cache ℕ) storedAndRemoved).map
      (fun c => decide (c.availablesize.toNat + c.used = c.maxsize.toNat)) = some false := by decide +kernel
  obtain ⟨c, hrun, hc⟩ := Option.map_eq_some_iff.mp hsum
  have hacc := always_iff_passed.mp (h storedAndRemoved hcs) storedAndRemoved c (List.prefix_refl _) hrun
  exact of_decide_eq_false hc hacc

theorem accounted_twoStored : Always perform Accounted (new : Cache ℕ) twoStored := by
  have hcs : ∀ a ∈ twoStored, a.Within 512 := by decide
  exact (accounted_iff twoStored hcs).mpr (by decide +kernel)

theorem Accounted.bounds {c : Cache V} (h : c.Accounted) : c.used ≤ c.maxsize.toNat ∧ c.availablesize ≤ c.maxsize := by
  rw [Accounted] at h
  refine ⟨by omega, UInt64.le_iff_toNat_le.mpr (by omega)⟩

end CacheCoherence.Cache
