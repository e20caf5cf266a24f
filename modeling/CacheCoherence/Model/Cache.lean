import CacheCoherence.Model.Defs
import Mathlib

/-! # The cache of a node

`Cache.cpp` over an ordered map, with `size_t` arithmetic as it wraps. The clock is a
parameter: every call that reads `system_clock::now()` takes the time it reads.
-/
namespace CacheCoherence

structure CacheItem (V : Type) where
  globalAddress : GlobalAddress
  data : V
  created : ℤ
  lastused : ℤ
deriving DecidableEq, Repr

structure Cache (V : Type) where
  maxsize : UInt64
  availablesize : UInt64
  items : Std.TreeMap UInt64 (CacheItem V)

namespace Cache
variable {V : Type}

def new : Cache V where
  maxsize := 512
  availablesize := 512
  items := ∅

/-- The scan of `removeOldestItem` in key order. `none` is the value-initialised pair it starts
from: key 0, an item of size 0 last used at the epoch. -/
def latest (items : Std.TreeMap UInt64 (CacheItem V)) : Option (UInt64 × CacheItem V) :=
  items.foldl (fun latest k it =>
    if latest.elim 0 (fun p => p.2.lastused) < it.lastused then some (k, it) else latest) none

def removeOldestItem (c : Cache V) : Cache V :=
  match latest c.items with
  | some (k, it) => { c with
      availablesize := c.availablesize + it.globalAddress.size
      items := c.items.erase k }
  | none => { c with items := c.items.erase 0 }

/-- `while (availablesize < size) removeOldestItem()`, cut off after `fuel` rounds. -/
def evict (size : UInt64) : ℕ → Cache V → Option (Cache V)
  | 0, c => if c.availablesize < size then none else some c
  | fuel + 1, c => if c.availablesize < size then evict size fuel c.removeOldestItem else some c

/-- `none` when the call does not return: the bare `throw` for an item larger than the cache
ends the process, and an eviction that has used up the map never gets enough space. -/
def addCacheItem (c : Cache V) (gaddr : GlobalAddress) (cacheItem : CacheItem V) : Option (Cache V) :=
  if gaddr.size ≤ c.maxsize then
    if gaddr.size ≤ c.availablesize then
      some { c with
        availablesize := c.availablesize - gaddr.size
        items := c.items.insertIfNew gaddr.hash cacheItem }
    else evict gaddr.size c.items.size c
  else none

def removeCacheItem (c : Cache V) (ga : GlobalAddress) : Cache V × ℕ :=
  ({ c with items := c.items.erase ga.hash }, if ga.hash ∈ c.items then 1 else 0)

def getCacheItem (c : Cache V) (now : ℤ) (ga : GlobalAddress) : Cache V × Option (CacheItem V) :=
  match c.items[ga.hash]? with
  | some it =>
    let it := { it with lastused := now }
    ({ c with items := c.items.insert ga.hash it }, some it)
  | none => (c, none)

def alterCacheItem (c : Cache V) (ci : CacheItem V) (ga : GlobalAddress) : Option (Cache V) :=
  if ga.hash ∈ c.items then some { c with items := c.items.insert ga.hash ci }
  else c.addCacheItem ga ci

/-- `c` stores the value `v` of the address `ga` under the key `k`. -/
def Stores (c : Cache V) (k : UInt64) (ga : GlobalAddress) (v : V) : Prop :=
  ∃ it, c.items[k]? = some it ∧ it.globalAddress = ga ∧ it.data = v

theorem stores_new {k : UInt64} {ga : GlobalAddress} {v : V} : ¬ (new : Cache V).Stores k ga v := by
  rintro ⟨it, hit, -⟩
  simp [new] at hit

theorem Stores.unique {c : Cache V} {k : UInt64} {a b : GlobalAddress} {v w : V}
    (h : c.Stores k a v) (h' : c.Stores k b w) : a = b ∧ v = w := by
  obtain ⟨it, hit, rfl, rfl⟩ := h
  obtain ⟨jt, hjt, rfl, rfl⟩ := h'
  obtain rfl : it = jt := Option.some.inj (hit.symm.trans hjt)
  exact ⟨rfl, rfl⟩

structure Shrinks (c c' : Cache V) : Prop where
  maxsize : c'.maxsize = c.maxsize
  items : ∀ (k : UInt64) (it : CacheItem V), c'.items[k]? = some it → c.items[k]? = some it

theorem shrinks_refl (c : Cache V) : Shrinks c c := ⟨rfl, fun _ _ hit => hit⟩

theorem Shrinks.trans {c d e : Cache V} (h : Shrinks c d) (h' : Shrinks d e) : Shrinks c e :=
  ⟨h'.maxsize.trans h.maxsize, fun k it hit => h.items k it (h'.items k it hit)⟩

theorem shrinks_erase (c : Cache V) (k available : UInt64) :
    Shrinks c { c with availablesize := available, items := c.items.erase k } := by
  refine ⟨rfl, fun k' it hit => ?_⟩
  obtain ⟨-, hold⟩ : k ≠ k' ∧ c.items[k']? = some it := by simpa [Std.TreeMap.getElem?_erase] using hit
  exact hold

theorem shrinks_removeCacheItem (c : Cache V) (ga : GlobalAddress) : Shrinks c (c.removeCacheItem ga).1 :=
  shrinks_erase c _ _

theorem shrinks_removeOldestItem (c : Cache V) : Shrinks c c.removeOldestItem := by
  unfold removeOldestItem
  split <;> exact shrinks_erase c _ _

theorem shrinks_evict {size : UInt64} {fuel : ℕ} {c c' : Cache V} (h : evict size fuel c = some c') : Shrinks c c' := by
  induction fuel generalizing c with
  | zero =>
    rw [evict] at h
    split at h
    · cases h
    · exact Option.some.inj h ▸ shrinks_refl c
  | succ fuel ih =>
    rw [evict] at h
    split at h
    · exact (shrinks_removeOldestItem c).trans (ih h)
    · exact Option.some.inj h ▸ shrinks_refl c

theorem Shrinks.stores {c c' : Cache V} (hs : Shrinks c c') {k : UInt64} {ga : GlobalAddress} {v : V}
    (h : c'.Stores k ga v) : c.Stores k ga v := by
  obtain ⟨it, hit, hga, hv⟩ := h
  exact ⟨it, hs.items k it hit, hga, hv⟩

/-- What a cache holds after `addCacheItem` was there before, or is the new item under a key
that was free. -/
theorem Stores.addCacheItem {c c' : Cache V} {gaddr : GlobalAddress} {ci : CacheItem V}
    (ha : c.addCacheItem gaddr ci = some c') {k : UInt64} {ga : GlobalAddress} {v : V}
    (h : c'.Stores k ga v) :
    c.Stores k ga v ∨ (k = gaddr.hash ∧ gaddr.hash ∉ c.items ∧ ci.globalAddress = ga ∧ ci.data = v) := by
  unfold Cache.addCacheItem at ha
  split at ha
  · split at ha
    · cases ha
      obtain ⟨it, hit, hga, hv⟩ := h
      simp only [Std.TreeMap.getElem?_insertIfNew] at hit
      split at hit
      · rename_i hk
        obtain ⟨hk, hfree⟩ := hk
        obtain rfl : ci = it := Option.some.inj hit
        exact Or.inr ⟨(by simpa using hk : gaddr.hash = k).symm, hfree, hga, hv⟩
      · exact Or.inl ⟨it, hit, hga, hv⟩
    · exact Or.inl ((shrinks_evict ha).stores h)
  · cases ha

theorem Stores.alterCacheItem {c c' : Cache V} {gaddr : GlobalAddress} {ci : CacheItem V}
    (ha : c.alterCacheItem ci gaddr = some c') {k : UInt64} {ga : GlobalAddress} {v : V}
    (h : c'.Stores k ga v) :
    (k ≠ gaddr.hash ∧ c.Stores k ga v) ∨ (k = gaddr.hash ∧ ci.globalAddress = ga ∧ ci.data = v) := by
  unfold Cache.alterCacheItem at ha
  split at ha
  · cases ha
    obtain ⟨it, hit, hga, hv⟩ := h
    simp only [Std.TreeMap.getElem?_insert] at hit
    split at hit
    · rename_i hk
      obtain rfl : ci = it := Option.some.inj hit
      exact Or.inr ⟨(by simpa using hk : gaddr.hash = k).symm, hga, hv⟩
    · rename_i hk
      exact Or.inl ⟨fun e => hk (by simp [e]), it, hit, hga, hv⟩
  · rename_i hfree
    rcases h.addCacheItem ha with h | ⟨hk, -, hga, hv⟩
    · refine Or.inl ⟨?_, h⟩
      rintro rfl
      obtain ⟨it, hit, -⟩ := h
      exact hfree (Std.TreeMap.mem_iff_isSome_getElem?.mpr (by simp [hit]))
    · exact Or.inr ⟨hk, hga, hv⟩

theorem Stores.removeCacheItem {c : Cache V} {gaddr : GlobalAddress} {k : UInt64} {ga : GlobalAddress}
    {v : V} (h : (c.removeCacheItem gaddr).1.Stores k ga v) : k ≠ gaddr.hash ∧ c.Stores k ga v := by
  obtain ⟨it, hit, hga, hv⟩ := h
  obtain ⟨hk, hit⟩ : _ ∧ _ := by simpa [Cache.removeCacheItem, Std.TreeMap.getElem?_erase] using hit
  exact ⟨fun e => hk e.symm, it, hit, hga, hv⟩

theorem stores_getCacheItem {c : Cache V} {now : ℤ} {gaddr : GlobalAddress} {k : UInt64}
    {ga : GlobalAddress} {v : V} :
    (c.getCacheItem now gaddr).1.Stores k ga v ↔ c.Stores k ga v := by
  unfold getCacheItem
  cases hc : c.items[gaddr.hash]? with
  | none => rfl
  | some jt =>
    constructor
    · rintro ⟨it, hit, hga, hv⟩
      simp only [Std.TreeMap.getElem?_insert] at hit
      split at hit
      · rename_i hk
        obtain rfl : gaddr.hash = k := by simpa using hk
        obtain rfl := Option.some.inj hit
        exact ⟨jt, hc, hga, hv⟩
      · exact ⟨it, hit, hga, hv⟩
    · rintro ⟨it, hit, hga, hv⟩
      by_cases hk : gaddr.hash = k
      · subst hk
        obtain rfl : jt = it := Option.some.inj (hc.symm.trans hit)
        exact ⟨{ jt with lastused := now }, by simp, hga, hv⟩
      · exact ⟨it, by simp [Std.TreeMap.getElem?_insert, hk, hit], hga, hv⟩

theorem stores_of_hit {c : Cache V} {now : ℤ} {gaddr : GlobalAddress} {it : CacheItem V}
    (h : (c.getCacheItem now gaddr).2 = some it) : c.Stores gaddr.hash it.globalAddress it.data := by
  unfold getCacheItem at h
  cases hc : c.items[gaddr.hash]? with
  | none => simp [hc] at h
  | some jt =>
    simp only [hc, Option.some.injEq] at h
    subst h
    exact ⟨jt, hc, rfl, rfl⟩

theorem not_stores_of_miss {c : Cache V} {now : ℤ} {gaddr : GlobalAddress}
    (h : (c.getCacheItem now gaddr).2 = none) {ga : GlobalAddress} {v : V} :
    ¬ c.Stores gaddr.hash ga v := by
  rintro ⟨it, hit, -⟩
  simp [getCacheItem, hit] at h

end Cache
end CacheCoherence
