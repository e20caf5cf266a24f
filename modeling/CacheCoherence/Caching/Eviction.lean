import CacheCoherence.Caching.Calls
import CacheCoherence.Foundation.Cutoffs
import CacheCoherence.Foundation.MapSums
import CacheCoherence.Foundation.TransitionRuns

/-! # Which items are evicted

The scan of `removeOldestItem` goes to the item that was used last, so the loop takes the items off in the order
of their times, the newest first, until the space is there. The branch that runs it stores nothing.
-/
namespace CacheCoherence.Cache
open Cutoffs MapSums TransitionRuns
variable {V : Type}

/-- The place of an entry in the order in which the scan finds them: newest first, then by key. -/
def rank (p : UInt64 × CacheItem V) : ℤᵒᵈ ×ₗ ℕ := toLex (OrderDual.toDual p.2.lastused, p.1.toNat)

/-- The space that the rounds up to the one of the entry `p` give back; the counter wraps as it does. -/
def spaceUpTo (c : Cache V) (p : UInt64 × CacheItem V) : UInt64 :=
  upTo rank (fun q : UInt64 × CacheItem V => q.2.globalAddress.size) c.items.toList (rank p)

/-- The loop has ended with the round of the entry `q`. -/
structure EvictedUpTo (c c' : Cache V) (size : UInt64) (q : UInt64 × CacheItem V) : Prop where
  mem : c.items[q.1]? = some q.2
  remaining : ∀ p : UInt64 × CacheItem V, c'.items[p.1]? = some p.2 ↔ c.items[p.1]? = some p.2 ∧ rank q < rank p
  room : size ≤ c.availablesize + c.spaceUpTo q
  earlier : ∀ p : UInt64 × CacheItem V, c.items[p.1]? = some p.2 → rank p < rank q →
    c.availablesize + c.spaceUpTo p < size

def Finds (c : Cache V) (ga : GlobalAddress) (ci : CacheItem V) : Prop :=
  ∀ now, (c.getCacheItem now ga).2 = some { ci with lastused := now }

def EvictsForRoom (c c' : Cache V) (ga : GlobalAddress) : Prop :=
  ∀ (k : UInt64) (it : CacheItem V), c.items[k]? = some it → c'.items[k]? = none → c.availablesize < ga.size

/-- There is room and the key is free, or the cache has the item already and loses at most newer ones. -/
def Accepts (c : Cache V) (ga : GlobalAddress) (ci : CacheItem V) : Prop :=
  if ga.size ≤ c.availablesize then ga.hash ∉ c.items ∨ c.Finds ga ci
  else c.Finds ga ci ∧ ∃ p ∈ c.items.toList, ∃ q ∈ c.items.toList, p.1 = ga.hash ∧ rank q < rank p ∧
    ga.size ≤ c.availablesize + c.spaceUpTo q

def EvictsOldest (c c' : Cache V) : Prop :=
  ∀ p ∈ c.items.toList, ∀ q ∈ c.items.toList, c'.items[p.1]? = none → c'.items[q.1]? = some q.2 →
    p.2.lastused < q.2.lastused

def NeedsAll (c : Cache V) (size : UInt64) : Prop :=
  ∀ p ∈ c.items.toList, ∀ q ∈ c.items.toList, p.2.lastused < q.2.lastused → c.availablesize + c.spaceUpTo q < size

instance (c : Cache V) (size : UInt64) : Decidable (NeedsAll c size) :=
  inferInstanceAs (Decidable (∀ p ∈ c.items.toList, ∀ q ∈ c.items.toList, p.2.lastused < q.2.lastused →
    c.availablesize + c.spaceUpTo q < size))

section
variable {c c' : Cache V} {items : Std.TreeMap UInt64 (CacheItem V)} {p q : UInt64 × CacheItem V} {k : UInt64}
  {it ci : CacheItem V} {size : UInt64} {fuel : ℕ} {ga : GlobalAddress}

theorem rank_lt_iff : rank p < rank q ↔ q.2.lastused < p.2.lastused ∨ p.2.lastused = q.2.lastused ∧ p.1 < q.1 := by
  rw [rank, rank, Prod.Lex.toLex_lt_toLex, OrderDual.toDual_lt_toDual, OrderDual.toDual_inj, UInt64.lt_iff_toNat_lt]

theorem latest_scan_first (l : List (UInt64 × CacheItem V)) (hl : l.Pairwise fun p q => p.1 < q.1) :
    let r := l.foldl (fun latest p => if latest.elim 0 (fun q => q.2.lastused) < p.2.lastused then some (p.1, p.2)
      else latest) none
    (∀ q ∈ l, q.2.lastused ≤ r.elim 0 fun p => p.2.lastused) ∧ ∀ p, r = some p → p ∈ l ∧ ∀ q ∈ l, q = p ∨
      rank p < rank q := by
  induction l using List.reverseRecOn with
  | nil => exact ⟨fun q hq => absurd hq List.not_mem_nil, fun p hp => by cases hp⟩
  | append_singleton l x ih =>
    obtain ⟨hl, -, hx⟩ := List.pairwise_append.mp hl
    obtain ⟨hmax, hfirst⟩ := ih hl
    simp only [List.foldl_append, List.foldl_cons, List.foldl_nil]
    generalize l.foldl (fun latest p => if latest.elim 0 (fun q => q.2.lastused) < p.2.lastused then some (p.1, p.2)
      else latest) none = r at hmax hfirst ⊢
    by_cases hlt : r.elim 0 (fun q => q.2.lastused) < x.2.lastused
    · rw [if_pos hlt]
      have hnewer : ∀ q ∈ l, q.2.lastused < x.2.lastused := fun q hq => (hmax q hq).trans_lt hlt
      constructor
      · intro q hq
        rcases List.mem_append.mp hq with hq | hq
        · exact (hnewer q hq).le
        · exact List.mem_singleton.mp hq ▸ le_rfl
      · intro p hp
        obtain rfl : x = p := Option.some.inj hp
        refine ⟨by simp, fun q hq => ?_⟩
        rcases List.mem_append.mp hq with hq | hq
        · exact Or.inr (rank_lt_iff.mpr (Or.inl (hnewer q hq)))
        · exact Or.inl (List.mem_singleton.mp hq)
    · rw [if_neg hlt]
      constructor
      · intro q hq
        rcases List.mem_append.mp hq with hq | hq
        · exact hmax q hq
        · exact List.mem_singleton.mp hq ▸ not_lt.mp hlt
      · intro p hp
        obtain ⟨hmem, hrank⟩ := hfirst p hp
        refine ⟨List.mem_append_left _ hmem, fun q hq => ?_⟩
        rcases List.mem_append.mp hq with hq | hq
        · exact hrank q hq
        · obtain rfl : q = x := List.mem_singleton.mp hq
          have hle : q.2.lastused ≤ p.2.lastused := by simpa [hp] using hlt
          -- of two items of one time the scan keeps the one it met first
          have hkey : p.1 < q.1 := hx p hmem q (List.mem_singleton_self q)
          rcases hle.lt_or_eq with hnewer | heq
          · exact Or.inr (rank_lt_iff.mpr (Or.inl hnewer))
          · exact Or.inr (rank_lt_iff.mpr (Or.inr ⟨heq.symm, hkey⟩))

theorem latest_first (h : latest items = some p) (hq : items[q.1]? = some q.2) : q = p ∨ rank p < rank q := by
  have hsorted : items.toList.Pairwise fun p q => p.1 < q.1 := by
    refine items.ordered_keys_toList.imp fun hpq => ?_
    exact Std.compare_eq_lt.mp hpq
  rw [latest, Std.TreeMap.foldl_eq_foldl_toList] at h
  exact ((latest_scan_first items.toList hsorted).2 p h).2 q (Std.TreeMap.mem_toList_iff_getElem?_eq_some.mpr hq)

theorem spaceUpTo_of_latest (h : latest c.items = some p) (hq : c.removeOldestItem.items[q.1]? = some q.2) :
    c.spaceUpTo q = p.2.globalAddress.size + c.removeOldestItem.spaceUpTo q := by
  obtain ⟨k, it⟩ := p
  have hmem := latest_mem h
  rw [removeOldestItem_of_latest h] at hq ⊢
  have hold : c.items[q.1]? = some q.2 := (shrinks_erase c k 0).items _ _ hq
  have hle : rank (k, it) ≤ rank q := by
    rcases latest_first h hold with rfl | hlt
    · exact le_rfl
    · exact hlt.le
  rw [spaceUpTo, upTo_perm (toList_perm_erase hmem), upTo_cons hle]
  rfl

theorem spaceUpTo_latest (h : latest c.items = some p) : c.spaceUpTo p = p.2.globalAddress.size := by
  obtain ⟨k, it⟩ := p
  rw [spaceUpTo, upTo_perm (toList_perm_erase (latest_mem h)), upTo_first]
  intro q hq
  have hq' := Std.TreeMap.mem_toList_iff_getElem?_eq_some.mp hq
  have hold : c.items[q.1]? = some q.2 := (shrinks_erase c k 0).items _ _ hq'
  rcases latest_first h hold with rfl | hlt
  · simp at hq'
  · exact hlt

theorem removeOldestItem_remaining (h : latest c.items = some p) :
    c.removeOldestItem.items[q.1]? = some q.2 ↔ c.items[q.1]? = some q.2 ∧ q ≠ p := by
  have hp := latest_mem h
  have herase : c.removeOldestItem.items[q.1]? = if p.1 = q.1 then none else c.items[q.1]? := by
    rw [removeOldestItem_of_latest h, Std.TreeMap.getElem?_erase]
    simp
  rw [herase]
  by_cases hkey : p.1 = q.1
  · have hsame : c.items[q.1]? = some q.2 → q = p := by
      intro hq
      rw [hkey, hq] at hp
      exact Prod.ext hkey.symm (Option.some.inj hp)
    simpa [hkey] using hsame
  · have hne : q ≠ p := by
      rintro rfl
      exact hkey rfl
    simp [hkey, hne]

theorem EvictedUpTo.round (h : latest c.items = some p) (hlt : c.availablesize + p.2.globalAddress.size < size)
    (hq : EvictedUpTo c.removeOldestItem c' size q) : EvictedUpTo c c' size q := by
  have havailable : c.removeOldestItem.availablesize = c.availablesize + p.2.globalAddress.size := by
    rw [removeOldestItem_of_latest h]
  obtain ⟨hmem, hne⟩ := (removeOldestItem_remaining h).mp hq.mem
  have hpq : rank p < rank q := (latest_first h hmem).resolve_left hne
  refine ⟨hmem, fun r => ?_, ?_, fun r hr hrq => ?_⟩
  · rw [hq.remaining, removeOldestItem_remaining h]
    constructor
    · exact fun ⟨⟨hr, _⟩, hqr⟩ => ⟨hr, hqr⟩
    · rintro ⟨hr, hqr⟩
      refine ⟨⟨hr, ?_⟩, hqr⟩
      rintro rfl
      exact lt_asymm hpq hqr
  · rw [spaceUpTo_of_latest h hq.mem, ← add_assoc, ← havailable]
    exact hq.room
  · by_cases hrp : r = p
    · rw [hrp, spaceUpTo_latest h]
      exact hlt
    · have hr' := (removeOldestItem_remaining h).mpr ⟨hr, hrp⟩
      rw [spaceUpTo_of_latest h hr', ← add_assoc, ← havailable]
      exact hq.earlier r hr' hrq

theorem evictedUpTo_latest (h : latest c.items = some p) (hroom : size ≤ c.availablesize + p.2.globalAddress.size) :
    EvictedUpTo c c.removeOldestItem size p := by
  refine ⟨latest_mem h, fun r => ?_, spaceUpTo_latest h ▸ hroom, fun r hr hrp => ?_⟩
  · rw [removeOldestItem_remaining h]
    constructor
    · exact fun ⟨hr, hne⟩ => ⟨hr, (latest_first h hr).resolve_left hne⟩
    · rintro ⟨hr, hpr⟩
      refine ⟨hr, ?_⟩
      rintro rfl
      exact lt_irrefl _ hpr
  · rcases latest_first h hr with rfl | hpr
    · exact absurd hrp (lt_irrefl _)
    · exact absurd (hrp.trans hpr) (lt_irrefl _)

/-- A loop that makes room takes the entries off by their rank, up to the first that is enough. -/
theorem evict_upTo (h : evict size fuel c = some c') (hlt : c.availablesize < size) : ∃ q, EvictedUpTo c c' size q := by
  induction fuel generalizing c with
  | zero => simp [evict, hlt] at h
  | succ fuel ih =>
    cases hl : latest c.items with
    | none =>
      rw [evict_stuck hl hlt] at h
      cases h
    | some p =>
      have havailable : c.removeOldestItem.availablesize = c.availablesize + p.2.globalAddress.size := by
        rw [removeOldestItem_of_latest hl]
      rw [evict, if_pos hlt] at h
      by_cases hmore : c.removeOldestItem.availablesize < size
      · obtain ⟨q, hq⟩ := ih h hmore
        exact ⟨q, hq.round hl (havailable ▸ hmore)⟩
      · have hend : c.removeOldestItem = c' := by
          cases fuel <;> simpa [evict, hmore] using h
        exact ⟨p, hend ▸ evictedUpTo_latest hl (havailable ▸ UInt64.not_lt.mp hmore)⟩

theorem finds_iff : c.Finds ga ci ↔ ∃ it, c.items[ga.hash]? = some it ∧
    ∀ now : ℤ, { it with lastused := now } = { ci with lastused := now } := by
  unfold Finds
  simp only [getCacheItem_snd]
  cases hit : c.items[ga.hash]? with
  | none => simp
  | some it => simp

theorem Finds.remains (h : c.Finds ga ci) (hit : c.items[ga.hash]? = some it) (hit' : c'.items[ga.hash]? = some it) :
    c'.Finds ga ci := by
  obtain ⟨jt, hjt, hsame⟩ := finds_iff.mp h
  obtain rfl : it = jt := Option.some.inj (hit.symm.trans hjt)
  exact finds_iff.mpr ⟨it, hit', hsame⟩

theorem insertIfNew_finds {available : UInt64} :
    Finds { c with availablesize := available, items := c.items.insertIfNew ga.hash ci } ga ci ↔
      ga.hash ∉ c.items ∨ c.Finds ga ci := by
  rw [finds_iff, finds_iff]
  simp only [Std.TreeMap.getElem?_insertIfNew]
  by_cases hmem : ga.hash ∈ c.items
  · simp [hmem]
  · simp [hmem]

/-- An insertion that has to make room finds the item afterwards only if it was there and outlasts the loop. -/
theorem EvictedUpTo.finds (h : EvictedUpTo c c' ga.size q) : c'.Finds ga ci ↔ c.Finds ga ci ∧
    ∃ p ∈ c.items.toList, ∃ r ∈ c.items.toList, p.1 = ga.hash ∧ rank r < rank p ∧
      ga.size ≤ c.availablesize + c.spaceUpTo r := by
  constructor
  · intro hfinds
    obtain ⟨it, hit, hsame⟩ := finds_iff.mp hfinds
    obtain ⟨hold, hbehind⟩ := (h.remaining (ga.hash, it)).mp hit
    refine ⟨finds_iff.mpr ⟨it, hold, hsame⟩, (ga.hash, it), ?_, q, ?_, rfl, hbehind, h.room⟩
    · exact Std.TreeMap.mem_toList_iff_getElem?_eq_some.mpr hold
    · exact Std.TreeMap.mem_toList_iff_getElem?_eq_some.mpr h.mem
  · rintro ⟨hfinds, p, hp, r, hr, hkey, hrp, hroom⟩
    have hp' := Std.TreeMap.mem_toList_iff_getElem?_eq_some.mp hp
    have hr' := Std.TreeMap.mem_toList_iff_getElem?_eq_some.mp hr
    have hqr : rank q ≤ rank r := by
      by_contra hlt
      exact absurd hroom (UInt64.not_le.mpr (h.earlier r hr' (not_le.mp hlt)))
    have hleft : c'.items[p.1]? = some p.2 := (h.remaining p).mpr ⟨hp', hqr.trans_lt hrp⟩
    rw [hkey] at hp' hleft
    exact hfinds.remains hp' hleft

/-- A call that returns has cached its item, and evicted only for want of room, exactly if there was room and the
key was free, or the item was there already and the loop did not get to it. -/
theorem caching_succeeds_iff (h : c.addCacheItem ga ci = some c') :
    c'.Finds ga ci ∧ EvictsForRoom c c' ga ↔ c.Accepts ga ci := by
  unfold addCacheItem at h
  split at h
  · by_cases hroom : ga.size ≤ c.availablesize
    · rw [if_pos hroom] at h
      obtain rfl := Option.some.inj h
      have hkept : EvictsForRoom c { c with
          availablesize := c.availablesize - ga.size
          items := c.items.insertIfNew ga.hash ci } ga := by
        intro k it hit hgone
        rw [Std.TreeMap.getElem?_insertIfNew] at hgone
        split at hgone
        · cases hgone
        · rw [hit] at hgone
          cases hgone
      rw [Accepts, if_pos hroom, insertIfNew_finds]
      exact and_iff_left hkept
    · rw [if_neg hroom] at h
      have hlt : c.availablesize < ga.size := UInt64.not_le.mp hroom
      obtain ⟨q, hq⟩ := evict_upTo h hlt
      rw [Accepts, if_neg hroom, hq.finds]
      exact and_iff_left fun _ _ _ _ => hlt
  · cases h

/-- When items have different times, a call that has to make room evicts the items that were used least recently
exactly if it has to evict them all. -/
theorem eviction_oldest_iff (hdistinct : (c.items.toList.map fun p => p.2.lastused).Nodup)
    (hlt : c.availablesize < ga.size) (h : c.addCacheItem ga ci = some c') : EvictsOldest c c' ↔
      c.NeedsAll ga.size := by
  have hevict : ∃ fuel, evict ga.size fuel c = some c' := by
    unfold addCacheItem at h
    split at h
    · rw [if_neg (UInt64.not_le.mpr hlt)] at h
      exact ⟨_, h⟩
    · cases h
  obtain ⟨fuel, hevict⟩ := hevict
  obtain ⟨q, hq⟩ := evict_upTo hevict hlt
  have hqmem : q ∈ c.items.toList := Std.TreeMap.mem_toList_iff_getElem?_eq_some.mpr hq.mem
  have hqgone : c'.items[q.1]? = none := by
    cases hit : c'.items[q.1]? with
    | none => rfl
    | some it =>
      have hleft := (shrinks_evict hevict).items _ _ hit
      obtain rfl : q.2 = it := Option.some.inj (hq.mem.symm.trans hleft)
      exact absurd ((hq.remaining q).mp hit).2 (lt_irrefl _)
  -- what is left is older than the item of the last round
  have holder : ∀ p ∈ c.items.toList, c'.items[p.1]? = some p.2 ↔ p.2.lastused < q.2.lastused := by
    intro p hp
    have hp' := Std.TreeMap.mem_toList_iff_getElem?_eq_some.mp hp
    rw [hq.remaining p, rank_lt_iff]
    constructor
    · rintro ⟨-, hnewer | ⟨hsame, hkey⟩⟩
      · exact hnewer
      · obtain rfl := List.inj_on_of_nodup_map hdistinct hqmem hp hsame
        exact absurd hkey (UInt64.lt_irrefl _)
    · exact fun hnewer => ⟨hp', Or.inl hnewer⟩
  constructor
  · intro holdest p hp r hr hpr
    have hq' := Std.TreeMap.mem_toList_iff_getElem?_eq_some.mp hr
    refine hq.earlier r hq' (rank_lt_iff.mpr (Or.inl ?_))
    by_contra hle
    have hpq : p.2.lastused < q.2.lastused := hpr.trans_le (not_lt.mp hle)
    exact lt_asymm hpq (holdest q hqmem p hp hqgone ((holder p hp).mpr hpq))
  · intro hall p _ r hr _ hleft
    have hshort := hall r hr q hqmem ((holder r hr).mp hleft)
    exact absurd hq.room (UInt64.not_le.mpr hshort)

end

def stored (size ptr : UInt64) (time : ℤ) : Call ℕ := .add ⟨size, ptr, 3000⟩ ⟨⟨size, ptr, 3000⟩, 7, time, time⟩

/-- Into a cache that one item fills a second one does not come. -/
theorem caching_fails : ¬ ∀ (c c' : Cache ℕ) (ga : GlobalAddress) (ci : CacheItem ℕ), ga.size ≤ c.maxsize →
    c.addCacheItem ga ci = some c' → c'.Finds ga ci ∧ EvictsForRoom c c' ga := by
  intro h
  have hmiss : (run perform (new : Cache ℕ) [stored 512 4096 1]).bind (fun c =>
      (c.addCacheItem ⟨8, 8192, 3000⟩ ⟨⟨8, 8192, 3000⟩, 8, 2, 2⟩).map fun c' =>
        (decide (8 ≤ c.maxsize), (c'.getCacheItem 3 ⟨8, 8192, 3000⟩).2.isNone)) = some (true, true) := by decide +kernel
  obtain ⟨c, -, hadd⟩ := Option.bind_eq_some_iff.mp hmiss
  obtain ⟨c', hc', hpair⟩ := Option.map_eq_some_iff.mp hadd
  obtain ⟨hsize, hnone⟩ := Prod.mk.inj hpair
  have hfinds := (h c c' _ _ (of_decide_eq_true hsize) hc').1 3
  rw [hfinds] at hnone
  cases hnone

theorem caching_succeeds_again : ∃ c c' : Cache ℕ,
    run perform new [stored 256 4096 1, stored 256 8192 2] = some c ∧
    c.addCacheItem ⟨256, 4096, 3000⟩ ⟨⟨256, 4096, 3000⟩, 7, 1, 1⟩ = some c' ∧ c'.items.toList.length = 1 ∧
    c'.Finds ⟨256, 4096, 3000⟩ ⟨⟨256, 4096, 3000⟩, 7, 1, 1⟩ ∧ EvictsForRoom c c' ⟨256, 4096, 3000⟩ := by
  have hrun : (run perform (new : Cache ℕ) [stored 256 4096 1, stored 256 8192 2]).bind (fun c =>
      (c.addCacheItem ⟨256, 4096, 3000⟩ ⟨⟨256, 4096, 3000⟩, 7, 1, 1⟩).map fun c' => (c'.items.toList.length,
        c.availablesize, c.items[(GlobalAddress.mk 256 4096 3000).hash]?, decide (∃ p ∈ c.items.toList,
          ∃ q ∈ c.items.toList, p.1 = (GlobalAddress.mk 256 4096 3000).hash ∧ rank q < rank p ∧
            256 ≤ c.availablesize + c.spaceUpTo q))) =
      some (1, 0, some ⟨⟨256, 4096, 3000⟩, 7, 1, 1⟩, true) := by decide +kernel
  obtain ⟨c, hc, hadd⟩ := Option.bind_eq_some_iff.mp hrun
  obtain ⟨c', hc', hfacts⟩ := Option.map_eq_some_iff.mp hadd
  obtain ⟨hlength, hfacts⟩ := Prod.mk.inj hfacts
  obtain ⟨hroom, hfacts⟩ := Prod.mk.inj hfacts
  obtain ⟨hitem, hevicted⟩ := Prod.mk.inj hfacts
  refine ⟨c, c', hc, hc', hlength, (caching_succeeds_iff hc').mpr ?_⟩
  rw [Accepts, hroom, if_neg (by decide)]
  refine ⟨fun now => ?_, ?_⟩
  · rw [getCacheItem_snd, hitem]
    rfl
  · rw [← hroom]
    exact of_decide_eq_true hevicted

/-- Of two items the one that was used last goes, and the older one stays. -/
theorem newest_evicted : ¬ ∀ (c c' : Cache ℕ) (ga : GlobalAddress) (ci : CacheItem ℕ),
    (c.items.toList.map fun p => p.2.lastused).Nodup → (∀ p ∈ c.items.toList, 0 < p.2.lastused) →
      c.availablesize < ga.size → c.addCacheItem ga ci = some c' → EvictsOldest c c' := by
  intro h
  have hnewest : (run perform (new : Cache ℕ) [stored 256 4096 1, stored 128 8192 2]).bind (fun c =>
      (c.addCacheItem ⟨256, 12288, 3000⟩ ⟨⟨256, 12288, 3000⟩, 8, 3, 3⟩).map fun c' =>
        (decide ((c.items.toList.map fun p => p.2.lastused).Nodup ∧ (∀ p ∈ c.items.toList, 0 < p.2.lastused) ∧
            c.availablesize < 256),
          decide (∀ p ∈ c.items.toList, ∀ q ∈ c.items.toList, c'.items[p.1]? = none → c'.items[q.1]? = some q.2 →
            p.2.lastused < q.2.lastused))) = some (true, false) := by decide +kernel
  obtain ⟨c, -, hadd⟩ := Option.bind_eq_some_iff.mp hnewest
  obtain ⟨c', hc', hpair⟩ := Option.map_eq_some_iff.mp hadd
  obtain ⟨hstate, holdest⟩ := Prod.mk.inj hpair
  obtain ⟨hdistinct, hdated, hlt⟩ := of_decide_eq_true hstate
  exact of_decide_eq_false holdest (h c c' _ _ hdistinct hdated hlt hc')

theorem eviction_oldest_all : ∃ c c' : Cache ℕ, run perform new [stored 256 4096 1, stored 256 8192 2] = some c ∧
    c.addCacheItem ⟨512, 12288, 3000⟩ ⟨⟨512, 12288, 3000⟩, 8, 3, 3⟩ = some c' ∧ EvictsOldest c c' := by
  have hboth : (run perform (new : Cache ℕ) [stored 256 4096 1, stored 256 8192 2]).bind (fun c =>
      (c.addCacheItem ⟨512, 12288, 3000⟩ ⟨⟨512, 12288, 3000⟩, 8, 3, 3⟩).map fun _ =>
        decide ((c.items.toList.map fun p => p.2.lastused).Nodup ∧ c.availablesize < 512 ∧ c.NeedsAll 512)) =
      some true := by
    decide +kernel
  obtain ⟨c, hrun, hadd⟩ := Option.bind_eq_some_iff.mp hboth
  obtain ⟨c', hc', hstate⟩ := Option.map_eq_some_iff.mp hadd
  obtain ⟨hdistinct, hlt, hall⟩ := of_decide_eq_true hstate
  exact ⟨c, c', hrun, hc', (eviction_oldest_iff hdistinct hlt hc').mpr hall⟩

end CacheCoherence.Cache
