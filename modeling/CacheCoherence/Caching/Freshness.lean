import CacheCoherence.Caching.Calls
import CacheCoherence.Foundation.TransitionRuns

/-! # What a hit returns

`map::insert` keeps an entry that is there, so the latest store wins only as long as a node adds an item
directly after it has missed the address.
-/
namespace CacheCoherence.Cache
open TransitionRuns
variable {V : Type}

/-- The item of the last `addCacheItem` or `alterCacheItem` under the key `k` that no `removeCacheItem` has
followed. -/
def lastStore (k : UInt64) (cs : List (Call V)) : Option (CacheItem V) :=
  cs.foldl (fun last a => match a with
    | .add ga ci | .alter ci ga => if ga.hash = k then some ci else last
    | .remove ga => if ga.hash = k then none else last
    | .get _ _ => last) none

/-- As in `performRead`: an item is added directly after a lookup that has missed its address. -/
def AddsFollowMisses (cs : List (Call V)) : Prop :=
  ∀ pre ga ci post, cs = pre ++ .add ga ci :: post →
    ∃ start now c, pre = start ++ [.get now ga] ∧ run perform new start = some c ∧ (c.getCacheItem now ga).2 = none

variable {c c' : Cache V} {cs : List (Call V)} {a : Call V} {k size : UInt64} {fuel : ℕ} {ga : GlobalAddress}
  {it ci : CacheItem V} {now : ℤ}

theorem lastStore_concat (k : UInt64) (cs : List (Call V)) (a : Call V) :
    lastStore k (cs ++ [a]) = match a with
      | .add ga ci | .alter ci ga => if ga.hash = k then some ci else lastStore k cs
      | .remove ga => if ga.hash = k then none else lastStore k cs
      | .get _ _ => lastStore k cs := by
  rw [lastStore, List.foldl_append]
  cases a <;> rfl

theorem shrinks_addCacheItem (hroom : ¬ ga.size ≤ c.availablesize) (h : c.addCacheItem ga ci = some c') :
    Shrinks c c' := by
  unfold addCacheItem at h
  split at h
  · exact shrinks_evict (by simpa [hroom] using h)
  · cases h

theorem Shrinks.hit (hs : Shrinks c c') (h : (c'.getCacheItem now ga).2 = some it) :
    (c.getCacheItem now ga).2 = some it := by
  unfold getCacheItem at h ⊢
  cases hc' : c'.items[ga.hash]? with
  | none => simp [hc'] at h
  | some jt =>
    rw [hs.items _ _ hc']
    simpa [hc'] using h

/-- Whatever the cache holds under a key is what was stored last under it. -/
def LastStored (cs : List (Call V)) (c : Cache V) : Prop :=
  ∀ (k : UInt64) (ga : GlobalAddress) (v : V), c.Stores k ga v →
    ∃ ci, lastStore k cs = some ci ∧ ci.globalAddress = ga ∧ ci.data = v

theorem LastStored.perform (h : LastStored cs c) (ha : ∀ ga ci, a = .add ga ci → ga.hash ∉ c.items)
    (hc : c.perform a = some c') : LastStored (cs ++ [a]) c' := by
  intro k ga v hstores
  rw [lastStore_concat]
  cases a with
  | add gaddr ci =>
    have hfree := ha gaddr ci rfl
    rcases Stores.addCacheItem hc hstores with hold | ⟨rfl, -, hga, hv⟩
    · have hk : gaddr.hash ≠ k := by
        rintro rfl
        obtain ⟨it, hit, -⟩ := hold
        exact hfree (Std.TreeMap.mem_iff_isSome_getElem?.mpr (by simp [hit]))
      simpa [hk] using h k ga v hold
    · exact ⟨ci, by simp, hga, hv⟩
  | remove gaddr =>
    cases hc
    obtain ⟨hk, hold⟩ := hstores.removeCacheItem
    simpa [hk.symm] using h k ga v hold
  | get now gaddr =>
    cases hc
    exact h k ga v (stores_getCacheItem.mp hstores)
  | alter ci gaddr =>
    rcases Stores.alterCacheItem hc hstores with ⟨hk, hold⟩ | ⟨rfl, hga, hv⟩
    · simpa [hk.symm] using h k ga v hold
    · exact ⟨ci, by simp, hga, hv⟩

theorem AddsFollowMisses.free (hcs : AddsFollowMisses (cs ++ [.add ga ci]))
    (h : run perform (new : Cache V) cs = some c) :
    ga.hash ∉ c.items := by
  obtain ⟨start, now, d, rfl, hd, hmiss⟩ := hcs cs ga ci [] rfl
  have hsame : (d.getCacheItem now ga).1 = c := by
    simpa [run_append, hd, Cache.perform] using h
  cases hit : d.items[ga.hash]? with
  | none =>
    have hc : d = c := by simpa [getCacheItem, hit] using hsame
    rw [← hc, Std.TreeMap.mem_iff_isSome_getElem?, hit]
    simp
  | some it => simp [getCacheItem, hit] at hmiss

theorem AddsFollowMisses.run (hcs : AddsFollowMisses cs) (h : run Cache.perform (new : Cache V) cs = some c) :
    LastStored cs c := by
  induction cs using List.reverseRecOn generalizing c with
  | nil =>
    cases h
    exact fun k ga v hstores => absurd hstores stores_new
  | append_singleton cs a ih =>
    rw [run_append] at h
    obtain ⟨d, hd, h⟩ := Option.bind_eq_some_iff.mp h
    have hstep : d.perform a = some c := by simpa using h
    have hpre : AddsFollowMisses cs := fun pre ga ci post heq => hcs pre ga ci (post ++ [a]) (by simp [heq])
    refine (ih hpre hd).perform ?_ hstep
    rintro ga ci rfl
    exact hcs.free hd

/-- In every run of calls that adds items directly after misses, a hit returns the data and the address of the last
store under the key of the address; making room only takes answers away. -/
theorem hit_last_stored (hcs : AddsFollowMisses cs) (h : run perform (new : Cache V) cs = some c) :
    (∀ now ga it, (c.getCacheItem now ga).2 = some it →
        ∃ ci, lastStore ga.hash cs = some ci ∧ it.data = ci.data ∧ it.globalAddress = ci.globalAddress) ∧
      (∀ now ga it, (c.removeOldestItem.getCacheItem now ga).2 = some it → (c.getCacheItem now ga).2 = some it) ∧
      ∀ gaddr ci c', ¬ gaddr.size ≤ c.availablesize → c.addCacheItem gaddr ci = some c' →
        ∀ now ga it, (c'.getCacheItem now ga).2 = some it → (c.getCacheItem now ga).2 = some it := by
  refine ⟨fun now ga it hit => ?_, fun now ga it hit => (shrinks_removeOldestItem c).hit hit,
    fun gaddr ci c' hroom hadd now ga it hit => (shrinks_addCacheItem hroom hadd).hit hit⟩
  obtain ⟨ci, hlast, hga, hv⟩ := hcs.run h ga.hash it.globalAddress it.data (stores_of_hit hit)
  exact ⟨ci, hlast, hv.symm, hga.symm⟩

def readThenWritten : List (Call ℕ) :=
  let ga : GlobalAddress := ⟨8, 4096, 3000⟩
  [.get 1 ga, .add ga ⟨ga, 7, 2, 2⟩, .alter ⟨ga, 8, 3, 3⟩ ga]

theorem hit_last_stored_readThenWritten :
    ∃ c it ci, run perform (new : Cache ℕ) readThenWritten = some c ∧ (c.getCacheItem 4 ⟨8, 4096, 3000⟩).2 = some it ∧
      lastStore (GlobalAddress.hash ⟨8, 4096, 3000⟩) readThenWritten = some ci ∧ it.data = ci.data ∧
      it.globalAddress = ci.globalAddress := by
  have hcs : AddsFollowMisses readThenWritten := by
    intro pre ga ci post heq
    rcases pre with _ | ⟨a, _ | ⟨b, _ | ⟨d, pre⟩⟩⟩
    · cases heq
    · cases heq
      exact ⟨[], 1, new, rfl, rfl, rfl⟩
    · cases heq
    · simp [readThenWritten] at heq
  have hhit : (run perform (new : Cache ℕ) readThenWritten).map (fun c => (c.getCacheItem 4 ⟨8, 4096, 3000⟩).2.isSome)
      = some true := by decide +kernel
  obtain ⟨c, hrun, hc⟩ := Option.map_eq_some_iff.mp hhit
  obtain ⟨it, hit⟩ := Option.isSome_iff_exists.mp hc
  obtain ⟨ci, hlast, hsame⟩ := (hit_last_stored hcs hrun).1 4 ⟨8, 4096, 3000⟩ it hit
  exact ⟨c, it, ci, hrun, hit, hlast, hsame⟩

end CacheCoherence.Cache
