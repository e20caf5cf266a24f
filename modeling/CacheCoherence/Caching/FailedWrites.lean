import CacheCoherence.Caching.RemoteAccess

/-! # Remote writes that fail

`performWrite` changes the cache when it has connected and before it sends, so an exception of the later
steps leaves a value in the cache that the home has not stored.
-/
namespace CacheCoherence
open Cache
variable {V : Type} {net : Network V} {data : Data V} {srcID : NodeId} {c c' : Cache V} {s : Stage × NetworkOp}

/-- Every lookup finds the same item, or none, in both caches. -/
def SameAnswers (c c' : Cache V) : Prop :=
  ∀ now ga, (c'.getCacheItem now ga).2 = (c.getCacheItem now ga).2

def Network.Cached (net : Network V) (data : Data V) (c : Cache V) : Prop :=
  ∃ it, c.items[data.ga.hash]? = some it ∧ it.globalAddress = data.ga ∧ it.data = data.data ∧ it.created = net.created

theorem exists_hash_eq (k : UInt64) : ∃ ga : GlobalAddress, ga.hash = k := ⟨⟨0, k, 0⟩, by simp [GlobalAddress.hash]⟩

theorem sameAnswers_iff : SameAnswers c c' ↔ ∀ (k : UInt64) now,
    (c'.items[k]?.map fun it => { it with lastused := now }) = c.items[k]?.map fun it =>
      { it with lastused := now } := by
  constructor
  · intro h k now
    obtain ⟨ga, rfl⟩ := exists_hash_eq k
    rw [← getCacheItem_snd, ← getCacheItem_snd]
    exact h now ga
  · intro h now ga
    rw [getCacheItem_snd, getCacheItem_snd]
    exact h ga.hash now

theorem evict_loses {size : UInt64} {fuel : ℕ} (h : evict size fuel c = some c') (hlt : c.availablesize < size) :
    ∃ (k : UInt64) (it : CacheItem V), c.items[k]? = some it ∧ c'.items[k]? = none := by
  cases hl : latest c.items with
  | none =>
    rw [evict_stuck hl hlt] at h
    cases h
  | some p =>
    obtain ⟨k, it⟩ := p
    cases fuel with
    | zero => simp [evict, hlt] at h
    | succ fuel =>
      rw [evict, if_pos hlt, removeOldestItem_of_latest hl] at h
      refine ⟨k, it, latest_mem hl, ?_⟩
      cases hk : c'.items[k]? with
      | none => rfl
      | some jt =>
        have hold := (shrinks_evict h).items k jt hk
        simp at hold

theorem addCacheItem_answers {ga : GlobalAddress} {ci : CacheItem V} (hfree : ga.hash ∉ c.items)
    (h : c.addCacheItem ga ci = some c') : ¬ SameAnswers c c' := by
  intro hsame
  rw [sameAnswers_iff] at hsame
  unfold Cache.addCacheItem at h
  split at h
  · split at h
    · cases h
      have hkey := hsame ga.hash 0
      rw [Std.TreeMap.getElem?_eq_none hfree] at hkey
      simp [hfree] at hkey
    · rename_i hroom
      obtain ⟨k, it, hit, hgone⟩ := evict_loses h (UInt64.not_le.mp hroom)
      have hkey := hsame k 0
      rw [hit, hgone] at hkey
      cases hkey
  · cases h

theorem alterCacheItem_answers
    (h : c.alterCacheItem ⟨data.ga, data.data, net.created, net.lastused⟩ data.ga = some c') :
    SameAnswers c c' ↔ net.Cached data c := by
  by_cases hmem : data.ga.hash ∈ c.items
  · obtain ⟨it, hit⟩ := Option.isSome_iff_exists.mp (Std.TreeMap.mem_iff_isSome_getElem?.mp hmem)
    rw [alterCacheItem, if_pos hmem] at h
    cases h
    rw [sameAnswers_iff]
    constructor
    · intro hsame
      have hkey := hsame data.ga.hash 0
      rw [hit] at hkey
      simp only [Std.TreeMap.getElem?_insert_self, Option.map_some, Option.some.injEq, CacheItem.mk.injEq] at hkey
      exact ⟨it, hit, hkey.1.symm, hkey.2.1.symm, hkey.2.2.1.symm⟩
    · rintro ⟨jt, hjt, hga, hv, hcreated⟩ k now
      rw [Std.TreeMap.getElem?_insert]
      split
      · rename_i hk
        obtain rfl : data.ga.hash = k := by simpa using hk
        rw [hjt, ← hga, ← hv, ← hcreated]
        rfl
      · rfl
  · rw [alterCacheItem, if_neg hmem] at h
    constructor
    · exact fun hsame => absurd hsame (addCacheItem_answers hmem h)
    · rintro ⟨it, hit, -⟩
      rw [Std.TreeMap.getElem?_eq_none hmem] at hit
      cases hit

/-- A write that throws before the final reply of the home leaves every answer of the cache as it was exactly if
it has failed to connect, or the cache held its item already. -/
theorem failed_write_iff (h : (performWrite net data srcID).exec c = some (.error s, c'))
    (hs : s.1.afterReply = false) :
    SameAnswers c c' ↔ s.1 = .connect ∨ net.Cached data c := by
  rcases performWrite_cases h with ⟨rfl, s', hs', hconnect⟩ | ⟨c₁, halter, -, hthrown⟩
  · cases hs'
    exact ⟨fun _ => Or.inl hconnect, fun _ _ _ => rfl⟩
  · obtain ⟨hconnect, hkeep⟩ := hthrown s rfl
    rw [hkeep hs, alterCacheItem_answers halter]
    simp [hconnect]

def brokenAt (stage : Stage) (op : NetworkOp) : Network ℕ where
  throws st o := st == stage && o == op
  lookup := 1
  created := 1
  lastused := 1
  value _ := 7
  address data := .ofSendable data.sga
  invalidates := false
  invalidated := []

def writeEight : Data ℕ := ⟨8, 8, ⟨8, 4096, 3000⟩⟩

/-- The value of a write whose request was never sent is in the cache. -/
theorem failed_write_cached :
    ¬ ∀ (net : Network ℕ) (data : Data ℕ) (srcID : NodeId) (c c' : Cache ℕ) (s : Stage × NetworkOp),
    (performWrite net data srcID).exec c = some (.error s, c') → s.1.afterReply = false → SameAnswers c c' := by
  intro h
  have hrun : ((performWrite (brokenAt .request .writeSocket) writeEight 1000).exec Cache.new).map (fun p =>
      (p.1.toBool, (p.2.getCacheItem 2 writeEight.ga).2.isSome)) = some (false, true) := by decide +kernel
  obtain ⟨⟨r, c'⟩, hexec, hresult⟩ := Option.map_eq_some_iff.mp hrun
  obtain ⟨hr, hhit⟩ := Prod.mk.inj hresult
  cases r with
  | ok ga => cases hr
  | error s =>
    have hs : s = (.request, .writeSocket) := by
      have hstage : ((performWrite (brokenAt .request .writeSocket) writeEight 1000).exec Cache.new).map (fun p =>
          match p.1 with
          | .error s => some s
          | .ok _ => none) = some (some (.request, .writeSocket)) := by decide +kernel
      simpa [hexec] using hstage
    have hsame := h _ writeEight 1000 Cache.new c' s hexec (by rw [hs]; rfl) 2 writeEight.ga
    rw [hsame] at hhit
    simp [getCacheItem_snd, Cache.new] at hhit

def usedCache : Cache ℕ where
  maxsize := 512
  availablesize := 496
  items := (∅ : Std.TreeMap UInt64 (CacheItem ℕ)).insert writeEight.ga.hash ⟨writeEight.ga, 3, 0, 0⟩
    |>.insert (GlobalAddress.mk 8 8192 3000).hash ⟨⟨8, 8192, 3000⟩, 5, 0, 0⟩

theorem failed_write_unconnected :
    ∃ c', (performWrite (brokenAt .connect .connectSocket) writeEight 1000).exec usedCache =
    some (.error (.connect, .connectSocket), c') ∧ SameAnswers usedCache c' ∧
    (c'.getCacheItem 2 writeEight.ga).2 = some ⟨writeEight.ga, 3, 0, 2⟩ := by
  have hexec : (performWrite (brokenAt .connect .connectSocket) writeEight 1000).exec usedCache =
      some (.error (.connect, .connectSocket), usedCache) := rfl
  exact ⟨usedCache, hexec, (failed_write_iff hexec rfl).mpr (Or.inl rfl), by decide +kernel⟩

end CacheCoherence
