import CacheCoherence.Caching.RemoteAccess
import CacheCoherence.Foundation.TransitionRuns

/-! # Reads that are served from the cache

A hit compares keys only. Over a set of addresses it returns a value of the address asked for as long as
no two addresses share a key, and what happens otherwise depends on their sizes.
-/
namespace CacheCoherence
open Cache TransitionRuns
variable {V : Type}

inductive RemoteCall (V : Type) where
  | read (net : Network V) (ga : GlobalAddress)
  | write (net : Network V) (data : Data V)

def RemoteCall.address : RemoteCall V → GlobalAddress
  | .read _ ga => ga
  | .write _ data => data.ga

/-- A node's cache, and the values that the node has fetched for an address or written to it. -/
structure Client (V : Type) where
  cache : Cache V
  own : List (GlobalAddress × V)

def Client.start : Client V := ⟨.new, []⟩

def reached {α : Type} (r : Except (Stage × NetworkOp) α) (stages : List Stage) : Bool :=
  match r with
  | .ok _ => true
  | .error s => s.1 ∉ stages

def Client.call (n : NodeId) (s : Client V) : RemoteCall V → Option (Client V)
  | .read net ga => ((performRead net ga n).exec s.cache).map fun p =>
      let missed := (s.cache.getCacheItem net.lookup ga).2.isNone
      ⟨p.2, if missed && reached p.1 [.connect, .request] then s.own ++ [(ga, net.value (ga.sendable n))] else s.own⟩
  | .write net data => ((performWrite net data n).exec s.cache).map fun p =>
      ⟨p.2, if reached p.1 [.connect] then s.own ++ [(data.ga, data.data)] else s.own⟩

/-- A read of an address of `A` that hits gets a value of that address. -/
def OwnHits (A : Set GlobalAddress) (s : Client V) : Prop :=
  ∀ ga ∈ A, ∀ now it, (s.cache.getCacheItem now ga).2 = some it → (ga, it.data) ∈ s.own

/-- Two addresses of `A` that share a key are the same, or neither fits into a cache. -/
def KeysApart (A : Set GlobalAddress) : Prop :=
  ∀ a ∈ A, ∀ b ∈ A, a.hash = b.hash → a = b ∨ (512 < a.size ∧ 512 < b.size)

/-- Live remote blocks as `Malloc` gives them out: a record and `size` bytes each, aligned, and apart at every home. -/
structure Allocations (n : NodeId) (A : Set GlobalAddress) : Prop where
  remote : ∀ ga ∈ A, ga.id ≠ n
  placed : ∀ ga ∈ A, ga.ptr ≠ 0 ∧ 16 ∣ ga.ptr.toNat ∧ ga.ptr.toNat + (ga.size.toNat + 40) < 2 ^ 64
  apart : ∀ a ∈ A, ∀ b ∈ A, a ≠ b → a.id = b.id →
    a.ptr.toNat + (a.size.toNat + 40) ≤ b.ptr.toNat ∨ b.ptr.toNat + (b.size.toNat + 40) ≤ a.ptr.toNat

structure OwnItems (A : Set GlobalAddress) (s : Client V) : Prop where
  capacity : s.cache.maxsize = 512
  stored : ∀ (k : UInt64) ga v, s.cache.Stores k ga v → ga ∈ A ∧ k = ga.hash ∧ ga.size ≤ 512 ∧ (ga, v) ∈ s.own

variable {A : Set GlobalAddress} {n : NodeId} {s t : Client V} {c c' : Cache V} {own : List (GlobalAddress × V)}
  {a : RemoteCall V} {ga : GlobalAddress} {v : V}

theorem OwnItems.shrinks (h : OwnItems A ⟨c, own⟩) (hs : Shrinks c c') : OwnItems A ⟨c', own⟩ :=
  ⟨hs.maxsize.trans h.capacity, fun k ga v hstores => h.stored k ga v (hs.stores hstores)⟩

theorem OwnItems.more (h : OwnItems A ⟨c, own⟩) (p : GlobalAddress × V) : OwnItems A ⟨c, own ++ [p]⟩ := by
  refine ⟨h.capacity, fun k ga v hstores => ?_⟩
  obtain ⟨hmem, hk, hsize, hown⟩ := h.stored k ga v hstores
  exact ⟨hmem, hk, hsize, List.mem_append_left _ hown⟩

theorem OwnItems.lookup (h : OwnItems A ⟨c, own⟩) (now : ℤ) (ga : GlobalAddress) :
    OwnItems A ⟨(c.getCacheItem now ga).1, own⟩ := by
  refine ⟨?_, fun k ga v hstores => h.stored k ga v (stores_getCacheItem.mp hstores)⟩
  have hmax : (c.getCacheItem now ga).1.maxsize = c.maxsize := by
    unfold Cache.getCacheItem
    split <;> rfl
  exact hmax.trans h.capacity

theorem addCacheItem_maxsize {ci : CacheItem V} (h : c.addCacheItem ga ci = some c') :
    c'.maxsize = c.maxsize ∧ ga.size ≤ c.maxsize := by
  unfold Cache.addCacheItem at h
  split at h
  · rename_i hsize
    split at h
    · cases h
      exact ⟨rfl, hsize⟩
    · exact ⟨(shrinks_evict h).maxsize, hsize⟩
  · cases h

theorem OwnItems.addCacheItem {created lastused : ℤ} (h : OwnItems A ⟨c, own⟩) (hga : ga ∈ A)
    (hadd : c.addCacheItem ga ⟨ga, v, created, lastused⟩ = some c') : OwnItems A ⟨c', own ++ [(ga, v)]⟩ := by
  obtain ⟨hmax, hsize⟩ := addCacheItem_maxsize hadd
  refine ⟨hmax.trans h.capacity, fun k ga' v' hstores => ?_⟩
  rcases Stores.addCacheItem hadd hstores with hold | ⟨rfl, -, rfl, rfl⟩
  · exact (h.more (ga, v)).stored k ga' v' hold
  · exact ⟨hga, rfl, h.capacity ▸ hsize, List.mem_append_right _ (List.mem_singleton.mpr rfl)⟩

theorem OwnItems.own_key (h : OwnItems A ⟨c, own⟩) (hA : KeysApart A) (hga : ga ∈ A) {it : CacheItem V}
    (hit : c.items[ga.hash]? = some it) : it.globalAddress = ga ∧ ga.size ≤ 512 ∧ (ga, it.data) ∈ own := by
  obtain ⟨hmem, hkey, hsize, hown⟩ := h.stored ga.hash it.globalAddress it.data ⟨it, hit, rfl, rfl⟩
  rcases hA ga hga it.globalAddress hmem hkey with heq | ⟨-, hlarge⟩
  · exact ⟨heq.symm, heq ▸ hsize, heq ▸ hown⟩
  · exact absurd hsize (UInt64.not_le.mpr hlarge)

theorem OwnItems.alterCacheItem {created lastused : ℤ} (h : OwnItems A ⟨c, own⟩) (hA : KeysApart A) (hga : ga ∈ A)
    (halter : c.alterCacheItem ⟨ga, v, created, lastused⟩ ga = some c') : OwnItems A ⟨c', own ++ [(ga, v)]⟩ := by
  by_cases hmem : ga.hash ∈ c.items
  · obtain ⟨it, hit⟩ := Option.isSome_iff_exists.mp (Std.TreeMap.mem_iff_isSome_getElem?.mp hmem)
    obtain ⟨-, hsize, -⟩ := h.own_key hA hga hit
    refine ⟨?_, fun k ga' v' hstores => ?_⟩
    · rw [Cache.alterCacheItem, if_pos hmem] at halter
      cases halter
      exact h.capacity
    · rcases Stores.alterCacheItem halter hstores with ⟨-, hold⟩ | ⟨rfl, rfl, rfl⟩
      · exact (h.more (ga, v)).stored k ga' v' hold
      · exact ⟨hga, rfl, hsize, List.mem_append_right _ (List.mem_singleton.mpr rfl)⟩
  · rw [Cache.alterCacheItem, if_neg hmem] at halter
    exact h.addCacheItem hga halter

theorem OwnItems.call (h : OwnItems A s) (hA : KeysApart A) (ha : a.address ∈ A) (hcall : s.call n a = some t) :
    OwnItems A t := by
  cases a with
  | read net ga =>
    obtain ⟨⟨r, c'⟩, hexec, rfl⟩ := Option.map_eq_some_iff.mp hcall
    rcases performRead_cases hexec with ⟨it, hhit, rfl, rfl⟩ | ⟨hmiss, ⟨rfl, e, rfl, hstage⟩ | ⟨hadd, hr⟩⟩
    · simpa [hhit] using h.lookup net.lookup ga
    · simp only
      split
      · exact (h.lookup net.lookup ga).more _
      · exact h.lookup net.lookup ga
    · have hreached : reached r [.connect, .request] = true := by
        rcases hr with rfl | ⟨e, rfl, he⟩
        · rfl
        · simp [reached, he]
      have hga : ga ∈ A := ha
      simpa [hmiss, hreached] using (h.lookup net.lookup ga).addCacheItem hga hadd
  | write net data =>
    obtain ⟨⟨r, c'⟩, hexec, rfl⟩ := Option.map_eq_some_iff.mp hcall
    rcases performWrite_cases hexec with ⟨rfl, e, rfl, hstage⟩ | ⟨c₁, halter, hshrinks, hthrown⟩
    · simpa [reached, hstage] using h
    · have hreached : reached r [.connect] = true := by
        cases r with
        | ok _ => rfl
        | error e => simpa [reached] using (hthrown e rfl).1
      have hga : data.ga ∈ A := ha
      simpa [hreached] using (h.alterCacheItem hA hga halter).shrinks hshrinks

theorem OwnItems.ownHits (h : OwnItems A s) (hA : KeysApart A) : OwnHits A s := by
  intro ga hga now it hhit
  obtain ⟨jt, hjt, hga', hv⟩ := stores_of_hit hhit
  obtain ⟨-, -, hown⟩ := h.own_key hA hga hjt
  exact hv ▸ hown

theorem ownItems_start : OwnItems A (Client.start : Client V) := ⟨rfl, fun _ _ _ hstores => absurd hstores stores_new⟩

theorem KeysApart.ownHits (hA : KeysApart A) {as : List (RemoteCall V)} (has : ∀ a ∈ as, a.address ∈ A) :
    Always (Client.call n) (OwnHits A) Client.start as := by
  refine always_iff_passed.mpr fun pre t hpre hrun => ?_
  have hpres : Meets (Client.call n) (fun _ a => a.address ∈ A) (Client.start : Client V) pre :=
    meets_of_forall fun a ha => has a (hpre.subset ha)
  have hitems : OwnItems A t :=
    run_invariant_of_meets (fun s a t hs ha ht => hs.call hA ha ht) ownItems_start hpres hrun
  exact hitems.ownHits hA

theorem keysApart_of_sizes (h : ∀ a ∈ A, ∀ b ∈ A, a.size = b.size ∧ a.id = b.id) : KeysApart A := by
  intro a ha b hb hkey
  obtain ⟨hsize, hid⟩ := h a ha b hb
  exact Or.inl (GlobalAddress.hash_injOn hsize hid hkey)

def quietNetwork (v : V) : Network V where
  throws _ _ := false
  lookup := 1
  created := 1
  lastused := 1
  value _ := v
  address data := .ofSendable data.sga
  invalidates := false
  invalidated := []

theorem exec_quiet (stage : Stage) (ops : List NetworkOp) :
    Remote.exec (ops.forM (attempt (quietNetwork v) stage)) c = some (.ok (), c) := by
  induction ops with
  | nil => rfl
  | cons op ops ih => simpa [Remote.exec_bind, quietNetwork] using ih

theorem exec_closeClientSocket_quiet : Remote.exec (closeClientSocket (quietNetwork v)) c = some (.ok (), c) :=
  Remote.exec_bind_ok (exec_quiet .close _)

theorem call_read_start (hsize : ga.size ≤ 512) :
    ∃ t, (Client.start : Client V).call n (.read (quietNetwork v) ga) = some t ∧ t.own = [(ga, v)] ∧
      t.cache.items[ga.hash]? = some ⟨ga, v, 1, 1⟩ := by
  have hlookup : (Cache.new : Cache V).getCacheItem (quietNetwork v).lookup ga = (Cache.new, none) := by
    simp [Cache.getCacheItem, Cache.new]
  obtain ⟨c, hadd, hitem⟩ : ∃ c, (Cache.new : Cache V).addCacheItem ga ⟨ga, v, 1, 1⟩ = some c ∧
      c.items[ga.hash]? = some ⟨ga, v, 1, 1⟩ := by
    have hmax : ga.size ≤ (Cache.new : Cache V).maxsize := hsize
    have hroom : ga.size ≤ (Cache.new : Cache V).availablesize := hsize
    refine ⟨_, by rw [Cache.addCacheItem, if_pos hmax, if_pos hroom], ?_⟩
    exact Std.TreeMap.getElem?_insertIfNew.trans (if_pos ⟨by simp, by simp [Cache.new]⟩)
  have hexec : (performRead (quietNetwork v) ga n).exec (Cache.new : Cache V) = some (.ok v, c) := by
    rw [performRead, Remote.exec_bind_ok exec_getCacheItem, hlookup]
    refine (Remote.exec_bind_ok (exec_quiet .connect _)).trans ?_
    refine (Remote.exec_bind_ok (Remote.exec_bind_ok (exec_quiet .request _))).trans ?_
    have hstore : Remote.exec (onCache fun c => c.addCacheItem ga ⟨ga, v, 1, 1⟩) Cache.new = some (.ok (), c) := by
      rw [exec_onCache, hadd]
      rfl
    refine (Remote.exec_bind_ok hstore).trans ?_
    exact Remote.exec_bind_ok exec_closeClientSocket_quiet
  refine ⟨⟨c, [(ga, v)]⟩, ?_, rfl, hitem⟩
  simp only [Client.call, Client.start, hexec, hlookup, Option.map_some]
  rfl

/-- At a node with remote addresses `A`, whatever runs of reads and writes it makes, a read that is served from the
cache gets a value of the address asked for exactly if no two addresses of `A`, one of which fits, share a key. -/
theorem hits_own_iff [Inhabited V] (n : NodeId) (A : Set GlobalAddress) :
    (∀ as : List (RemoteCall V), (∀ a ∈ as, a.address ∈ A) → Always (Client.call n) (OwnHits A) Client.start as) ↔
      KeysApart A := by
  refine ⟨fun h => ?_, fun hA as has => hA.ownHits has⟩
  have hread : ∀ a ∈ A, a.size ≤ 512 → ∀ b ∈ A, a.hash = b.hash → a = b := by
    intro a ha hsize b hb hkey
    obtain ⟨t, hcall, hown, hitem⟩ := call_read_start (v := (default : V)) (n := n) hsize
    have hrun : run (Client.call n) (Client.start : Client V) [.read (quietNetwork default) a] = some t := by
      rw [run_cons, hcall]
      rfl
    have halways := h [.read (quietNetwork default) a] (by simpa [RemoteCall.address] using ha)
    have hhit := always_iff_passed.mp halways _ t (List.prefix_refl _) hrun b hb 0 ⟨a, default, 1, 0⟩ (by
      simp [getCacheItem_snd, ← hkey, hitem])
    rw [hown] at hhit
    exact (Prod.mk.inj (List.mem_singleton.mp hhit)).1.symm
  intro a ha b hb hkey
  by_cases hsmall : a.size ≤ 512
  · exact Or.inl (hread a ha hsmall b hb hkey)
  · by_cases hsmall' : b.size ≤ 512
    · exact Or.inl (hread b hb hsmall' a ha hkey.symm).symm
    · exact Or.inr ⟨UInt64.not_le.mp hsmall, UInt64.not_le.mp hsmall'⟩

def sixtyFour : GlobalAddress := ⟨64, 4096, 3000⟩
def oneNinetyTwo : GlobalAddress := ⟨192, 4224, 3000⟩

/-- The second block gets the value that was fetched for the first. -/
theorem hits_not_own : ¬ ∀ (n : NodeId) (A : Set GlobalAddress), Allocations n A → ∀ as : List (RemoteCall ℕ),
    (∀ a ∈ as, a.address ∈ A) → Always (Client.call n) (OwnHits A) Client.start as := by
  intro h
  have hblocks : Allocations 1000 {sixtyFour, oneNinetyTwo} := by
    constructor
    · rintro ga (rfl | rfl) <;> decide
    · rintro ga (rfl | rfl) <;> decide
    · rintro a (rfl | rfl) b (rfl | rfl) hne hid
      · exact absurd rfl hne
      · exact Or.inl (by decide)
      · exact Or.inr (by decide)
      · exact absurd rfl hne
  have hsize : sixtyFour.size ≤ 512 := by decide
  have hkey : oneNinetyTwo.hash = sixtyFour.hash := by decide
  obtain ⟨t, hcall, hown, hitem⟩ := call_read_start (v := 7) (n := 1000) hsize
  have hrun : run (Client.call 1000) (Client.start : Client ℕ) [.read (quietNetwork 7) sixtyFour] = some t := by
    rw [run_cons, hcall]
    rfl
  have halways := h 1000 _ hblocks [.read (quietNetwork 7) sixtyFour] (by simp [RemoteCall.address])
  have hhit := always_iff_passed.mp halways _ t (List.prefix_refl _) hrun oneNinetyTwo (by simp) 0
    ⟨sixtyFour, 7, 1, 0⟩ (by simp [getCacheItem_snd, hkey, hitem])
  rw [hown] at hhit
  exact absurd hhit (by decide)

end CacheCoherence
