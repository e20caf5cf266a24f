import CacheCoherence.Caching.Calls
import CacheCoherence.Foundation.Exits

/-! # The remote branches of `performRead` and `performWrite`

Every step on the network can throw. An exception leaves the call, and the cache stays as it is at that point.
-/
namespace CacheCoherence

inductive Stage where
  | connect
  | request
  | secondReply
  | serve
  | reconnect
  | close
deriving DecidableEq, Repr

inductive NetworkOp where
  | createQueuePair
  | createSocket
  | connectSocket
  | bindSocket
  | listenSocket
  | acceptSocket
  | writeSocket
  | readSocket
  | connectQueuePair
  | setToResetState
  | registerSend
  | registerRecv
  | postWorkRequest
  | pollSend
  | postRecv
  | pollRecv
deriving DecidableEq, Repr

/-- What a call meets outside of its node: the operations that throw, the clock, the replies of the home. -/
structure Network (V : Type) where
  throws : Stage → NetworkOp → Bool
  lookup : ℤ
  created : ℤ
  lastused : ℤ
  value : SendGlobalAddr → V
  address : SendingData V → GlobalAddress
  invalidates : Bool
  invalidated : List GlobalAddress

abbrev Remote (V : Type) := ExceptT (Stage × NetworkOp) (StateT (Cache V) Option)

variable {V : Type}

/-- The outcome and the cache on exit; `none` when the call does not return. -/
def Remote.exec {α : Type} (m : Remote V α) (c : Cache V) : Option (Except (Stage × NetworkOp) α × Cache V) :=
  m.run.run c

def attempt (net : Network V) (stage : Stage) (op : NetworkOp) : Remote V Unit :=
  if net.throws stage op then throw (stage, op) else pure ()

def onCache (f : Cache V → Option (Cache V)) : Remote V Unit := ExceptT.mk fun c => (f c).map fun c' => (.ok (), c')

def getCacheItem (net : Network V) (ga : GlobalAddress) : Remote V (Option (CacheItem V)) :=
  ExceptT.mk fun c => some (.ok (c.getCacheItem net.lookup ga).2, (c.getCacheItem net.lookup ga).1)

def connectClientSocket (net : Network V) (stage : Stage) : Remote V Unit :=
  [.createQueuePair, .createSocket, .connectSocket, .writeSocket, .readSocket, .connectQueuePair].forM
    (attempt net stage)

def exchange (net : Network V) (stage : Stage) : Remote V Unit :=
  [.registerSend, .registerRecv, .writeSocket, .readSocket, .postWorkRequest, .pollSend, .postRecv, .pollRecv].forM
    (attempt net stage)

def closeClientSocket (net : Network V) : Remote V Unit := do
  exchange net .close
  attempt net .close .setToResetState

def handleInvalidation (net : Network V) (ga : GlobalAddress) : Remote V Unit := do
  onCache fun c => some (c.removeCacheItem ga).1
  [.registerSend, .postWorkRequest, .pollSend].forM (attempt net .serve)

def takeRequest (net : Network V) : Remote V Unit :=
  [.registerRecv, .writeSocket, .readSocket, .postRecv, .pollRecv].forM (attempt net .serve)

/-- One session, in which the home invalidates addresses and then resets the connection. -/
def connectAndReceive (net : Network V) : Remote V Unit := do
  [.createSocket, .createQueuePair, .bindSocket, .listenSocket, .acceptSocket, .writeSocket, .readSocket,
    .connectQueuePair].forM (attempt net .serve)
  net.invalidated.forM fun ga => do
    takeRequest net
    handleInvalidation net ga
  takeRequest net
  [.registerSend, .postWorkRequest, .pollSend, .setToResetState].forM (attempt net .serve)

def prepareForInvalidate (net : Network V) : Remote V Unit := do
  [.postRecv, .pollRecv].forM (attempt net .secondReply)
  attempt net .serve .setToResetState
  connectAndReceive net
  connectClientSocket net .reconnect

def sendData (net : Network V) (data : SendingData V) : Remote V GlobalAddress := do
  exchange net .request
  if net.invalidates then prepareForInvalidate net
  pure (net.address data)

def sendAddress (net : Network V) (data : SendGlobalAddr) : Remote V V := do
  exchange net .request
  pure (net.value data)

def performRead (net : Network V) (gaddr : GlobalAddress) (srcID : NodeId) : Remote V V := do
  match ← getCacheItem net gaddr with
  | some cacheItem => pure cacheItem.data
  | none =>
    connectClientSocket net .connect
    let data ← sendAddress net (gaddr.sendable srcID)
    onCache fun c => c.addCacheItem gaddr ⟨gaddr, data, net.created, net.lastused⟩
    closeClientSocket net
    pure data

def performWrite (net : Network V) (data : Data V) (srcID : NodeId) : Remote V GlobalAddress := do
  connectClientSocket net .connect
  onCache fun c => c.alterCacheItem ⟨data.ga, data.data, net.created, net.lastused⟩ data.ga
  let result ← sendData net (data.sendable srcID)
  closeClientSocket net
  pure result

/-- The home has taken the final reply to a write out of its hands. -/
def Stage.afterReply : Stage → Bool
  | .connect | .request | .secondReply => false
  | .serve | .reconnect | .close => true

/-- What a program does to the cache, and the stages at which it throws. -/
def Does {α : Type} (R : Cache V → Cache V → Prop) (p : Stage → Prop) (m : Remote V α) : Prop :=
  ∀ c r c', m.exec c = some (r, c') → R c c' ∧ ∀ s, r = .error s → p s.1

/-- The program only removes from the cache, and leaves it alone until the final reply. -/
def AfterConnect {α : Type} (m : Remote V α) : Prop :=
  ∀ c r c', m.exec c = some (r, c') →
    Cache.Shrinks c c' ∧ ∀ s, r = .error s → s.1 ≠ .connect ∧ (s.1.afterReply = false → c' = c)

section
variable {α β : Type} {net : Network V} {stage : Stage} {op : NetworkOp} {c c' : Cache V} {m : Remote V α}
    {f : α → Remote V β}
  {s : Stage × NetworkOp} {r : Except (Stage × NetworkOp) α} {R : Cache V → Cache V → Prop} {p : Stage → Prop}

@[simp] theorem Remote.exec_pure (a : α) : Remote.exec (pure a : Remote V α) c = some (.ok a, c) := rfl

@[simp] theorem exec_onCache {g : Cache V → Option (Cache V)} : (onCache g).exec c = (g c).map fun d => (.ok (), d) :=
  rfl

@[simp] theorem exec_getCacheItem {ga : GlobalAddress} : (getCacheItem net ga).exec c =
    some (.ok (c.getCacheItem net.lookup ga).2, (c.getCacheItem net.lookup ga).1) := rfl

@[simp] theorem exec_attempt : (attempt net stage op).exec c =
    some (if net.throws stage op then .error (stage, op) else .ok (), c) := by
  unfold attempt
  split <;> rfl

theorem Remote.exec_bind : Remote.exec (m >>= f) c = (m.exec c).bind fun p => match p with
    | (.ok a, d) => (f a).exec d
    | (.error s, d) => some (.error s, d) := by
  refine Exits.exec_bind.trans (congrArg _ (funext fun p => ?_))
  obtain ⟨_ | a, d⟩ := p <;> rfl

theorem Remote.exec_bind_ok {a : α} {d : Cache V} (h : m.exec c = some (.ok a, d)) :
    Remote.exec (m >>= f) c = (f a).exec d :=
  Exits.exec_bind_ok h

theorem Remote.exec_bind_cases {r : Except (Stage × NetworkOp) β} (h : Remote.exec (m >>= f) c = some (r, c')) :
    (∃ s, r = .error s ∧ m.exec c = some (.error s, c')) ∨ ∃ a d, m.exec c = some (.ok a, d) ∧
      (f a).exec d = some (r, c') :=
  Exits.exec_bind_cases h

theorem Does.mono {R' : Cache V → Cache V → Prop} {q : Stage → Prop} (h : Does R p m) (hR : ∀ c c', R c c' → R' c c')
    (hp : ∀ s, p s → q s) : Does R' q m := by
  intro c r c' hm
  obtain ⟨hcache, hstage⟩ := h c r c' hm
  exact ⟨hR c c' hcache, fun s hs => hp s.1 (hstage s hs)⟩

theorem does_pure (hR : ∀ c, R c c) (a : α) : Does R p (pure a : Remote V α) := by
  intro c r c' h
  cases h
  exact ⟨hR c, fun s hs => by cases hs⟩

theorem Does.bind (hR : ∀ c d e, R c d → R d e → R c e) (hm : Does R p m) (hf : ∀ a, Does R p (f a)) :
    Does R p (m >>= f) := by
  intro c r c' h
  rcases Remote.exec_bind_cases h with ⟨s, rfl, hs⟩ | ⟨a, d, ha, hd⟩
  · obtain ⟨hcache, hstage⟩ := hm c _ c' hs
    refine ⟨hcache, fun s' hs' => ?_⟩
    cases hs'
    exact hstage s rfl
  · obtain ⟨hcache, -⟩ := hm c _ d ha
    obtain ⟨hcache', hstage⟩ := hf a d r c' hd
    exact ⟨hR c d c' hcache hcache', hstage⟩

theorem Does.forM {γ : Type} (hrefl : ∀ c, R c c) (hR : ∀ c d e, R c d → R d e → R c e) {g : γ → Remote V Unit}
    (hg : ∀ x, Does R p (g x)) (l : List γ) : Does R p (l.forM g) := by
  induction l with
  | nil => exact does_pure hrefl ()
  | cons x l ih => exact (hg x).bind hR fun _ => ih

theorem does_attempt (net : Network V) (stage : Stage) (op : NetworkOp) :
    Does Eq (· = stage) (attempt net stage op) := by
  intro c r c' h
  rw [exec_attempt] at h
  obtain ⟨rfl, rfl⟩ : _ = r ∧ c = c' := by simpa using h
  refine ⟨rfl, fun s hs => ?_⟩
  split at hs
  · cases hs
    rfl
  · cases hs

theorem does_attempts (net : Network V) (stage : Stage) (ops : List NetworkOp) :
    Does Eq (· = stage) (ops.forM (attempt net stage)) :=
  Does.forM (fun _ => rfl) (fun _ _ _ => Eq.trans) (does_attempt net stage) ops

theorem Does.shrinks (h : Does Eq p m) : Does Cache.Shrinks p m :=
  h.mono (fun c _ heq => heq ▸ Cache.shrinks_refl c) fun _ => id

theorem Does.shrinks_bind (hm : Does Cache.Shrinks p m) (hf : ∀ a, Does Cache.Shrinks p (f a)) :
    Does Cache.Shrinks p (m >>= f) :=
  hm.bind (fun _ _ _ => Cache.Shrinks.trans) hf

theorem does_handleInvalidation (net : Network V) (ga : GlobalAddress) :
    Does Cache.Shrinks (· = .serve) (handleInvalidation net ga) := by
  refine Does.shrinks_bind ?_ fun _ => (does_attempts net .serve _).shrinks
  intro c r c' h
  obtain ⟨rfl, rfl⟩ : _ = r ∧ _ = c' := by simpa using h
  exact ⟨Cache.shrinks_removeCacheItem c ga, fun s hs => by cases hs⟩

theorem does_connectAndReceive (net : Network V) : Does Cache.Shrinks (· = .serve) (connectAndReceive net) := by
  have htake : Does Cache.Shrinks (· = .serve) (takeRequest net) := (does_attempts net .serve _).shrinks
  have hserve : Does Cache.Shrinks (· = .serve) (net.invalidated.forM fun ga => do
      takeRequest net
      handleInvalidation net ga) := by
    refine Does.forM Cache.shrinks_refl (fun _ _ _ => Cache.Shrinks.trans) (fun ga => ?_) net.invalidated
    exact htake.shrinks_bind fun _ => does_handleInvalidation net ga
  refine (does_attempts net .serve _).shrinks.shrinks_bind fun _ => hserve.shrinks_bind fun _ => ?_
  exact htake.shrinks_bind fun _ => (does_attempts net .serve _).shrinks

theorem AfterConnect.of_does (h : Does Eq p m) (hp : ∀ st, p st → st ≠ .connect) : AfterConnect m := by
  intro c r c' hm
  obtain ⟨rfl, hstage⟩ := h c r c' hm
  exact ⟨Cache.shrinks_refl c, fun s hs => ⟨hp s.1 (hstage s hs), fun _ => rfl⟩⟩

theorem AfterConnect.of_afterReply (h : Does Cache.Shrinks (fun st => st.afterReply = true) m) : AfterConnect m := by
  intro c r c' hm
  obtain ⟨hcache, hstage⟩ := h c r c' hm
  refine ⟨hcache, fun s hs => ⟨?_, fun hearly => ?_⟩⟩
  · intro hconnect
    have hlate := hstage s hs
    rw [hconnect] at hlate
    cases hlate
  · rw [hstage s hs] at hearly
    cases hearly

theorem AfterConnect.of_bind (h : Does Eq p m) (hp : ∀ st, p st → st ≠ .connect) (hf : ∀ a, AfterConnect (f a)) :
    AfterConnect (m >>= f) := by
  intro c r c' hm
  rcases Remote.exec_bind_cases hm with ⟨s, rfl, hs⟩ | ⟨a, d, ha, hd⟩
  · obtain ⟨hcache, hstage⟩ := AfterConnect.of_does h hp c _ c' hs
    refine ⟨hcache, fun s' hs' => ?_⟩
    cases hs'
    exact hstage s rfl
  · obtain ⟨rfl, -⟩ := h c _ d ha
    exact hf a c r c' hd

theorem AfterConnect.bind (h : AfterConnect m) (hf : ∀ a, Does Cache.Shrinks (fun st => st.afterReply = true) (f a)) :
    AfterConnect (m >>= f) := by
  intro c r c' hm
  rcases Remote.exec_bind_cases hm with ⟨s, rfl, hs⟩ | ⟨a, d, ha, hd⟩
  · obtain ⟨hcache, hstage⟩ := h c _ c' hs
    refine ⟨hcache, fun s' hs' => ?_⟩
    cases hs'
    exact hstage s rfl
  · obtain ⟨hcache, -⟩ := h c _ d ha
    have hlate := AfterConnect.of_afterReply (hf a) d r c' hd
    refine ⟨hcache.trans hlate.1, fun s hs => ⟨(hlate.2 s hs).1, fun hearly => ?_⟩⟩
    have hnot : s.1.afterReply = true := (hf a d r c' hd).2 s hs
    rw [hearly] at hnot
    cases hnot

theorem afterConnect_prepareForInvalidate (net : Network V) : AfterConnect (prepareForInvalidate net) := by
  refine AfterConnect.of_bind (does_attempts net .secondReply _) (fun st hst => hst ▸ by decide) fun _ => ?_
  refine AfterConnect.of_afterReply ?_
  refine ((does_attempt net .serve _).shrinks.mono (fun _ _ => id) fun st hst => hst ▸ rfl).shrinks_bind fun _ => ?_
  refine ((does_connectAndReceive net).mono (fun _ _ => id) fun st hst => hst ▸ rfl).shrinks_bind fun _ => ?_
  exact (does_attempts net .reconnect _).shrinks.mono (fun _ _ => id) fun st hst => hst ▸ rfl

theorem does_closeClientSocket (net : Network V) : Does Eq (· = .close) (closeClientSocket net) :=
  (does_attempts net .close _).bind (fun _ _ _ => Eq.trans) fun _ => does_attempt net .close .setToResetState

theorem afterConnect_sendData (net : Network V) (data : SendingData V) : AfterConnect (sendData net data) := by
  refine AfterConnect.of_bind (does_attempts net .request _) (fun st hst => hst ▸ by decide) fun _ => ?_
  by_cases hinv : net.invalidates
  · simp only [hinv, ↓reduceIte]
    exact (afterConnect_prepareForInvalidate net).bind fun _ => does_pure Cache.shrinks_refl (net.address data)
  · simp only [hinv, Bool.false_eq_true, ↓reduceIte]
    exact AfterConnect.of_afterReply (does_pure Cache.shrinks_refl (net.address data))

/-- A write that throws has failed to connect, or has put its item into the cache. -/
theorem performWrite_cases {data : Data V} {srcID : NodeId} {r : Except (Stage × NetworkOp) GlobalAddress}
    (h : (performWrite net data srcID).exec c = some (r, c')) :
    (c' = c ∧ ∃ s, r = .error s ∧ s.1 = .connect) ∨
      ∃ c₁, c.alterCacheItem ⟨data.ga, data.data, net.created, net.lastused⟩ data.ga = some c₁ ∧ Cache.Shrinks c₁ c' ∧
        ∀ s, r = .error s → s.1 ≠ .connect ∧ (s.1.afterReply = false → c' = c₁) := by
  rcases Remote.exec_bind_cases h with ⟨s, rfl, hs⟩ | ⟨a, c₀, h₀, h⟩
  · obtain ⟨rfl, hstage⟩ := does_attempts net .connect _ c _ c' hs
    exact Or.inl ⟨rfl, s, rfl, hstage s rfl⟩
  · obtain ⟨rfl, -⟩ := does_attempts net .connect _ c _ c₀ h₀
    rcases Remote.exec_bind_cases h with ⟨s, rfl, hs⟩ | ⟨a, c₁, h₁, h⟩
    · simp at hs
    · have halter : c.alterCacheItem ⟨data.ga, data.data, net.created, net.lastused⟩ data.ga = some c₁ := by
        simpa using h₁
      have hrest : AfterConnect (sendData net (data.sendable srcID) >>= fun result =>
          closeClientSocket net >>= fun _ => pure result) := by
        refine (afterConnect_sendData net _).bind fun result => ?_
        refine Does.shrinks_bind ?_ fun _ => does_pure Cache.shrinks_refl result
        exact (does_closeClientSocket net).shrinks.mono (fun _ _ => id) fun st hst => hst ▸ rfl
      exact Or.inr ⟨c₁, halter, hrest c₁ r c' h⟩

theorem fetch_cases {data : SendGlobalAddr} {r : Except (Stage × NetworkOp) V}
    (h : (connectClientSocket net .connect >>= fun _ => sendAddress net data).exec c = some (r, c')) :
    c = c' ∧ (r = .ok (net.value data) ∨ ∃ s, r = .error s ∧ (s.1 = .connect ∨ s.1 = .request)) := by
  rcases Remote.exec_bind_cases h with ⟨s, rfl, hs⟩ | ⟨a, d, hd, h⟩
  · obtain ⟨rfl, hstage⟩ := does_attempts net .connect _ c _ c' hs
    exact ⟨rfl, Or.inr ⟨s, rfl, Or.inl (hstage s rfl)⟩⟩
  · obtain ⟨rfl, -⟩ := does_attempts net .connect _ c _ d hd
    rcases Remote.exec_bind_cases h with ⟨s, rfl, hs⟩ | ⟨a, d, hd, h⟩
    · obtain ⟨rfl, hstage⟩ := does_attempts net .request _ c _ c' hs
      exact ⟨rfl, Or.inr ⟨s, rfl, Or.inr (hstage s rfl)⟩⟩
    · obtain ⟨rfl, -⟩ := does_attempts net .request _ c _ d hd
      cases h
      exact ⟨rfl, Or.inl rfl⟩

theorem performRead_cases {ga : GlobalAddress} {srcID : NodeId} {r : Except (Stage × NetworkOp) V}
    (h : (performRead net ga srcID).exec c = some (r, c')) :
    (∃ it, (c.getCacheItem net.lookup ga).2 = some it ∧ r = .ok it.data ∧ c' = (c.getCacheItem net.lookup ga).1) ∨
      (c.getCacheItem net.lookup ga).2 = none ∧
        ((c' = (c.getCacheItem net.lookup ga).1 ∧ ∃ s, r = .error s ∧ (s.1 = .connect ∨ s.1 = .request)) ∨
          (c.getCacheItem net.lookup ga).1.addCacheItem ga
              ⟨ga, net.value (ga.sendable srcID), net.created, net.lastused⟩ = some c' ∧
            (r = .ok (net.value (ga.sendable srcID)) ∨ ∃ s, r = .error s ∧ s.1 = .close)) := by
  rcases Remote.exec_bind_cases h with ⟨s, rfl, hs⟩ | ⟨found, c₀, h₀, h⟩
  · simp at hs
  · obtain ⟨rfl, rfl⟩ : _ = found ∧ _ = c₀ := by simpa using h₀
    cases hfound : (c.getCacheItem net.lookup ga).2 with
    | some it =>
      rw [hfound] at h
      obtain ⟨rfl, rfl⟩ : _ = r ∧ _ = c' := by simpa using h
      exact Or.inl ⟨it, rfl, rfl, rfl⟩
    | none =>
      rw [hfound] at h
      refine Or.inr ⟨rfl, ?_⟩
      rw [← bind_assoc] at h
      rcases Remote.exec_bind_cases h with ⟨s, rfl, hs⟩ | ⟨v, d, hd, h⟩
      · obtain ⟨rfl, hfail⟩ := fetch_cases hs
        exact Or.inl ⟨rfl, s, rfl, by simpa using hfail⟩
      · obtain ⟨rfl, hv⟩ := fetch_cases hd
        obtain rfl : v = net.value (ga.sendable srcID) := by simpa using hv
        rcases Remote.exec_bind_cases h with ⟨s, rfl, hs⟩ | ⟨a, e, he, h⟩
        · simp at hs
        · have hadd : (c.getCacheItem net.lookup ga).1.addCacheItem ga
              ⟨ga, net.value (ga.sendable srcID), net.created, net.lastused⟩ = some e := by simpa using he
          rcases Remote.exec_bind_cases h with ⟨s, rfl, hs⟩ | ⟨a, e', he', h⟩
          · obtain ⟨rfl, hstage⟩ := does_closeClientSocket net e _ c' hs
            exact Or.inr ⟨hadd, Or.inr ⟨s, rfl, hstage s rfl⟩⟩
          · obtain ⟨rfl, -⟩ := does_closeClientSocket net e _ e' he'
            cases h
            exact Or.inr ⟨hadd, Or.inl rfl⟩

end
end CacheCoherence
