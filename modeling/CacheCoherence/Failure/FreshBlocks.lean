import CacheCoherence.Application.Chains
import CacheCoherence.Failure.Recovery

/-! # Fresh blocks

`malloc` does not clear the block that it hands out, and the first access takes what it finds there for a record.
-/
namespace CacheCoherence.Failure
open Exits Chains

variable {V : Type}

/-- What may come first on an address of `Node::Malloc`: a call of the node itself, the request of another, or
`operator[]` with a key that the table does not have. -/
inductive FirstAccess (V : Type) where
  | read
  | write (value : V)
  | free
  | handleRead (srcID : NodeId)
  | handleWrite (value : V) (srcID : NodeId)
  | handleFree (srcID : NodeId)
  | index (key : UInt32)
deriving DecidableEq, Repr

namespace FirstAccess

def run [Zero V] (env : Env V) (size buffer : UInt64) (content : SaveData V) : FirstAccess V →
    Prog Exit (Table (Server V)) Unit
  | .read => onNode do
    let gaddr ← malloc env size (some (buffer, content))
    let _ ← Failure.read env gaddr
  | .write value => onNode do
    let gaddr ← malloc env size (some (buffer, content))
    let _ ← Failure.write env ⟨size, value, gaddr⟩
  | .free => onNode do
    let gaddr ← malloc env size (some (buffer, content))
    let _ ← Failure.free env gaddr
  | .handleRead srcID => onNode do
    let gaddr ← malloc env size (some (buffer, content))
    let _ ← Failure.handleRead env (gaddr.sendable srcID)
  | .handleWrite value srcID => onNode do
    let gaddr ← malloc env size (some (buffer, content))
    let _ ← Failure.handleWrite env (Data.sendable ⟨size, value, gaddr⟩ srcID)
  | .handleFree srcID => onNode do
    let gaddr ← malloc env size (some (buffer, content))
    let _ ← Failure.handleFree env (gaddr.sendable srcID)
  | .index key => do let _ ← Chains.index (nodeCalls env (some (buffer, content))) size key

def Allocates (t : Table (Server V)) : FirstAccess V → Prop
  | .index key => ∀ e ∈ t.storage (HashTable.hashBucket key), e.key ≠ key
  | _ => True

/-- What was in the block passes for an unshared record as far as the access looks at it: it is denied its lock,
the state is known, its guard lets no invalidation out, or its replies throw before the broadcast. -/
def Unshared (env : Env V) (content : SaveData V) (s : Server V) : FirstAccess V → Prop
  | .read | .index _ => (s.locks.setLock s.id .sharedlock).2 = true → content.readable = true
  | .write _ => (s.locks.setLock s.id .exclusive).2 = true → content.writeInvalidates = false
  | .free | .handleFree _ => content.freeInvalidates = false
  | .handleRead _ => content.readable = true
  | .handleWrite _ _ => content.handleInvalidates = true →
      env.net.Throws .serve [.registerSend, .postWorkRequest, .pollSend, .setToResetState]

end FirstAccess

/-- The call ends, has not asked another node to remove its item and has not gone through a null pointer, exactly
under this condition. -/
def BehavesIff {α : Type} (p : Prop) (m : Call V α) (s : Server V) : Prop :=
  ∃ r t, m.exec s = some (r, t) ∧ (t.called = s.called ∧ r ≠ .error .nullPointer ↔ p)

section
variable {α β : Type} {env : Env V} {s t : Server V} {m : Call V α} {f : α → Call V β} {p q : Prop} {ga : GlobalAddress}
  {d : SaveData V} {nodes : List NodeId} {i : ℕ} {n : NodeId}

theorem BehavesIff.congr (h : BehavesIff p m s) (hpq : p ↔ q) : BehavesIff q m s := by
  obtain ⟨r, t, hm, hp⟩ := h
  exact ⟨r, t, hm, hp.trans hpq⟩

theorem behaves_pure (a : α) : BehavesIff True (pure a : Call V α) s :=
  ⟨.ok a, s, rfl, iff_of_true ⟨rfl, nofun⟩ trivial⟩

theorem BehavesIff.step {a : α} (hm : m.exec s = some (.ok a, t)) (hcalled : t.called = s.called)
    (hf : BehavesIff p (f a) t) :
    BehavesIff p (m >>= f) s := by
  obtain ⟨r, u, hu, hp⟩ := hf
  exact ⟨r, u, by rw [exec_bind_ok hm, hu], hcalled ▸ hp⟩

theorem BehavesIff.bind (hm : BehavesIff p m s) (hf : ∀ a t, m.exec s = some (.ok a, t) → BehavesIff True (f a) t) :
    BehavesIff p (m >>= f) s := by
  obtain ⟨_ | a, t, ht, hp⟩ := hm
  · refine ⟨_, t, by rw [exec_bind, ht]; rfl, Iff.trans (and_congr_right fun _ => not_congr ?_) hp⟩
    simp
  · obtain ⟨r, u, hu, hrest⟩ := hf a t ht
    obtain ⟨hcalled, hnull⟩ := hrest.mpr trivial
    refine ⟨r, u, by rw [exec_bind_ok ht, hu], Iff.trans ?_ hp⟩
    rw [hcalled]
    exact and_congr_right fun _ => iff_of_true hnull nofun

theorem BehavesIff.returns (hm : BehavesIff p m s) (b : β) : BehavesIff p (m >>= fun _ => pure b) s :=
  hm.bind fun _ _ _ => behaves_pure b

theorem behaves_remote {m : Remote V α} (h : Ends m) : BehavesIff True (remote m) s := by
  obtain ⟨r, c, hr⟩ := h s.cache
  refine ⟨_, { s with cache := c }, by rw [remote, zoom, exec_act, hr]; rfl, iff_of_true ⟨rfl, ?_⟩ trivial⟩
  cases r <;> simp [Except.mapError]

theorem behaves_thrown {m : Remote V α} (h : Ends m) (hfails : FailsIff p m) (hp : p) :
    BehavesIff True (remote m >>= f) s := by
  refine (behaves_remote h).bind fun a t ht => ?_
  obtain ⟨e, he⟩ := (failsIff_remote hfails _ _ _ ht).mpr hp
  cases he

theorem exec_remote_quiet {m : Remote V α} (h : Ends m) (hfails : FailsIff p m) (hp : ¬ p) :
    ∃ a c, (remote m).exec s = some (.ok a, { s with cache := c }) := by
  have hends : Ends (remote m) := h.zoom
  obtain ⟨r, t, ht⟩ := hends s
  obtain ⟨c, rfl⟩ := remote_same ht
  cases r with
  | ok a => exact ⟨a, c, ht⟩
  | error e => exact absurd ((failsIff_remote hfails _ _ _ ht).mp ⟨e, rfl⟩) hp

theorem ends_remote {m : Remote V α} (h : Ends m) : Ends (remote m) := h.zoom

theorem ends_connectClientSocket (net : Network V) (stage : Stage) : Ends (connectClientSocket net stage) :=
  ends_attempts net stage connectOps

theorem ends_closeClientSocket (net : Network V) : Ends (closeClientSocket net) :=
  (ends_attempts net .close (postOps ++ pollOps)).bind fun _ => ends_attempt net .close .setToResetState

theorem ends_removeCopy (n : NodeId) (ga : GlobalAddress) : Ends (removeCopy n ga : Call V Unit) := fun _ => ⟨_, _, rfl⟩

theorem ends_invalidate (env : Env V) (i : ℕ) (n : NodeId) (ga : GlobalAddress) : Ends (invalidate env i n ga) := by
  have hpoll := (ends_remote (ends_attempts (env.peer i) .request pollOps)).bind fun _ => ends_removeCopy n ga
  have hsend : Ends (sendInvalidate env i n ga) := by
    refine (ends_remote (ends_attempts (env.peer i) .request postOps)).bind fun _ => ?_
    cases env.removes i with
    | false => exact hpoll
    | true => exact (ends_removeCopy n ga).bind fun _ => hpoll
  refine Ends.bind (fun _ => ⟨_, _, rfl⟩) fun _ =>
    (ends_remote (ends_connectClientSocket (env.peer i) .connect)).bind fun _ =>
    hsend.bind fun _ => ends_remote (ends_closeClientSocket (env.peer i))

theorem ends_broadcastInvalidations (env : Env V) (i : ℕ) (nodes : List NodeId) (ga : GlobalAddress) :
    Ends (broadcastInvalidations env i nodes ga) := by
  induction nodes generalizing i with
  | nil => exact ends_pure ()
  | cons n nodes ih => exact (ends_invalidate env i n ga).bind fun _ => ih (i + 1)

theorem called_invalidate {r : Except Exit Unit} (h : (invalidate env i n ga).exec s = some (r, t)) :
    t.called = s.called ++ [n] := by
  have htrans : ∀ s t u : Server V, t.called = s.called → u.called = t.called → u.called = s.called :=
    fun _ _ _ h h' => h'.trans h
  have hremote : ∀ {γ : Type} (m : Remote V γ), Leaves (fun s t : Server V => t.called = s.called) (remote m) :=
    fun m => leaves_zoom fun _ _ => rfl
  have hremove : Leaves (fun s t : Server V => t.called = s.called) (removeCopy n ga) := fun s r t h => by cases h; rfl
  have hpoll := (hremote (pollOps.forM (attempt (env.peer i) .request))).bind htrans fun _ => hremove
  have hsend : Leaves (fun s t : Server V => t.called = s.called) (sendInvalidate env i n ga) := by
    refine (hremote _).bind htrans fun _ => ?_
    cases env.removes i with
    | false => exact hpoll
    | true => exact hremove.bind htrans fun _ => hpoll
  rw [exec_invalidate] at h
  exact ((hremote _).bind htrans fun _ => hsend.bind htrans fun _ => hremote _) _ r t h

theorem called_broadcastInvalidations {r : Except Exit Unit}
    (h : (broadcastInvalidations env i nodes ga).exec s = some (r, t)) :
    s.called.length + (if nodes = [] then 0 else 1) ≤ t.called.length := by
  induction nodes generalizing i s with
  | nil =>
    cases h
    simp
  | cons n nodes ih =>
    rcases exec_bind_cases h with ⟨e, rfl, he⟩ | ⟨_, u, hu, h⟩
    · simp [called_invalidate he]
    · have hu := called_invalidate hu
      have hrest := ih h
      simp [hu] at hrest ⊢
      omega

theorem broadcast_behaves : BehavesIff (nodes = []) (broadcastInvalidations env i nodes ga) s := by
  obtain ⟨r, t, ht⟩ := ends_broadcastInvalidations env i nodes ga s
  by_cases hne : nodes = []
  · subst hne
    exact (behaves_pure ()).congr (by simp)
  · have hcalled := called_broadcastInvalidations ht
    rw [if_neg hne] at hcalled
    exact ⟨r, t, ht, iff_of_false (fun h => by rw [h.1] at hcalled; omega) hne⟩

theorem read_behaves [Zero V] (ga : GlobalAddress) (hid : ga.id = s.id) (hd : s.mem ga.ptr = some d) :
    BehavesIff ((s.locks.setLock ga.id .sharedlock).2 = true → d.readable = true) (Failure.read env ga) s := by
  have hset := exec_setLock_eq ga.id .sharedlock s
  unfold Failure.read
  cases hgrant : (s.locks.setLock ga.id .sharedlock).2 with
  | false =>
    rw [hgrant] at hset
    exact BehavesIff.step hset rfl ((behaves_pure 0).congr (by simp))
  | true =>
    rw [hgrant] at hset
    obtain ⟨hid', hmem, -, -, hcalled⟩ := acquired_same s env ⟨ga.id, .sharedlock⟩
    have hd' : (s.acquired env ⟨ga.id, .sharedlock⟩).mem ga.ptr = some d := hmem ▸ hd
    refine BehavesIff.step hset rfl
      (BehavesIff.step (exec_others env s _) hcalled (BehavesIff.step (exec_self _) rfl ?_))
    refine BehavesIff.step (exec_performRead_local (hid.trans hid'.symm) hd') rfl ?_
    refine BehavesIff.step (exec_setLock_eq ga.id .unlocked _) rfl ?_
    cases hread : d.readable with
    | false => exact ⟨_, _, rfl, by simp⟩
    | true => exact BehavesIff.step (exec_load (by exact hd')) rfl ((behaves_pure _).congr (by simp))

theorem writeLocked_behaves {data : Data V} (hid : data.ga.id = s.id) (hd : s.mem data.ga.ptr = some d) :
    BehavesIff (d.writeInvalidates = false) (writeLocked env data) s := by
  have hstore : ∀ t : Server V, t.mem = s.mem → BehavesIff True (do
      store data.ga.ptr (.written data.data (← self))
      pure data.ga) t := fun t ht =>
    BehavesIff.step (exec_self t) rfl (BehavesIff.step (exec_store (by simp [ht, hd]) _) rfl (behaves_pure _))
  unfold writeLocked
  refine BehavesIff.step (exec_isLocal hid) rfl (BehavesIff.step (exec_load hd) rfl ?_)
  cases hw : d.writeInvalidates with
  | false => exact (hstore s rfl).congr (by simp)
  | true =>
    have hne : d.sharerNodes ≠ [] := by
      rintro hnil
      simp [SaveData.writeInvalidates, hnil] at hw
    exact (broadcast_behaves.bind fun _ t ht => hstore t (broadcast_home ht).2).congr (by simp [hne])

theorem write_behaves (data : Data V) (hid : data.ga.id = s.id) (hd : s.mem data.ga.ptr = some d) :
    BehavesIff ((s.locks.setLock data.ga.id .exclusive).2 = true → d.writeInvalidates = false)
      (Failure.write env data) s := by
  have hset := exec_setLock_eq data.ga.id .exclusive s
  unfold Failure.write
  cases hgrant : (s.locks.setLock data.ga.id .exclusive).2 with
  | false =>
    rw [hgrant] at hset
    exact BehavesIff.step hset rfl ((behaves_pure _).congr (by simp))
  | true =>
    rw [hgrant] at hset
    obtain ⟨hid', hmem, -, -, hcalled⟩ := acquired_same s env ⟨data.ga.id, .exclusive⟩
    refine BehavesIff.step hset rfl (BehavesIff.step (exec_others env s _) hcalled ?_)
    refine ((writeLocked_behaves (hid.trans hid'.symm) (hmem ▸ hd)).bind fun _ t _ => ?_).congr (by simp)
    exact BehavesIff.step rfl rfl (behaves_pure _)

theorem behaves_postReply : BehavesIff True (postReply env) s := behaves_remote (ends_attempts env.net .serve _)

theorem free_behaves (ga : GlobalAddress) (hid : ga.id = s.id) (hd : s.mem ga.ptr = some d) :
    BehavesIff (d.freeInvalidates = false) (Failure.free env ga) s := by
  have hrelease : ∀ t : Server V, BehavesIff True (do
      act fun s => some (.ok (), s.put ga.ptr none)
      pure ga.freed) t := fun t => BehavesIff.step (t := t.put ga.ptr none) rfl rfl (behaves_pure _)
  unfold Failure.free
  refine BehavesIff.step (exec_isLocal hid) rfl (BehavesIff.step (exec_load hd) rfl ?_)
  cases hf : d.freeInvalidates with
  | false => exact (hrelease s).congr (by simp)
  | true =>
    have hne : d.sharerNodes ≠ [] := by
      rintro hnil
      simp [SaveData.freeInvalidates, hnil] at hf
    exact (broadcast_behaves.bind fun _ t _ => hrelease t).congr (by simp [hne])

theorem handleFree_behaves (hid : ga.id = s.id) (hd : s.mem ga.ptr = some d) :
    BehavesIff (d.freeInvalidates = false) (handleFree env (ga.sendable n)) s :=
  (free_behaves (.ofSendable (ga.sendable n)) hid hd).bind fun x _ _ => behaves_postReply.returns x

theorem handleRead_behaves (hid : ga.id = s.id) (hd : s.mem ga.ptr = some d) :
    BehavesIff (d.readable = true) (handleRead env (ga.sendable n)) s := by
  unfold handleRead
  refine BehavesIff.step (exec_performRead_local hid hd) rfl ?_
  cases hread : d.readable with
  | false => exact ⟨_, _, rfl, by simp⟩
  | true =>
    refine BehavesIff.step (exec_load hd) rfl (BehavesIff.step (exec_store (by simp [hd]) _) rfl ?_)
    exact (behaves_postReply.returns _).congr (by simp)

theorem startInvalidations_behaves {data : Data V} (hid : data.ga.id = s.id) (hd : s.mem data.ga.ptr = some d)
    (hne : nodes ≠ []) :
    BehavesIff (env.net.Throws .serve [.registerSend, .postWorkRequest, .pollSend, .setToResetState])
      (startInvalidations env data nodes n) s := by
  have hends := ends_attempts env.net .serve [.registerSend, .postWorkRequest, .pollSend]
  have hfails := failsIff_attempts env.net .serve [.registerSend, .postWorkRequest, .pollSend]
  have hreset := failsIff_attempt env.net .serve .setToResetState
  have hsplit : env.net.Throws .serve [.registerSend, .postWorkRequest, .pollSend, .setToResetState] ↔
      env.net.Throws .serve [.registerSend, .postWorkRequest, .pollSend] ∨
        env.net.throws .serve .setToResetState = true := by
    simp [Network.Throws, or_assoc]
  rw [hsplit]
  unfold startInvalidations
  by_cases hreply : env.net.Throws .serve [.registerSend, .postWorkRequest, .pollSend]
  · exact (behaves_thrown hends hfails hreply).congr (by simp [hreply])
  obtain ⟨_, c, hfirst⟩ := exec_remote_quiet (s := s) hends hfails hreply
  refine BehavesIff.step hfirst rfl (BehavesIff.step (exec_performWrite_local hid (by simp [hd])) rfl ?_)
  obtain ⟨_, c', hsecond⟩ :=
    exec_remote_quiet (s := Server.put { s with cache := c } data.ga.ptr (some (SaveData.owned data.data n)))
    hends hfails hreply
  refine BehavesIff.step hsecond rfl ?_
  by_cases hthrows : env.net.throws .serve .setToResetState = true
  · exact (behaves_thrown (ends_attempt _ _ _) hreset hthrows).congr (by simp [hthrows])
  obtain ⟨_, c'', hthird⟩ :=
    exec_remote_quiet (s := { Server.put { s with cache := c } data.ga.ptr (some (SaveData.owned data.data n)) with
    cache := c' }) (ends_attempt _ _ _) hreset hthrows
  exact BehavesIff.step hthird rfl (broadcast_behaves.congr (by simp [hne, hreply, hthrows]))

theorem handleWrite_behaves (data : Data V) (hid : data.ga.id = s.id) (hd : s.mem data.ga.ptr = some d) :
    BehavesIff (d.handleInvalidates = true →
      env.net.Throws .serve [.registerSend, .postWorkRequest, .pollSend, .setToResetState])
      (handleWrite env (data.sendable n)) s := by
  have hplain : BehavesIff True (do
      let _ ← performWrite env data n
      postReply env
      pure true) s :=
    BehavesIff.step (exec_performWrite_local hid (by simp [hd])) rfl (behaves_postReply.returns true)
  unfold handleWrite
  refine BehavesIff.step (exec_performRead_local hid hd) rfl ?_
  cases hread : d.readable with
  | false =>
    have hcode : ¬ d.iscached.code < 3 := fun hlt => by
      simp [SaveData.readable] at hread
      omega
    exact hplain.congr (by simp [SaveData.handleInvalidates, hcode])
  | true =>
    refine BehavesIff.step (exec_load hd) rfl ?_
    cases hinv : d.handleInvalidates with
    | false => exact hplain.congr (by simp)
    | true =>
      have hne : d.sharerNodes ≠ [] := by
        rintro hnil
        simp [SaveData.handleInvalidates, hnil] at hinv
      exact ((startInvalidations_behaves hid hd hne).returns false).congr (by simp)

theorem malloc_behaves {size buffer : UInt64} {content : SaveData V} {f : GlobalAddress → Call V α}
    (hf : BehavesIff p (f ⟨size, buffer, s.id⟩) (s.put buffer content)) :
    BehavesIff p (malloc env size (some (buffer, content)) >>= f) s := by
  have hmalloc :
    (malloc env size (some (buffer, content))).exec s = some (.ok ⟨size, buffer, s.id⟩, s.put buffer content) := rfl
  exact BehavesIff.step hmalloc rfl hf

end

section
variable [Zero V] {t : Table (Server V)}

theorem index_exec {env : Env V} {size buffer : UInt64} {content : SaveData V} {key : UInt32}
    (habsent : ∀ e ∈ t.storage (HashTable.hashBucket key), e.key ≠ key) {p : Prop}
    (h : BehavesIff p (Failure.read env ⟨size, buffer, t.node.id⟩) (t.node.put buffer content)) :
    ∃ r u, ((FirstAccess.index key).run env size buffer content).exec t = some (r, u) ∧
      (u.node.called = t.node.called ∧ r ≠ .error .nullPointer ↔ p) := by
  obtain ⟨r, s, hs, hp⟩ := h
  have hfind : (t.storage (HashTable.hashBucket key)).find? (fun e => e.key = key) = none := by simpa using habsent
  have hmalloc : ((nodeCalls env (some (buffer, content))).malloc size).exec t.node =
      some (.ok ⟨size, buffer, t.node.id⟩, t.node.put buffer content) := rfl
  have hindex : ∃ u, (Chains.index (nodeCalls env (some (buffer, content))) size key).exec t = some (r, u) ∧
    u.node = s := by
    unfold Chains.index
    rw [exec_bind_ok (exec_chain _ _), hfind]
    simp only
    rw [exec_bind_ok (exec_malloc hmalloc), exec_bind_ok (exec_link _ _ _)]
    exact ⟨_, exec_read hs, rfl⟩
  obtain ⟨u, hu, rfl⟩ := hindex
  refine ⟨_, u, exec_discard hu (), Iff.trans (and_congr_right fun _ => not_congr ?_) hp⟩
  cases r <;> simp [Except.map]

/-- The first access to a block of `malloc` sends no invalidation and goes through no null pointer exactly if the
content passes for an unshared record. -/
theorem fresh_unshared_iff (env : Env V) (size buffer : UInt64) (content : SaveData V) (a : FirstAccess V)
    (t : Table (Server V))
    (h : a.Allocates t) : ∃ r u, (a.run env size buffer content).exec t = some (r, u) ∧
      (u.node.called = t.node.called ∧ r ≠ .error .nullPointer ↔ a.Unshared env content t.node) := by
  have hnode : ∀ {p : Prop} {m : Call V Unit}, BehavesIff p m t.node →
      ∃ r u, (onNode m).exec t = some (r, u) ∧ (u.node.called = t.node.called ∧ r ≠ .error .nullPointer ↔ p) := by
    rintro p m ⟨r, s, hs, hp⟩
    exact ⟨r, { t with node := s }, exec_onNode hs, hp⟩
  have hfound : (t.node.put buffer content).mem buffer = some content := by simp
  cases a with
  | read => exact hnode (malloc_behaves ((read_behaves _ rfl hfound).returns ()))
  | write value => exact hnode (malloc_behaves ((write_behaves ⟨size, value, _⟩ rfl hfound).returns ()))
  | free => exact hnode (malloc_behaves ((free_behaves _ rfl hfound).returns ()))
  | handleRead srcID => exact hnode (malloc_behaves ((handleRead_behaves rfl hfound).returns ()))
  | handleWrite value srcID =>
    exact hnode (malloc_behaves ((handleWrite_behaves ⟨size, value, _⟩ rfl hfound).returns ()))
  | handleFree srcID => exact hnode (malloc_behaves ((handleFree_behaves rfl hfound).returns ()))
  | index key => exact index_exec h (read_behaves ⟨size, buffer, t.node.id⟩ rfl hfound)

end

def bare : Table (Server ℕ) := Chains.new ⟨3000, fun _ => none, .new, LockTable.empty, [], fun _ _ => false, []⟩

def withSixteen : Table (Server ℕ) :=
  { bare with
    node := bare.node.put 8192 (some ⟨1, .unshared, 3000, []⟩)
    amountElements := 1
    storage := fun b => if b = HashTable.hashBucket 16 then [⟨16, ⟨8, 8192, 3000⟩⟩] else [] }

/-- `operator[]` of 7 finds what a freed block has left: a shared record, with its owner and two sharers. -/
theorem fresh_unshared_leftover :
    ∃ r u, ((FirstAccess.index 7).run (calm (brokenAt .serve .bindSocket)) 8 4096
      ⟨9, .shared, 1500, [1500, 1600]⟩).exec withSixteen = some (r, u) ∧ u.node.called = [] ∧
      r ≠ .error .nullPointer := by
  have habsent : ∀ e ∈ withSixteen.storage (HashTable.hashBucket 7), e.key ≠ 7 := by decide +kernel
  obtain ⟨r, u, hexec, hiff⟩ := fresh_unshared_iff (calm (brokenAt .serve .bindSocket)) 8 4096
    ⟨9, .shared, 1500, [1500, 1600]⟩ (.index 7) withSixteen habsent
  obtain ⟨hcalled, hnull⟩ := hiff.mpr fun _ => rfl
  exact ⟨r, u, hexec, hcalled, hnull⟩

/-- What the block held before is no state of a record: the read goes through the null pointer. -/
theorem fresh_unknown :
    ¬ ∀ (env : Env ℕ) (size buffer : UInt64) (content : SaveData ℕ) (a : FirstAccess ℕ) (t u : Table (Server ℕ))
    (r : Except Exit Unit), a.Allocates t → (a.run env size buffer content).exec t = some (r, u) →
      u.node.called = t.node.called ∧ r ≠ .error .nullPointer := by
  intro h
  have hread :
      (((FirstAccess.read : FirstAccess ℕ).run (calm (brokenAt .serve .bindSocket)) 8 4096 ⟨1, .other 4, 0, []⟩).exec
        bare).map Prod.fst =
      some (.error .nullPointer) := rfl
  obtain ⟨⟨r, u⟩, hexec, rfl⟩ := Option.map_eq_some_iff.mp hread
  exact (h _ 8 4096 _ .read bare u _ trivial hexec).2 rfl

end CacheCoherence.Failure
