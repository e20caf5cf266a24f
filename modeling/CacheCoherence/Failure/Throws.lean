import CacheCoherence.Failure.Access

/-! # When calls throw, and what they leave alone

Which operations a program tries is known before it runs, but for a lookup in the cache, so a program throws exactly
if one of its operations does.
-/
namespace CacheCoherence
open Exits

variable {V : Type}

def Network.Throws (net : Network V) (stage : Stage) (ops : List NetworkOp) : Prop :=
  ∃ op ∈ ops, net.throws stage op = true

instance (net : Network V) (stage : Stage) (ops : List NetworkOp) : Decidable (net.Throws stage ops) :=
  inferInstanceAs (Decidable (∃ op ∈ ops, net.throws stage op = true))

/-- `connectClientSocket`; the first and the second half of an exchange; a session that a node serves. -/
def connectOps : List NetworkOp :=
  [.createQueuePair, .createSocket, .connectSocket, .writeSocket, .readSocket, .connectQueuePair]
def postOps : List NetworkOp := [.registerSend, .registerRecv, .writeSocket, .readSocket, .postWorkRequest]
def pollOps : List NetworkOp := [.pollSend, .postRecv, .pollRecv]
def serveOps : List NetworkOp :=
  [.createSocket, .createQueuePair, .bindSocket, .listenSocket, .acceptSocket, .writeSocket, .readSocket,
    .connectQueuePair,
    .registerRecv, .postRecv, .pollRecv, .registerSend, .postWorkRequest, .pollSend, .setToResetState]

def Network.SessionThrows (net : Network V) : Prop :=
  net.Throws .connect connectOps ∨ net.Throws .request postOps ∨ net.Throws .request pollOps ∨
    net.Throws .close (postOps ++ pollOps ++ [.setToResetState])

instance (net : Network V) : Decidable net.SessionThrows :=
  inferInstanceAs (Decidable (net.Throws .connect connectOps ∨ net.Throws .request postOps ∨
    net.Throws .request pollOps ∨
    net.Throws .close (postOps ++ pollOps ++ [.setToResetState])))

def Network.CallBackThrows (net : Network V) : Prop :=
  net.Throws .secondReply [.postRecv, .pollRecv] ∨ net.Throws .serve serveOps ∨ net.Throws .reconnect connectOps

variable {net : Network V} {stage : Stage} {op : NetworkOp} {ops ops' : List NetworkOp} {c c' : Cache V}

theorem throws_append : net.Throws stage (ops ++ ops') ↔ net.Throws stage ops ∨ net.Throws stage ops' := by
  simp only [Network.Throws, List.mem_append, or_and_right, exists_or]

theorem Network.Throws.mono (h : net.Throws stage ops) (hsub : ops ⊆ ops') : net.Throws stage ops' := by
  obtain ⟨op, hop, hthrows⟩ := h
  exact ⟨op, hsub hop, hthrows⟩

theorem failsIff_attempt (net : Network V) (stage : Stage) (op : NetworkOp) :
    FailsIff (net.throws stage op = true) (attempt net stage op) := by
  intro s r t h
  have h' : some ((if net.throws stage op then .error (stage, op) else .ok () : Except (Stage × NetworkOp) Unit),
    s) = some (r, t) :=
    exec_attempt.symm.trans h
  obtain ⟨rfl, rfl⟩ := Prod.mk.inj (Option.some.inj h')
  cases net.throws stage op <;> simp

theorem failsIff_attempts (net : Network V) (stage : Stage) (ops : List NetworkOp) :
    FailsIff (net.Throws stage ops) (ops.forM (attempt net stage)) :=
  FailsIff.forM (failsIff_attempt net stage) ops

theorem ends_attempt (net : Network V) (stage : Stage) (op : NetworkOp) : Ends (attempt net stage op) :=
  fun _ => ⟨_, _, exec_attempt⟩

theorem ends_attempts (net : Network V) (stage : Stage) (ops : List NetworkOp) : Ends (ops.forM (attempt net stage)) :=
  Ends.forM (ends_attempt net stage) ops

theorem failsIff_onCache (f : Cache V → Option (Cache V)) : FailsIff False (onCache f) := by
  intro s r t h
  obtain ⟨d, -, hd⟩ := Option.map_eq_some_iff.mp (exec_onCache.symm.trans h)
  obtain ⟨rfl, -⟩ := Prod.mk.inj hd
  simp

theorem failsIff_exchange (net : Network V) (stage : Stage) :
    FailsIff (net.Throws stage postOps ∨ net.Throws stage pollOps) (exchange net stage) :=
  (failsIff_attempts net stage (postOps ++ pollOps)).congr throws_append

theorem failsIff_closeClientSocket (net : Network V) :
    FailsIff (net.Throws .close (postOps ++ pollOps ++ [.setToResetState])) (closeClientSocket net) := by
  refine ((failsIff_exchange net .close).bind fun _ => failsIff_attempt net .close .setToResetState).congr ?_
  rw [throws_append, throws_append]
  simp [Network.Throws]

theorem failsIff_connectAndReceive (net : Network V) :
    FailsIff (net.Throws .serve serveOps) (connectAndReceive net) := by
  have htake := failsIff_attempts net .serve [.registerRecv, .writeSocket, .readSocket, .postRecv, .pollRecv]
  have hserve :=
    FailsIff.forM (fun ga => htake.bind fun _ => (failsIff_onCache fun c => some (c.removeCacheItem ga).1).bind
    fun _ => failsIff_attempts net .serve [.registerSend, .postWorkRequest, .pollSend]) net.invalidated
  have hend := failsIff_attempts net .serve [.registerSend, .postWorkRequest, .pollSend, .setToResetState]
  refine ((failsIff_attempts net .serve _).bind fun _ => hserve.bind fun _ => htake.bind fun _ => hend).congr ?_
  constructor
  · rintro (h | ⟨ga, -, h | ⟨⟨⟩⟩ | h⟩ | h | h)
    all_goals exact h.mono (by decide)
  · -- every operation of the session is tried, whatever is invalidated in it
    intro h
    refine (throws_append.mp (h.mono ?_)).imp_right fun h => Or.inr (throws_append.mp h)
    simp [serveOps]

theorem failsIff_sendData (net : Network V) (data : SendingData V) :
    FailsIff ((net.Throws .request postOps ∨ net.Throws .request pollOps) ∨ net.invalidates = true ∧ net.CallBackThrows)
      (sendData net data) := by
  refine (failsIff_exchange net .request).bind fun _ => ?_
  cases hinv : net.invalidates with
  | false => exact ((failsIff_pure ()).bind fun _ => failsIff_pure _).congr (by simp)
  | true =>
    have hback : FailsIff net.CallBackThrows (prepareForInvalidate net) := by
      refine ((failsIff_attempts net .secondReply _).bind fun _ =>
        (failsIff_attempt net .serve .setToResetState).bind fun _ =>
        (failsIff_connectAndReceive net).bind fun _ => failsIff_attempts net .reconnect connectOps).congr ?_
      have hreset : net.throws .serve .setToResetState = true → net.Throws .serve serveOps := fun h => ⟨_, by decide, h⟩
      simp only [Network.CallBackThrows]
      tauto
    exact (hback.bind fun _ => failsIff_pure _).congr (by simp)

theorem failsIff_performWrite (net : Network V) (data : Data V) (srcID : NodeId) :
    FailsIff (net.SessionThrows ∨ net.invalidates = true ∧ net.CallBackThrows) (performWrite net data srcID) := by
  refine ((failsIff_attempts net .connect connectOps).bind fun _ => (failsIff_onCache _).bind fun _ =>
    (failsIff_sendData net _).bind fun _ => (failsIff_closeClientSocket net).bind fun _ => failsIff_pure _).congr ?_
  simp only [Network.SessionThrows]
  tauto

/-- A remote read throws if it misses the cache and its session throws. -/
theorem performRead_fails {ga : GlobalAddress} {srcID : NodeId} {r : Except (Stage × NetworkOp) V}
    (h : Prog.exec (performRead net ga srcID) c = some (r, c')) :
    (∃ e, r = .error e) ↔ (c.getCacheItem net.lookup ga).2 = none ∧ net.SessionThrows := by
  have hget : Prog.exec (getCacheItem net ga) c = some (.ok (c.getCacheItem net.lookup ga).2,
    (c.getCacheItem net.lookup ga).1) := rfl
  unfold performRead at h
  rw [exec_bind_ok hget] at h
  cases hfound : (c.getCacheItem net.lookup ga).2 with
  | some it =>
    rw [hfound] at h
    cases h
    simp
  | none =>
    rw [hfound] at h
    have hfails :=
      ((failsIff_attempts net .connect connectOps).bind fun _ => ((failsIff_exchange net .request).bind fun _ =>
      failsIff_pure (net.value (ga.sendable srcID))).bind fun data =>
      (failsIff_onCache fun c => c.addCacheItem ga ⟨ga, data, net.created, net.lastused⟩).bind fun _ =>
        (failsIff_closeClientSocket net).bind fun _ => failsIff_pure data) _ _ _ h
    rw [hfails]
    simp only [Network.SessionThrows]
    tauto

namespace Failure

structure Aside {β : Type} (proj : Server V → β) : Prop where
  cache : ∀ s c, proj { s with cache := c } = proj s
  copies : ∀ s f, proj { s with copies := f } = proj s
  called : ∀ s l, proj { s with called := l } = proj s

def Keeps {α β : Type} (proj : Server V → β) (m : Call V α) : Prop := Leaves (fun s t => proj t = proj s) m

variable {α β γ : Type} {proj : Server V → β} {m : Call V α} {f : α → Call V γ} {p : Prop} {env : Env V}

theorem keeps_pure (a : α) : Keeps proj (pure a : Call V α) :=
  leaves_pure (R := fun s t => proj t = proj s) (fun _ => rfl) a

theorem Keeps.bind (hm : Keeps proj m) (hf : ∀ a, Keeps proj (f a)) : Keeps proj (m >>= f) :=
  Leaves.bind (fun _ _ _ h h' => h'.trans h) hm hf

theorem keeps_act {h : Server V → Option (Except Exit α × Server V)}
    (hproj : ∀ s r t, h s = some (r, t) → proj t = proj s) :
    Keeps proj (act h) := hproj

theorem keeps_remote (hp : Aside proj) (m : Remote V α) : Keeps proj (remote m) := leaves_zoom hp.cache

theorem keeps_removeCopy (hp : Aside proj) (n : NodeId) (ga : GlobalAddress) : Keeps proj (removeCopy n ga) :=
  keeps_act fun s _ _ h => by cases h; exact hp.copies s _

theorem keeps_invalidate (hp : Aside proj) (env : Env V) (i : ℕ) (n : NodeId) (ga : GlobalAddress) :
    Keeps proj (invalidate env i n ga) := by
  have hsend : Keeps proj (sendInvalidate env i n ga) := by
    have hpoll : Keeps proj (do
        remote (pollOps.forM (attempt (env.peer i) .request))
        removeCopy n ga) := (keeps_remote hp _).bind fun _ => keeps_removeCopy hp n ga
    refine (keeps_remote hp _).bind fun _ => ?_
    cases env.removes i with
    | false => exact hpoll
    | true => exact (keeps_removeCopy hp n ga).bind fun _ => hpoll
  refine Keeps.bind ?_ fun _ => (keeps_remote hp _).bind fun _ => hsend.bind fun _ => keeps_remote hp _
  exact keeps_act fun s _ _ h => by cases h; exact hp.called s _

theorem keeps_broadcastInvalidations (hp : Aside proj) (env : Env V) (i : ℕ) (nodes : List NodeId)
    (ga : GlobalAddress) :
    Keeps proj (broadcastInvalidations env i nodes ga) := by
  induction nodes generalizing i with
  | nil => exact keeps_pure ()
  | cons n nodes ih => exact (keeps_invalidate hp env i n ga).bind fun _ => ih (i + 1)

theorem remote_same {m : Remote V α} {s t : Server V} {r : Except Exit α} (h : (remote m).exec s = some (r, t)) :
    ∃ c, t = { s with cache := c } := by
  obtain ⟨-, c, -, -, rfl⟩ := exec_zoom_eq h
  exact ⟨c, rfl⟩

theorem failsIff_remote {m : Remote V α} (h : FailsIff p m) : FailsIff p (remote m) := h.zoom

theorem failsIff_removeCopy (n : NodeId) (ga : GlobalAddress) : FailsIff False (removeCopy n ga : Call V Unit) :=
  failsIff_act fun _ _ _ h => ⟨(), by cases h; rfl⟩

theorem failsIff_invalidate (env : Env V) (i : ℕ) (n : NodeId) (ga : GlobalAddress) :
    FailsIff (env.peer i).SessionThrows (invalidate env i n ga) := by
  have hpoll :=
    (failsIff_remote (failsIff_attempts (env.peer i) .request pollOps)).bind fun _ => failsIff_removeCopy n ga
  have hsend : FailsIff ((env.peer i).Throws .request postOps ∨ (env.peer i).Throws .request pollOps)
    (sendInvalidate env i n ga) := by
    refine ((failsIff_remote (failsIff_attempts (env.peer i) .request postOps)).bind fun _ => ?_)
    cases env.removes i with
    | false => exact hpoll.congr (by simp)
    | true => exact ((failsIff_removeCopy n ga).bind fun _ => hpoll).congr (by simp)
  have hcall : FailsIff False (act fun s : Server V => some (.ok (), { s with called := s.called ++ [n] }) :
    Call V Unit) :=
    failsIff_act fun _ _ _ h => ⟨(), by cases h; rfl⟩
  refine (hcall.bind fun _ => (failsIff_remote (failsIff_attempts (env.peer i) .connect connectOps)).bind fun _ =>
    hsend.bind fun _ => failsIff_remote (failsIff_closeClientSocket (env.peer i))).congr ?_
  simp only [Network.SessionThrows]
  tauto

theorem failsIff_broadcastInvalidations (env : Env V) (i : ℕ) (nodes : List NodeId) (ga : GlobalAddress) :
    FailsIff (∃ k < nodes.length, (env.peer (i + k)).SessionThrows) (broadcastInvalidations env i nodes ga) := by
  induction nodes generalizing i with
  | nil => exact (failsIff_pure ()).congr (by simp)
  | cons n nodes ih =>
    refine ((failsIff_invalidate env i n ga).bind fun _ => ih (i + 1)).congr ?_
    constructor
    · rintro (h | ⟨k, hk, h⟩)
      · exact ⟨0, by simp, h⟩
      · exact ⟨k + 1, by simpa using hk, by rwa [Nat.add_comm k, ← Nat.add_assoc]⟩
    · rintro ⟨k, hk, h⟩
      cases k with
      | zero => exact Or.inl h
      | succ k => exact Or.inr ⟨k, by simpa using hk, by rwa [Nat.add_assoc, Nat.add_comm 1]⟩

end Failure
end CacheCoherence
