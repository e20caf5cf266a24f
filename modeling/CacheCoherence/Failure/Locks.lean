import CacheCoherence.Caching.FailedWrites
import CacheCoherence.Failure.Throws
import CacheCoherence.Locking.Exclusion

/-! # Locks that are left behind

`Node::read` and `Node::write` release their lock in their last statement, so an exception of the access leaves it in
the table until somebody else releases it.
-/
namespace CacheCoherence.Failure
open Exits

variable {V : Type}

structure Server.Recorded (s : Server V) : Prop where
  oneTable : OneTable s.decided
  locks : s.locks = LockTable.empty.replay (s.decided.map Decision.lock)

/-- Another client has been granted the lock and has not released it. -/
def Server.OthersHold (s : Server V) (i : UInt16) : Prop :=
  ∃ n, n ≠ s.id ∧ (Protocol.Inside .sharedlock i n s.decided ∨ Protocol.Inside .exclusive i n s.decided)

def SameLocks (s t : Server V) : Prop := t.id = s.id ∧ t.locks = s.locks ∧ t.decided = s.decided

inductive LockedCall (V : Type) where
  | read (ga : GlobalAddress)
  | write (data : Data V)

namespace LockedCall

def lock : LockedCall V → Lock
  | .read ga => ⟨ga.id, .sharedlock⟩
  | .write data => ⟨data.ga.id, .exclusive⟩

def run [Zero V] (env : Env V) : LockedCall V → Call V Unit
  | .read ga => do let _ ← Failure.read env ga
  | .write data => do let _ ← Failure.write env data

/-- An operation that the access tries throws: in the session of a remote access, or in the broadcast of a local
write to a record with sharers. -/
def Throws (env : Env V) (s : Server V) : LockedCall V → Prop
  | .read ga => ga.id ≠ s.id ∧ (s.cache.getCacheItem env.net.lookup ga).2 = none ∧ env.net.SessionThrows
  | .write data =>
    if data.ga.id = s.id then ∃ d, s.mem data.ga.ptr = some d ∧ d.writeInvalidates = true ∧
      ∃ k < d.sharerNodes.length, (env.peer k).SessionThrows
    else env.net.SessionThrows ∨ env.net.invalidates = true ∧ env.net.CallBackThrows

end LockedCall

def Server.acquired (s : Server V) (env : Env V) (l : Lock) : Server V :=
  (env.held.filter fun r => r.1 ≠ s.id).foldl (fun s r => s.request r.1 r.2) (s.request s.id l)

section
variable {α β : Type} {env : Env V} {s t u : Server V} {n : NodeId} {l : Lock} {i : UInt16} {st : LockState}
  {rs : List (NodeId × Lock)}

theorem acquired_same (s : Server V) (env : Env V) (l : Lock) : (s.acquired env l).id = s.id ∧
    (s.acquired env l).mem = s.mem ∧
    (s.acquired env l).cache = s.cache ∧ (s.acquired env l).copies = s.copies ∧ (s.acquired env l).called = s.called :=
  requests_same _ (s.request s.id l)

theorem exec_others (env : Env V) (s : Server V) (l : Lock) :
    (others env).exec (s.request s.id l) = some (.ok (), s.acquired env l) := rfl

theorem SameLocks.recorded (h : SameLocks s t) (hs : s.Recorded) : t.Recorded := by
  refine ⟨h.2.2 ▸ hs.oneTable, ?_⟩
  rw [h.2.1, h.2.2, hs.locks]

theorem Server.Recorded.request (hs : s.Recorded) (n : NodeId) (l : Lock) : (s.request n l).Recorded := by
  refine ⟨oneTable_concat.mpr ⟨hs.oneTable, by rw [← hs.locks]⟩, ?_⟩
  rw [Server.request, hs.locks, replay_concat]

theorem requests_recorded (hs : s.Recorded) (rs : List (NodeId × Lock)) :
    (rs.foldl (fun s r => s.request r.1 r.2) s).Recorded ∧
      ∃ ds : List Decision, (rs.foldl (fun s r => s.request r.1 r.2) s).decided = s.decided ++ ds ∧
        ds.map (fun d => (d.client, d.lock)) = rs := by
  induction rs generalizing s with
  | nil => exact ⟨hs, [], by simp⟩
  | cons r rs ih =>
    obtain ⟨hrecorded, ds, hdecided, hds⟩ := ih (hs.request r.1 r.2)
    refine ⟨hrecorded, ⟨r.1, r.2, (s.locks.setLock r.2.id r.2.state).2⟩ :: ds, ?_, ?_⟩
    · rw [List.foldl_cons, hdecided, Server.request, List.append_assoc]
      rfl
    · rw [List.map_cons, hds]

theorem not_othersHold (h : ∀ d ∈ s.decided, d.client = s.id) : ¬ s.OthersHold i := by
  rintro ⟨n, hn, hinside⟩
  have hnil : s.decided.filter (·.client = n) = [] := by
    refine List.filter_eq_nil_iff.mpr fun d hd => ?_
    simpa [h d hd] using fun heq : s.id = n => hn heq.symm
  simp only [Protocol.Inside, hnil] at hinside
  rcases hinside with hheld | hheld <;> exact not_held_nil hheld

theorem Held.inside {ds : List Decision} (h : Held st i ds) : ∃ n, Protocol.Inside st i n ds ∧
    ∃ p d q, ds = p ++ d :: q ∧ d.client = n ∧ d.lock = ⟨i, st⟩ ∧ ∀ x ∈ q, x.lock ≠ ⟨i, .unlocked⟩ := by
  obtain ⟨p, d, q, rfl, hlock, hgranted, hq⟩ := h
  refine ⟨d.client, ?_, p, d, q, rfl, rfl, hlock, hq⟩
  refine ⟨p.filter (·.client = d.client), d, q.filter (·.client = d.client), by simp, hlock, hgranted, fun x hx => ?_⟩
  exact hq x (List.mem_filter.mp hx).1

theorem setLock_ne_none (locks : LockTable) (j : UInt16) (h : locks i ≠ none ∨ i = j) :
    (locks.setLock j st).1 i ≠ none := by
  rw [LockTable.setLock_eq]
  by_cases hij : i = j
  · subst hij
    cases hi : locks i with
    | none => cases st <;> simp [LockTable.grants]
    | some existing => split <;> simp [hi]
  · have hi : locks i ≠ none := h.resolve_right hij
    split <;> simp [hij, hi]

theorem requests_ne_none (rs : List (NodeId × Lock)) (h : s.locks i ≠ none) :
    (rs.foldl (fun s r => s.request r.1 r.2) s).locks i ≠ none := by
  induction rs generalizing s with
  | nil => exact h
  | cons r rs ih => exact ih (setLock_ne_none s.locks r.2.id (Or.inl h))

theorem released (s : Server V) (n : NodeId) (i : UInt16) : (s.request n ⟨i, .unlocked⟩).locks i = some .unlocked := by
  simp [Server.request, LockTable.setLock_eq, LockTable.grants]

theorem holder_other {es ds : List Decision} {x : Decision} (hothers : ∀ d ∈ ds, d.client ≠ n) (hx : x ∈ ds)
    (hlock : x.lock = ⟨i, .unlocked⟩) (h : Held st i (es ++ ds)) : ∃ m, m ≠ n ∧ Protocol.Inside st i m (es ++ ds) := by
  obtain ⟨m, hinside, p, d, q, hsplit, hclient, -, hq⟩ := Held.inside h
  refine ⟨m, fun hm => ?_, hinside⟩
  have hd : d ∉ ds := fun hd => hothers d hd (hclient.trans hm)
  -- the request that holds the lock comes before all of them
  have hsuffix : x ∈ q := by
    rcases List.append_eq_append_iff.mp hsplit with ⟨a, -, ha⟩ | ⟨a, -, ha⟩
    · exact absurd (by simp [ha]) hd
    · cases a with
      | nil =>
        have hds : d :: q = ds := ha
        exact absurd (hds ▸ List.mem_cons_self) hd
      | cons e a => exact (List.cons.inj ha).2 ▸ List.mem_append_right a hx
  exact hq x hsuffix hlock

theorem acquired_history (hs : s.Recorded) (hgrant : LockTable.grants (s.locks l.id) l.state = true)
    (hsame : SameLocks (s.acquired env l) t) : t.Recorded ∧ ∃ ds : List Decision,
      t.decided = s.decided ++ [⟨s.id, l, true⟩] ++ ds ∧
      ds.map (fun d => (d.client, d.lock)) = env.held.filter fun r => r.1 ≠ s.id := by
  obtain ⟨hrecorded, ds, hdecided, hds⟩ := requests_recorded (hs.request s.id l) (env.held.filter fun r => r.1 ≠ s.id)
  have hacquire : (s.locks.setLock l.id l.state).2 = true := by rw [LockTable.setLock_snd, hgrant]
  refine ⟨hsame.recorded hrecorded, ds, ?_, hds⟩
  rw [hsame.2.2, Server.acquired, hdecided, Server.request, hacquire]

/-- Without its release, a granted lock is open exactly if another client has opened it. -/
theorem left_behind (hs : s.Recorded) (hst : l.state ≠ .unlocked)
    (hgrant : LockTable.grants (s.locks l.id) l.state = true)
    (hsame : SameLocks (s.acquired env l) t) (hfree : ¬ t.OthersHold l.id) :
    t.locks l.id = some .unlocked ↔ ∃ r ∈ env.held, r.1 ≠ s.id ∧ r.2 = ⟨l.id, .unlocked⟩ := by
  obtain ⟨ht, ds, hhistory, hds⟩ := acquired_history hs hgrant hsame
  have hothers : ∀ x ∈ ds, (x.client, x.lock) ∈ env.held ∧ x.client ≠ s.id := by
    intro x hx
    have hmem : (x.client, x.lock) ∈ env.held.filter fun r => r.1 ≠ s.id := hds ▸ List.mem_map.mpr ⟨x, hx, rfl⟩
    simpa using List.mem_filter.mp hmem
  obtain ⟨hexclusive, hshared⟩ := ht.oneTable.entry l.id
  rw [← ht.locks] at hexclusive hshared
  constructor
  · intro hopen
    by_contra hnone
    have hheld : Held l.state l.id t.decided := by
      refine ⟨s.decided, ⟨s.id, l, true⟩, ds, by simp [hhistory], rfl, rfl, fun x hx hx' => hnone ?_⟩
      exact ⟨_, (hothers x hx).1, (hothers x hx).2, hx'⟩
    cases hstate : l.state with
    | unlocked => exact hst hstate
    | sharedlock =>
      rw [hstate] at hheld
      rw [hshared.mpr hheld] at hopen
      cases hopen
    | exclusive =>
      rw [hstate] at hheld
      rw [hexclusive.mpr hheld] at hopen
      cases hopen
  · rintro ⟨r, hr, hrn, hrl⟩
    have hmem : r ∈ ds.map fun d => (d.client, d.lock) := hds ▸ List.mem_filter.mpr ⟨hr, by simpa using hrn⟩
    obtain ⟨x, hx, rfl⟩ := List.mem_map.mp hmem
    have hid : t.id = s.id := hsame.1.trans (acquired_same s env l).1
    have hholder : ∀ st, Held st l.id t.decided → ∃ m, m ≠ t.id ∧ Protocol.Inside st l.id m t.decided := by
      intro st hheld
      rw [hhistory] at hheld
      rw [hhistory, hid]
      exact holder_other (fun d hd => (hothers d hd).2) hx hrl hheld
    have hentry : t.locks l.id ≠ none := by
      rw [hsame.2.1]
      exact requests_ne_none _ (setLock_ne_none s.locks l.id (Or.inr rfl))
    cases hlock : t.locks l.id with
    | none => exact absurd hlock hentry
    | some existing =>
      cases existing with
      | unlocked => rfl
      | sharedlock =>
        obtain ⟨m, hm, hinside⟩ := hholder _ (hshared.mp hlock)
        exact absurd ⟨m, hm, Or.inl hinside⟩ hfree
      | exclusive =>
        obtain ⟨m, hm, hinside⟩ := hholder _ (hexclusive.mp hlock)
        exact absurd ⟨m, hm, Or.inr hinside⟩ hfree

def lockState (s : Server V) : NodeId × LockTable × List Decision := (s.id, s.locks, s.decided)

theorem aside_lockState : Aside (lockState (V := V)) := ⟨fun _ _ => rfl, fun _ _ => rfl, fun _ _ => rfl⟩

theorem sameLocks_iff : SameLocks s t ↔ lockState t = lockState s := by
  simp [SameLocks, lockState]

theorem keeps_load (ptr : UInt64) : Keeps (lockState (V := V)) (load ptr) := by
  refine keeps_act fun s r t h => ?_
  obtain ⟨d, -, hd⟩ := Option.map_eq_some_iff.mp h
  obtain ⟨-, rfl⟩ := Prod.mk.inj hd
  rfl

theorem keeps_store (ptr : UInt64) (d : SaveData V) : Keeps (lockState (V := V)) (store ptr d) := by
  refine keeps_act fun s r t h => ?_
  obtain ⟨d, -, hd⟩ := Option.map_eq_some_iff.mp h
  obtain ⟨-, rfl⟩ := Prod.mk.inj hd
  rfl

theorem keeps_isLocal (ga : GlobalAddress) : Keeps (lockState (V := V)) (isLocal ga) :=
  keeps_act fun _ _ _ h => by cases h; rfl

theorem keeps_self : Keeps (lockState (V := V)) self := keeps_act fun _ _ _ h => by cases h; rfl

theorem keeps_valueOf (x : Option (Pointer V)) : Keeps lockState (valueOf x) := by
  rcases x with _ | ptr | v
  · exact keeps_act fun _ _ _ h => by cases h; rfl
  · exact (keeps_load ptr).bind fun _ => keeps_pure _
  · exact keeps_pure v

theorem keeps_performRead (env : Env V) (ga : GlobalAddress) (n : NodeId) : Keeps lockState (performRead env ga n) := by
  refine (keeps_isLocal ga).bind fun b => ?_
  cases b with
  | false => exact (keeps_remote aside_lockState _).bind fun _ => keeps_pure _
  | true => exact (keeps_load ga.ptr).bind fun _ => keeps_pure _

theorem keeps_performWrite (env : Env V) (data : Data V) (n : NodeId) : Keeps lockState (performWrite env data n) := by
  refine (keeps_isLocal data.ga).bind fun b => ?_
  cases b with
  | false => exact keeps_remote aside_lockState _
  | true => exact (keeps_store data.ga.ptr _).bind fun _ => keeps_pure _

theorem keeps_writeLocked (env : Env V) (data : Data V) : Keeps lockState (writeLocked env data) := by
  refine (keeps_isLocal data.ga).bind fun b => ?_
  cases b with
  | false => exact keeps_self.bind fun n => keeps_performWrite env data n
  | true =>
    have hstore : Keeps lockState (do
        store data.ga.ptr (.written data.data (← self))
        pure data.ga) := keeps_self.bind fun _ => (keeps_store data.ga.ptr _).bind fun _ => keeps_pure _
    refine (keeps_load data.ga.ptr).bind fun d => ?_
    cases d.writeInvalidates with
    | false => exact hstore
    | true => exact (keeps_broadcastInvalidations aside_lockState env 0 d.sharerNodes data.ga).bind fun _ => hstore

/-- An access under a granted lock throws, or is followed by the release. -/
theorem bracket_cases (body : Call V α) (finish : α → Call V β) {r : Except Exit β}
    (h : Prog.exec (others env >>= fun _ => body >>= fun x => setLock i .unlocked >>= fun _ => finish x)
    (s.request s.id l) =
      some (r, t)) :
    (∃ e, r = .error e ∧ body.exec (s.acquired env l) = some (.error e, t)) ∨
      ∃ x u, body.exec (s.acquired env l) = some (.ok x, u) ∧
        (finish x).exec (u.request u.id ⟨i, .unlocked⟩) = some (r, t) := by
  rw [exec_bind_ok (exec_others env s l)] at h
  rcases exec_bind_cases h with hthrown | ⟨x, u, hx, h⟩
  · exact Or.inl hthrown
  · exact Or.inr ⟨x, u, hx, h⟩

theorem performRead_throws {ga : GlobalAddress} {r : Except Exit (Option (Pointer V))}
    (h : (performRead env ga n).exec s = some (r, t)) :
    (∃ e, r = .error e) ↔ ga.id ≠ s.id ∧ (s.cache.getCacheItem env.net.lookup ga).2 = none ∧ env.net.SessionThrows := by
  unfold performRead at h
  by_cases hid : ga.id = s.id
  · have hload : FailsIff False (load ga.ptr : Call V (SaveData V)) := failsIff_act fun s r t hr => by
      obtain ⟨d, -, hd⟩ := Option.map_eq_some_iff.mp hr
      exact ⟨d, (Prod.mk.inj hd).1.symm⟩
    rw [exec_bind_ok (exec_isLocal hid), if_pos rfl] at h
    rw [(hload.bind fun _ => failsIff_pure _) _ _ _ h]
    simp [hid]
  · rw [exec_bind_ok (exec_isRemote hid), if_neg Bool.false_ne_true] at h
    rcases exec_bind_cases h with ⟨e, rfl, he⟩ | ⟨v, u, hv, h⟩
    · obtain ⟨r₀, c, hr₀, hr, -⟩ := exec_zoom_eq he
      rw [← performRead_fails hr₀]
      cases r₀ with
      | ok v => cases hr
      | error e => simp [hid]
    · obtain ⟨r₀, c, hr₀, hr, -⟩ := exec_zoom_eq hv
      cases h
      rw [← performRead_fails hr₀]
      cases r₀ with
      | ok v => simp
      | error e => cases hr

theorem writeLocked_throws {data : Data V} {r : Except Exit GlobalAddress}
    (h : (writeLocked env data).exec s = some (r, t)) :
    (∃ e, r = .error e) ↔ (LockedCall.write data).Throws env s := by
  unfold writeLocked at h
  by_cases hid : data.ga.id = s.id
  · rw [exec_bind_ok (exec_isLocal hid), if_pos rfl] at h
    have hstore : FailsIff False (do
        store data.ga.ptr (.written data.data (← self))
        pure data.ga : Call V GlobalAddress) := by
      have hself : FailsIff False (self : Call V NodeId) := failsIff_act fun _ _ _ hr => ⟨_, by cases hr; rfl⟩
      have hput : ∀ d, FailsIff False (store data.ga.ptr d : Call V Unit) := fun d => failsIff_act fun _ _ _ hr => by
        obtain ⟨_, -, hd⟩ := Option.map_eq_some_iff.mp hr
        exact ⟨(), (Prod.mk.inj hd).1.symm⟩
      exact (hself.bind fun n => (hput _).bind fun _ => failsIff_pure _).congr (by simp)
    cases hmem : s.mem data.ga.ptr with
    | none =>
      have hload : (load data.ga.ptr).exec s = none := by rw [load, exec_act, hmem]; rfl
      rw [exec_bind, hload] at h
      cases h
    | some d =>
      rw [exec_bind_ok (exec_load hmem)] at h
      simp only [LockedCall.Throws, hid, ↓reduceIte, hmem, Option.some.injEq, exists_eq_left']
      cases hw : d.writeInvalidates with
      | false =>
        rw [hw] at h
        rw [hstore _ _ _ h]
        simp
      | true =>
        rw [hw] at h
        rw [((failsIff_broadcastInvalidations env 0 d.sharerNodes data.ga).bind fun _ => hstore) _ _ _ h]
        simp
  · rw [exec_bind_ok (exec_isRemote hid), if_neg Bool.false_ne_true] at h
    rw [exec_bind_ok (exec_self s), performWrite, exec_bind_ok (exec_isRemote hid),
      if_neg Bool.false_ne_true] at h
    rw [failsIff_remote (failsIff_performWrite env.net data s.id) _ _ _ h]
    simp [LockedCall.Throws, hid]

theorem bracket_released (body : Call V α) (finish : α → Call V β) {r : Except Exit β} {p : Prop}
    (hbody : Keeps lockState body)
    (hthrows : ∀ r t, body.exec (s.acquired env l) = some (r, t) → ((∃ e, r = .error e) ↔ p))
    (hfinish : ∀ x, Keeps lockState (finish x))
    (h : Prog.exec (others env >>= fun _ => body >>= fun x => setLock i .unlocked >>= fun _ => finish x)
    (s.request s.id l) =
      some (r, t)) :
    (p ∧ SameLocks (s.acquired env l) t) ∨ ¬ p ∧ ∃ (u : Server V) (n : NodeId),
      SameLocks (u.request n ⟨i, .unlocked⟩) t := by
  rcases bracket_cases _ _ h with ⟨e, rfl, he⟩ | ⟨x, u, hx, hu⟩
  · exact Or.inl ⟨(hthrows _ _ he).mp ⟨e, rfl⟩, sameLocks_iff.mpr (hbody _ _ _ he)⟩
  · refine Or.inr ⟨fun hp => ?_, u, u.id, sameLocks_iff.mpr (hfinish x _ _ _ hu)⟩
    obtain ⟨e, he⟩ := (hthrows _ _ hx).mpr hp
    cases he

theorem LockedCall.run_cases [Zero V] {a : LockedCall V} {r : Except Exit Unit}
    (hgrant : LockTable.grants (s.locks a.lock.id) a.lock.state = true) (h : (a.run env).exec s = some (r, t)) :
    (a.Throws env s ∧ SameLocks (s.acquired env a.lock) t) ∨
      ¬ a.Throws env s ∧ ∃ (u : Server V) (n : NodeId), SameLocks (u.request n ⟨a.lock.id, .unlocked⟩) t := by
  obtain ⟨hid, hmem, hcache, -⟩ := acquired_same s env a.lock
  have hset := exec_setLock hgrant
  cases a with
  | read ga =>
    obtain ⟨r', hread⟩ := exec_discard_eq h
    unfold Failure.read at hread
    rw [exec_bind_ok (show (setLock ga.id .sharedlock).exec s = _ from hset)] at hread
    refine bracket_released (self >>= performRead env ga) valueOf
      (keeps_self.bind fun n => keeps_performRead env ga n) ?_ keeps_valueOf (by simp only [bind_assoc]; exact hread)
    intro r t hr
    rw [exec_bind_ok (exec_self _)] at hr
    rw [performRead_throws hr]
    exact (show (s.acquired env ⟨ga.id, .sharedlock⟩).cache = s.cache from hcache) ▸ hid ▸ Iff.rfl
  | write data =>
    obtain ⟨r', hwrite⟩ := exec_discard_eq h
    unfold Failure.write at hwrite
    rw [exec_bind_ok (show (setLock data.ga.id .exclusive).exec s = _ from hset)] at hwrite
    refine bracket_released _ (fun x => pure x) (keeps_writeLocked env data) ?_ (fun x => keeps_pure x) hwrite
    intro r t hr
    rw [writeLocked_throws hr, Throws, Throws, hid, hmem]

/-- When no other client holds it, the lock of a call is open at the end exactly if the access did not throw, or
another client has released the lock meanwhile. -/
theorem lock_released_iff [Zero V] {a : LockedCall V} {r : Except Exit Unit} (hs : s.Recorded)
    (hgrant : LockTable.grants (s.locks a.lock.id) a.lock.state = true) (h : (a.run env).exec s = some (r, t))
    (hfree : ¬ t.OthersHold a.lock.id) : t.locks a.lock.id = some .unlocked ↔
      ¬ a.Throws env s ∨ ∃ r ∈ env.held, r.1 ≠ s.id ∧ r.2 = ⟨a.lock.id, .unlocked⟩ := by
  rcases LockedCall.run_cases hgrant h with ⟨hthrows, hsame⟩ | ⟨hthrows, u, n, hsame⟩
  · have hst : a.lock.state ≠ .unlocked := by cases a <;> simp [LockedCall.lock]
    rw [left_behind hs hst hgrant hsame hfree]
    simp [hthrows]
  · rw [hsame.2.1, released]
    simp [hthrows]

end

def calm (net : Network ℕ) : Env ℕ := ⟨net, fun _ => net, fun _ => false, .ofSendable, []⟩

def client : Server ℕ := ⟨1000, fun _ => none, .new, LockTable.empty, [], fun _ _ => false, []⟩

theorem recorded_client : client.Recorded := ⟨rfl, rfl⟩

/-- A read whose connection to the home fails leaves its lock, and nobody else has one. -/
theorem lock_left : ¬ ∀ (s t : Server ℕ) (env : Env ℕ) (a : LockedCall ℕ) (r : Except Exit Unit), s.Recorded →
    LockTable.grants (s.locks a.lock.id) a.lock.state = true → (a.run env).exec s = some (r, t) →
      ¬ t.OthersHold a.lock.id → t.locks a.lock.id = some .unlocked := by
  intro h
  have hexec : ((LockedCall.read ⟨8, 4096, 3000⟩).run (calm (brokenAt .connect .connectSocket))).exec client =
      some (.error (.thrown .connect .connectSocket), client.request 1000 ⟨3000, .sharedlock⟩) := rfl
  have hopen := h client _ _ _ _ recorded_client rfl hexec (not_othersHold (by decide))
  cases hopen

theorem lock_released_served :
    ∃ t, ((LockedCall.read ⟨8, 4096, 3000⟩).run (calm (brokenAt .serve .bindSocket))).exec client =
    some (.ok (), t) ∧ t.locks 3000 = some .unlocked := by
  have hserved :
    (((LockedCall.read ⟨8, 4096, 3000⟩).run (calm (brokenAt .serve .bindSocket))).exec client).map (fun p =>
      (p.1.toBool, decide (∀ d ∈ p.2.decided, d.client = p.2.id))) = some (true, true) := by decide +kernel
  obtain ⟨⟨r, t⟩, hexec, hresult⟩ := Option.map_eq_some_iff.mp hserved
  obtain ⟨hr, hself⟩ := Prod.mk.inj hresult
  have hquiet : ¬ (LockedCall.read ⟨8, 4096, 3000⟩).Throws (calm (brokenAt .serve .bindSocket)) client := by
    rintro ⟨-, -, hthrows⟩
    revert hthrows
    decide
  cases r with
  | error e => cases hr
  | ok x =>
    exact ⟨t, hexec,
      (lock_released_iff recorded_client rfl hexec (not_othersHold (of_decide_eq_true hself))).mpr (Or.inl hquiet)⟩

end CacheCoherence.Failure
