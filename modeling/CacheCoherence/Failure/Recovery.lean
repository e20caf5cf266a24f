import CacheCoherence.Failure.Locks

/-! # Broadcasts that stop early

`Node::write` broadcasts its invalidations before it overwrites the record, `startInvalidations` afterwards. When the
broadcast throws, the one keeps the nodes that still have a copy on the list, and the other has forgotten them. But
the exception takes `Node::write` past its release too, and the lock that stays behind refuses the next
`Node::write`, which then returns and has invalidated nothing.
-/
namespace CacheCoherence.Failure
open Exits

variable {V : Type}

def Reaches (env : Env V) (i : ℕ) : Prop :=
  ¬ (env.peer i).Throws .connect connectOps ∧ ¬ (env.peer i).Throws .request postOps ∧
    (env.removes i = true ∨ ¬ (env.peer i).Throws .request pollOps)

instance (env : Env V) (i : ℕ) : Decidable (Reaches env i) :=
  inferInstanceAs (Decidable (¬ (env.peer i).Throws .connect connectOps ∧ ¬ (env.peer i).Throws .request postOps ∧
    (env.removes i = true ∨ ¬ (env.peer i).Throws .request pollOps)))

/-- The nodes that have taken an INVALIDATE when the first session throws, or at the end. -/
def reached (env : Env V) : ℕ → List NodeId → List NodeId
  | _, [] => []
  | i, n :: nodes =>
    if (env.peer i).SessionThrows then if Reaches env i then [n] else []
    else n :: reached env (i + 1) nodes

def without (copies : NodeId → UInt64 → Bool) (ns : List NodeId) (k : UInt64) : NodeId → UInt64 → Bool :=
  fun m k' => if m ∈ ns ∧ k' = k then false else copies m k'

inductive HomeWrite (V : Type) where
  | write (data : Data V)
  | handleWrite (data : Data V) (srcID : NodeId)

namespace HomeWrite

def data : HomeWrite V → Data V
  | .write data | .handleWrite data _ => data

def run (env : Env V) : HomeWrite V → Call V Unit
  | .write data => do let _ ← Failure.write env data
  | .handleWrite data srcID => do let _ ← Failure.handleWrite env (data.sendable srcID)

end HomeWrite

/-- The broadcast gets to every sharer with a copy before it throws. -/
def AllReached (env : Env V) (s : Server V) (d : SaveData V) (k : UInt64) : Prop :=
  ∀ n ∈ d.sharerNodes, s.copies n k = true → n ∈ reached env 0 d.sharerNodes

/-- Of the requests of other clients for the lock during the call, the last is an UNLOCKED. -/
def Reopened (env : Env V) (s : Server V) (i : UInt16) : Prop :=
  ∃ n, (env.held.filter fun r => r.1 ≠ s.id ∧ r.2.id = i).getLast? = some (n, ⟨i, .unlocked⟩)

/-- A local write needs its lock to be open again, when a copy is left. A handled write has to store the value that is
there, and to leave no copy. -/
def HomeWrite.Recovers (env : Env V) (s : Server V) (d : SaveData V) : HomeWrite V → Prop
  | .write data => Reopened env s data.ga.id ∨ AllReached env s d data.ga.hash
  | .handleWrite data _ => data.data = d.data ∧ AllReached env s d data.ga.hash

/-- The value is still the old one, the sharers that have a copy left are still on the list, and none of them has one
after a further `Node::write` that returns. -/
structure Recoverable (d : SaveData V) (ga : GlobalAddress) (t : Server V) : Prop where
  kept : ∃ d', t.mem ga.ptr = some d' ∧ d'.data = d.data ∧
    ∀ n ∈ d.sharerNodes, t.copies n ga.hash = true → n ∈ d'.sharerNodes
  retried : ∀ env data r u, data.ga = ga → (write env data).exec t = some (.ok r, u) →
    ∀ n ∈ d.sharerNodes, u.copies n ga.hash = false

section
variable {α : Type} {env : Env V} {s t : Server V} {n : NodeId} {i : ℕ} {nodes ns : List NodeId} {ga : GlobalAddress}
    {k : UInt64}
  {copies : NodeId → UInt64 → Bool} {m : Remote V α} {d : SaveData V} {data : Data V}

@[simp] theorem without_nil : without copies [] k = copies := by
  funext m k'
  simp [without]

theorem without_append : without (without copies nodes k) ns k = without copies (nodes ++ ns) k := by
  funext m k'
  by_cases hk : k' = k <;> by_cases hm : m ∈ nodes <;> simp [without, hk, hm]

theorem without_twice : without (without copies [n] k) [n] k = without copies [n] k := by
  funext m k'
  by_cases hk : k' = k <;> by_cases hm : m = n <;> simp [without, hk, hm]

theorem without_eq_false (h : n ∈ ns) : without copies ns k n k = false := by
  simp [without, h]

theorem without_gone : (∀ n ∈ nodes, without copies ns k n k = false) ↔ ∀ n ∈ nodes, copies n k = true → n ∈ ns := by
  refine forall₂_congr fun n _ => ?_
  by_cases hn : n ∈ ns <;> simp [without, hn]

theorem remote_copies {r : Except Exit α} (h : (remote m).exec s = some (r, t)) : t.copies = s.copies := by
  obtain ⟨c, rfl⟩ := remote_same h
  rfl

theorem exec_removeCopy (s : Server V) (n : NodeId) (ga : GlobalAddress) :
    (removeCopy n ga).exec s = some (.ok (), { s with copies := without s.copies [n] ga.hash }) := by
  have hcopies : (fun m k => if m = n ∧ k = ga.hash then false else s.copies m k) = without s.copies [n] ga.hash := by
    funext m k
    simp [without]
  rw [removeCopy, exec_act, hcopies]

theorem copies_sendInvalidate {r : Except Exit Unit} (h : (sendInvalidate env i n ga).exec s = some (r, t)) :
    t.copies = without s.copies (if ¬ (env.peer i).Throws .request postOps ∧
      (env.removes i = true ∨ ¬ (env.peer i).Throws .request pollOps) then [n] else []) ga.hash := by
  have hpost := failsIff_remote (failsIff_attempts (env.peer i) .request postOps)
  have hpoll := failsIff_remote (failsIff_attempts (env.peer i) .request pollOps)
  have hrest : ∀ (u : Server V) r, Prog.exec (do
      remote (pollOps.forM (attempt (env.peer i) .request))
      removeCopy n ga) u = some (r, t) →
        t.copies = without u.copies (if (env.peer i).Throws .request pollOps then [] else [n]) ga.hash := by
    intro u r hu
    rcases exec_bind_cases hu with ⟨e, rfl, he⟩ | ⟨_, v, hv, hu⟩
    · rw [if_pos ((hpoll _ _ _ he).mp ⟨e, rfl⟩), remote_copies he, without_nil]
    · have hquiet : ¬ (env.peer i).Throws .request pollOps := fun hthrows => by
        obtain ⟨e, he⟩ := (hpoll _ _ _ hv).mpr hthrows
        cases he
      rw [exec_removeCopy] at hu
      cases hu
      rw [if_neg hquiet, remote_copies hv]
  rcases exec_bind_cases h with ⟨e, rfl, he⟩ | ⟨_, u, hu, h⟩
  · have hthrows := (hpost _ _ _ he).mp ⟨e, rfl⟩
    rw [if_neg (fun hquiet => hquiet.1 hthrows), remote_copies he, without_nil]
  · have hquiet : ¬ (env.peer i).Throws .request postOps := fun hthrows => by
      obtain ⟨e, he⟩ := (hpost _ _ _ hu).mpr hthrows
      cases he
    have hcopies : u.copies = s.copies := remote_copies hu
    cases hremoves : env.removes i with
    | false =>
      rw [hremoves] at h
      rw [hrest u r h, hcopies]
      by_cases hthrows : (env.peer i).Throws .request pollOps <;> simp [hquiet, hthrows]
    | true =>
      rw [hremoves] at h
      rcases exec_bind_cases h with ⟨e, rfl, he⟩ | ⟨_, v, hv, h⟩
      · rw [exec_removeCopy] at he
        cases he
      · rw [exec_removeCopy] at hv
        cases hv
        rw [hrest _ r h, hcopies]
        by_cases hthrows : (env.peer i).Throws .request pollOps <;> simp [hquiet, hthrows, without_twice]

theorem exec_invalidate (env : Env V) (i : ℕ) (n : NodeId) (ga : GlobalAddress) (s : Server V) :
    (invalidate env i n ga).exec s = Prog.exec (do
      remote (connectClientSocket (env.peer i) .connect)
      sendInvalidate env i n ga
      remote (closeClientSocket (env.peer i))) { s with called := s.called ++ [n] } := exec_bind_ok rfl

theorem copies_invalidate {r : Except Exit Unit} (h : (invalidate env i n ga).exec s = some (r, t)) :
    t.copies = without s.copies (if Reaches env i then [n] else []) ga.hash := by
  have hconnect := failsIff_remote (failsIff_attempts (env.peer i) .connect connectOps)
  rw [exec_invalidate] at h
  rcases exec_bind_cases h with ⟨e, rfl, he⟩ | ⟨_, u, hu, h⟩
  · have hthrows := (hconnect _ _ _ he).mp ⟨e, rfl⟩
    rw [if_neg (fun hreaches => hreaches.1 hthrows), remote_copies he, without_nil]
  · have hquiet : ¬ (env.peer i).Throws .connect connectOps := fun hthrows => by
      obtain ⟨e, he⟩ := (hconnect _ _ _ hu).mpr hthrows
      cases he
    have hcopies : u.copies = s.copies := by rw [remote_copies hu]
    simp only [Reaches, hquiet, not_false_eq_true, true_and]
    rcases exec_bind_cases h with ⟨e, rfl, he⟩ | ⟨_, v, hv, h⟩
    · rw [copies_sendInvalidate he, hcopies]
    · rw [remote_copies h, copies_sendInvalidate hv, hcopies]

theorem reaches_of_quiet (h : ¬ (env.peer i).SessionThrows) : Reaches env i :=
  ⟨fun hc => h (Or.inl hc), fun hp => h (Or.inr (Or.inl hp)), Or.inr fun hp => h (Or.inr (Or.inr (Or.inl hp)))⟩

theorem copies_broadcastInvalidations {r : Except Exit Unit}
    (h : (broadcastInvalidations env i nodes ga).exec s = some (r, t)) :
    t.copies = without s.copies (reached env i nodes) ga.hash := by
  induction nodes generalizing i s with
  | nil =>
    cases h
    rw [reached, without_nil]
  | cons n nodes ih =>
    rcases exec_bind_cases h with ⟨e, rfl, he⟩ | ⟨_, u, hu, h⟩
    · have hthrows := (failsIff_invalidate env i n ga _ _ _ he).mp ⟨e, rfl⟩
      rw [reached, if_pos hthrows, copies_invalidate he]
    · have hquiet : ¬ (env.peer i).SessionThrows := fun hthrows => by
        obtain ⟨e, he⟩ := (failsIff_invalidate env i n ga _ _ _ hu).mpr hthrows
        cases he
      rw [reached, if_neg hquiet, ih h, copies_invalidate hu, if_pos (reaches_of_quiet hquiet), without_append]
      rfl

theorem reached_all (h : ¬ ∃ k < nodes.length, (env.peer (i + k)).SessionThrows) : reached env i nodes = nodes := by
  induction nodes generalizing i with
  | nil => rfl
  | cons n nodes ih =>
    have hquiet : ¬ (env.peer i).SessionThrows := fun hthrows => h ⟨0, by simp, hthrows⟩
    rw [reached, if_neg hquiet, ih]
    rintro ⟨k, hk, hthrows⟩
    exact h ⟨k + 1, by simpa using hk, by rwa [Nat.add_comm k, ← Nat.add_assoc]⟩

theorem broadcast_complete (h : (broadcastInvalidations env i nodes ga).exec s = some (.ok (), t)) :
    t.copies = without s.copies nodes ga.hash := by
  have hquiet : ¬ ∃ k < nodes.length, (env.peer (i + k)).SessionThrows := fun hthrows => by
    obtain ⟨e, he⟩ := (failsIff_broadcastInvalidations env i nodes ga _ _ _ h).mpr hthrows
    cases he
  rw [copies_broadcastInvalidations h, reached_all hquiet]

def home (s : Server V) : NodeId × (UInt64 → Option (SaveData V)) := (s.id, s.mem)

theorem aside_home : Aside (home (V := V)) := ⟨fun _ _ => rfl, fun _ _ => rfl, fun _ _ => rfl⟩

theorem broadcast_home {r : Except Exit Unit} (h : (broadcastInvalidations env i nodes ga).exec s = some (r, t)) :
    t.id = s.id ∧ t.mem = s.mem :=
  Prod.mk.inj (keeps_broadcastInvalidations aside_home env i nodes ga s r t h)

theorem writeLocked_cases {r : Except Exit GlobalAddress} (hid : data.ga.id = s.id) (hd : s.mem data.ga.ptr = some d)
    (h : (writeLocked env data).exec s = some (r, t)) :
    (∃ e, r = .error e ∧ d.writeInvalidates = true ∧
      (broadcastInvalidations env 0 d.sharerNodes data.ga).exec s = some (.error e, t)) ∨
    r = .ok data.ga ∧ ∃ u : Server V, t.copies = u.copies ∧
      (d.writeInvalidates = true → (broadcastInvalidations env 0 d.sharerNodes data.ga).exec s = some (.ok (), u)) ∧
      (d.writeInvalidates = false → u = s) := by
  have hstore : ∀ u : Server V, u.mem = s.mem → Prog.exec (do
      store data.ga.ptr (.written data.data (← self))
      pure data.ga) u = some (r, t) → r = .ok data.ga ∧ t.copies = u.copies := by
    intro u hu h
    rw [exec_bind_ok (exec_self u), exec_bind_ok (exec_store (by simp [hu, hd]) _)] at h
    cases h
    exact ⟨rfl, rfl⟩
  unfold writeLocked at h
  rw [exec_bind_ok (exec_isLocal hid), if_pos rfl, exec_bind_ok (exec_load hd)] at h
  cases hw : d.writeInvalidates with
  | false =>
    rw [hw] at h
    obtain ⟨hr, hcopies⟩ := hstore s rfl h
    exact Or.inr ⟨hr, s, hcopies, by simp, fun _ => rfl⟩
  | true =>
    rw [hw] at h
    rcases exec_bind_cases h with ⟨e, rfl, he⟩ | ⟨_, u, hu, h⟩
    · exact Or.inl ⟨e, rfl, rfl, he⟩
    · obtain ⟨hr, hcopies⟩ := hstore u (broadcast_home hu).2 h
      exact Or.inr ⟨hr, u, hcopies, fun _ => hu, by simp⟩

/-- After a request for the lock, a client gets it EXCLUSIVE only if the request was an UNLOCKED. -/
theorem request_grants (s : Server V) (n : NodeId) (l : Lock) :
    LockTable.grants ((s.request n l).locks l.id) .exclusive = true ↔ l.state = .unlocked := by
  simp only [Server.request, LockTable.setLock_eq]
  cases hstate : l.state with
  | unlocked => simp [LockTable.grants]
  | exclusive =>
    cases hgrant : LockTable.grants (s.locks l.id) .exclusive with
    | true => simp [LockTable.grants]
    | false => simpa using hgrant
  | sharedlock =>
    cases hgrant : LockTable.grants (s.locks l.id) .sharedlock with
    | true => simp [LockTable.grants]
    | false =>
      have hentry : s.locks l.id = some .exclusive := by simpa [LockTable.grants] using hgrant
      simp [hentry, LockTable.grants]

theorem requests_grant {j : UInt16} (hs : LockTable.grants (s.locks j) .exclusive = false)
    (rs : List (NodeId × Lock)) :
    LockTable.grants ((rs.foldl (fun s r => s.request r.1 r.2) s).locks j) .exclusive = true ↔
      ∃ n, (rs.filter fun r => r.2.id = j).getLast? = some (n, ⟨j, .unlocked⟩) := by
  induction rs using List.reverseRecOn with
  | nil => simp [hs]
  | append_singleton rs r ih =>
    rw [List.foldl_append, List.filter_append]
    obtain ⟨n, l⟩ := r
    by_cases hid : l.id = j
    · subst hid
      have hlast := request_grants (rs.foldl (fun s r => s.request r.1 r.2) s) n l
      obtain ⟨j, state⟩ := l
      simpa using hlast
    · have hother : ((rs.foldl (fun s r => s.request r.1 r.2) s).request n l).locks j =
          (rs.foldl (fun s r => s.request r.1 r.2) s).locks j := LockTable.setLock_other _ _ (Ne.symm hid)
      simpa [hid, hother] using ih

/-- Without its release, the lock of a write can be had again if another client has opened it. -/
theorem reopened_iff {j : UInt16} : LockTable.grants ((s.acquired env ⟨j, .exclusive⟩).locks j) .exclusive = true ↔
    Reopened env s j := by
  have hown : LockTable.grants ((s.request s.id ⟨j, .exclusive⟩).locks j) .exclusive = false := by
    rw [← Bool.not_eq_true, request_grants]
    simp
  rw [Server.acquired, requests_grant hown, List.filter_filter]
  refine exists_congr fun n => ?_
  simp only [Bool.decide_and, Bool.and_comm]

theorem copies_write {r : GlobalAddress} (hid : data.ga.id = s.id) (hd : s.mem data.ga.ptr = some d)
    (h : (write env data).exec s = some (.ok r, t)) :
    t.copies = if LockTable.grants (s.locks data.ga.id) .exclusive && d.writeInvalidates
      then without s.copies d.sharerNodes data.ga.hash else s.copies := by
  unfold write at h
  rw [exec_bind_ok (exec_setLock_eq data.ga.id .exclusive s), LockTable.setLock_snd] at h
  cases hgrant : LockTable.grants (s.locks data.ga.id) .exclusive with
  | false =>
    rw [hgrant] at h
    cases h
    rfl
  | true =>
    rw [hgrant] at h
    obtain ⟨hid', hmem', -, hcopies', -⟩ := acquired_same s env ⟨data.ga.id, .exclusive⟩
    rcases bracket_cases _ (fun x => pure x) h with ⟨e, he, -⟩ | ⟨x, u, hu, ht⟩
    · cases he
    · cases ht
      rcases writeLocked_cases (hid.trans hid'.symm) (hmem' ▸ hd) hu with ⟨e, he, -⟩ | ⟨-, v, hv, hbroadcast, hsame⟩
      · cases he
      · rw [request_copies, hv]
        cases hw : d.writeInvalidates with
        | false => rw [hsame hw, hcopies']; rfl
        | true => rw [broadcast_complete (hbroadcast hw), hcopies']; rfl

/-- While its sharers are on the list, a further write reaches the copies if it gets its lock. -/
theorem recoverable_listed (env : Env V) (hid : data.ga.id = s.id) (hd : s.mem data.ga.ptr = some d)
    (hw : d.writeInvalidates = true) :
    Recoverable d data.ga s ↔ LockTable.grants (s.locks data.ga.id) .exclusive = true ∨
      ∀ n ∈ d.sharerNodes, s.copies n data.ga.hash = false := by
  constructor
  · rintro ⟨-, hretried⟩
    refine or_iff_not_imp_left.mpr fun hgrant => ?_
    -- the lock is refused, so the write returns and has changed nothing
    have hdenied : (write env data).exec s = some (.ok ⟨0, 0, 0⟩, s.request s.id ⟨data.ga.id, .exclusive⟩) := by
      unfold write
      rw [exec_bind_ok (exec_setLock_eq data.ga.id .exclusive s), LockTable.setLock_snd, eq_false_of_ne_true hgrant]
      rfl
    exact fun n hn => hretried env data _ _ rfl hdenied n hn
  · refine fun hopen => ⟨⟨d, hd, rfl, fun n hn _ => hn⟩, ?_⟩
    intro env' data' r u hga h n hn
    rw [copies_write (hga ▸ hid) (hga ▸ hd) h, hga, hw, Bool.and_true]
    split
    · exact without_eq_false hn
    · rename_i hdenied
      exact hopen.resolve_left hdenied n hn

/-- When the list is empty, what matters is that no copy is left. -/
theorem recoverable_forgotten {v : V} (hid : ga.id = s.id) (hd : s.mem ga.ptr = some (.owned v n)) :
    Recoverable d ga s ↔ v = d.data ∧ ∀ n ∈ d.sharerNodes, s.copies n ga.hash = false := by
  constructor
  · rintro ⟨⟨d', hd', hdata, hkept⟩, -⟩
    obtain rfl : SaveData.owned v n = d' := Option.some.inj (hd.symm.trans hd')
    refine ⟨hdata, fun n hn => ?_⟩
    cases hcopy : s.copies n ga.hash with
    | false => rfl
    | true => exact absurd (hkept n hn hcopy) (by simp)
  · rintro ⟨hdata, hgone⟩
    refine ⟨⟨_, hd, hdata, fun n hn hcopy => by simp [hgone n hn] at hcopy⟩, ?_⟩
    rintro env data r u rfl h n hn
    rw [copies_write hid hd h, show (SaveData.owned v _).writeInvalidates = false from rfl, Bool.and_false]
    exact hgone n hn

theorem remote_stage {stage stage' : Stage} {op : NetworkOp} (hm : Does Eq (· = stage) m)
    (h : (remote m).exec s = some (.error (.thrown stage' op), t)) : stage' = stage := by
  obtain ⟨r, c, hr, hthrown, -⟩ := exec_zoom_eq h
  cases r with
  | ok x => cases hthrown
  | error x =>
    cases hthrown
    exact (hm _ _ _ hr).2 x rfl

theorem postReply_stage {stage : Stage} {op : NetworkOp}
    (h : (postReply env).exec s = some (.error (.thrown stage op), t)) :
    stage = .serve :=
  remote_stage (does_attempts env.net .serve _) h

theorem startInvalidations_thrown {stage : Stage} {op : NetworkOp} (hid : data.ga.id = s.id)
    (hd : s.mem data.ga.ptr = some d)
    (hstage : stage ≠ .serve) (h : (startInvalidations env data nodes n).exec s = some (.error (.thrown stage op), t)) :
    t.id = s.id ∧ t.mem data.ga.ptr = some (.owned data.data n) ∧
      t.copies = without s.copies (reached env 0 nodes) data.ga.hash := by
  unfold startInvalidations at h
  rcases exec_bind_cases h with ⟨e, he, hu⟩ | ⟨_, u, hu, h⟩
  · cases he
    exact absurd (postReply_stage hu) hstage
  obtain ⟨c, rfl⟩ := remote_same hu
  rw [exec_bind_ok (exec_performWrite_local (s := { s with cache := c }) hid (by simp [hd]))] at h
  rcases exec_bind_cases h with ⟨e, he, hv⟩ | ⟨_, v, hv, h⟩
  · cases he
    exact absurd (postReply_stage hv) hstage
  obtain ⟨c₁, rfl⟩ := remote_same hv
  rcases exec_bind_cases h with ⟨e, he, hw⟩ | ⟨_, w, hw, h⟩
  · cases he
    exact absurd (remote_stage (does_attempt env.net .serve _) hw) hstage
  obtain ⟨c₂, rfl⟩ := remote_same hw
  obtain ⟨hid', hmem⟩ := broadcast_home h
  have hcopies := copies_broadcastInvalidations h
  refine ⟨hid', ?_, hcopies⟩
  rw [hmem]
  exact Function.update_self _ _ _

theorem handleWrite_thrown {stage : Stage} {op : NetworkOp} (hid : data.ga.id = s.id)
    (hd : s.mem data.ga.ptr = some d) (hstage : stage ≠ .serve)
    (h : (handleWrite env (data.sendable n)).exec s = some (.error (.thrown stage op), t)) :
    t.id = s.id ∧ t.mem data.ga.ptr = some (.owned data.data n) ∧
      t.copies = without s.copies (reached env 0 d.sharerNodes) data.ga.hash := by
  have hplain : ∀ u, Prog.exec (do
      let _ ← performWrite env data n
      postReply env
      pure true) s ≠ some (.error (.thrown stage op), u) := by
    intro u hu
    rw [exec_bind_ok (exec_performWrite_local hid (by simp [hd]))] at hu
    rcases exec_bind_cases hu with ⟨e, he, hv⟩ | ⟨_, v, -, hu⟩
    · cases he
      exact absurd (postReply_stage hv) hstage
    · cases hu
  unfold handleWrite at h
  rw [Data.ofSendable_sendable] at h
  rw [exec_bind_ok (exec_performRead_local hid hd)] at h
  cases hread : d.readable with
  | false =>
    rw [hread] at h
    exact absurd h (hplain t)
  | true =>
    rw [hread] at h
    simp only [↓reduceIte] at h
    rw [exec_bind_ok (exec_load hd)] at h
    cases hinv : d.handleInvalidates with
    | false =>
      rw [hinv] at h
      exact absurd h (hplain t)
    | true =>
      rw [hinv] at h
      rcases exec_bind_cases h with ⟨e, he, hu⟩ | ⟨_, u, -, h⟩
      · cases he
        exact startInvalidations_thrown hid hd hstage hu
      · cases h

theorem write_thrown {e : Exit} (hid : data.ga.id = s.id) (hd : s.mem data.ga.ptr = some d)
    (h : (write env data).exec s = some (.error e, t)) : d.writeInvalidates = true ∧ t.id = s.id ∧ t.mem = s.mem ∧
      t.locks = (s.acquired env ⟨data.ga.id, .exclusive⟩).locks ∧
      t.copies = without s.copies (reached env 0 d.sharerNodes) data.ga.hash := by
  unfold write at h
  rw [exec_bind_ok (exec_setLock_eq data.ga.id .exclusive s)] at h
  cases hgrant : (s.locks.setLock data.ga.id .exclusive).2 with
  | false =>
    rw [hgrant] at h
    cases h
  | true =>
    rw [hgrant] at h
    obtain ⟨hid', hmem', -, hcopies', -⟩ := acquired_same s env ⟨data.ga.id, .exclusive⟩
    rcases bracket_cases _ (fun x => pure x) h with ⟨e', -, he⟩ | ⟨x, u, -, hu⟩
    · rcases writeLocked_cases (hid.trans hid'.symm) (hmem' ▸ hd) he with ⟨e'', -, hw, hbroadcast⟩ | ⟨hok, -⟩
      · obtain ⟨hid'', hmem''⟩ := broadcast_home hbroadcast
        have hlocks := sameLocks_iff.mpr (keeps_broadcastInvalidations aside_lockState env 0 _ _ _ _ _ hbroadcast)
        have hcopies := copies_broadcastInvalidations hbroadcast
        exact ⟨hw, hid''.trans hid', hmem''.trans hmem', hlocks.2.1, hcopies' ▸ hcopies⟩
      · cases hok
    · cases hu

/-- After a broadcast that throws, a local write can be tried again exactly if another client has opened the lock that
it leaves behind, or no copy is left; a handled one exactly if no copy is left and it has stored the value that was
there. -/
theorem recoverable_iff {p : HomeWrite V} {stage : Stage} {op : NetworkOp} (hid : p.data.ga.id = s.id)
    (hd : s.mem p.data.ga.ptr = some d) (hstage : stage ≠ .serve)
    (h : (p.run env).exec s = some (.error (.thrown stage op), t)) :
    Recoverable d p.data.ga t ↔ p.Recovers env s d := by
  cases p with
  | write data =>
    obtain ⟨hinvalidates, hid', hmem, hlocks, hcopies⟩ := write_thrown hid hd (exec_discard_eq_error h)
    have hlisted := recoverable_listed env (hid.trans hid'.symm) (hmem ▸ hd) hinvalidates
    rw [hlocks, reopened_iff, hcopies, without_gone] at hlisted
    exact hlisted
  | handleWrite data srcID =>
    obtain ⟨hid', hmem, hcopies⟩ := handleWrite_thrown hid hd hstage (exec_discard_eq_error h)
    rw [recoverable_forgotten (hid.trans hid'.symm) hmem, hcopies]
    exact and_congr_right fun _ => without_gone

end

def sharedHome : Server ℕ :=
  ⟨3000, fun p => if p = 4096 then some ⟨1, .shared, 3000, [1500, 1600]⟩ else none, .new, LockTable.empty, [],
    fun n _ => n = 1500 ∨ n = 1600, []⟩

def unreachableFrom (k : ℕ) (held : List (NodeId × Lock)) : Env ℕ :=
  ⟨brokenAt .secondReply .bindSocket,
    fun i => if i = k then brokenAt .connect .connectSocket else brokenAt .secondReply .bindSocket,
    fun _ => false, .ofSendable, held⟩

/-- The broadcast of a handled write stops at its first node: the record has the new value and no sharers, and both
copies are still there. -/
theorem sharers_forgotten :
    ¬ ∀ (s t : Server ℕ) (env : Env ℕ) (d : SaveData ℕ) (p : HomeWrite ℕ) (stage : Stage) (op : NetworkOp),
    p.data.ga.id = s.id → s.mem p.data.ga.ptr = some d → stage ≠ .serve →
      (p.run env).exec s = some (.error (.thrown stage op), t) → Recoverable d p.data.ga t := by
  intro h
  have hthrown : (((HomeWrite.handleWrite ⟨8, 2, ⟨8, 4096, 3000⟩⟩ 1000).run (unreachableFrom 0 [])).exec sharedHome).map
      (fun p => (p.1, p.2.mem 4096)) = some (.error (.thrown .connect .connectSocket), some (.owned 2 1000)) := rfl
  obtain ⟨⟨r, t⟩, hexec, hexit⟩ := Option.map_eq_some_iff.mp hthrown
  obtain ⟨rfl, hmem⟩ := Prod.mk.inj hexit
  obtain ⟨d, hd, hdata, -⟩ := (h sharedHome t _ _ _ _ _ rfl rfl (by decide) hexec).kept
  obtain rfl : SaveData.owned 2 1000 = d := Option.some.inj (hmem.symm.trans hd)
  cases hdata

/-- `Node::write` stops at the second node, and can be tried again: node 1000 has sent an UNLOCKED meanwhile. -/
theorem sharers_remembered :
    ∃ t, ((HomeWrite.write ⟨8, 2, ⟨8, 4096, 3000⟩⟩).run
      (unreachableFrom 1 [(1000, ⟨3000, .unlocked⟩)])).exec sharedHome =
        some (.error (.thrown .connect .connectSocket), t) ∧ t.copies 1500 (GlobalAddress.mk 8 4096 3000).hash = false ∧
      Recoverable ⟨1, .shared, 3000, [1500, 1600]⟩ ⟨8, 4096, 3000⟩ t := by
  have hthrown : (((HomeWrite.write ⟨8, 2, ⟨8, 4096, 3000⟩⟩).run
      (unreachableFrom 1 [(1000, ⟨3000, .unlocked⟩)])).exec sharedHome).map
        (fun p => (p.1, p.2.copies 1500 (GlobalAddress.mk 8 4096 3000).hash)) =
          some (.error (.thrown .connect .connectSocket), false) := rfl
  obtain ⟨⟨r, t⟩, hexec, hexit⟩ := Option.map_eq_some_iff.mp hthrown
  obtain ⟨rfl, hgone⟩ := Prod.mk.inj hexit
  exact ⟨t, hexec, hgone,
    (recoverable_iff (p := .write _) rfl rfl (by decide) hexec).mpr (Or.inl ⟨1000, rfl⟩)⟩

end CacheCoherence.Failure
