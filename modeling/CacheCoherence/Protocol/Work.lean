import CacheCoherence.Foundation.Potentials
import CacheCoherence.Protocol.Sessions

/-! # How long calls keep the system busy

Every call is paid for when it begins: for the steps of its own thread, for those of the nodes that serve it, and
for the invalidation of the copy that it may leave behind. What has been paid and not been used is a potential
that every other step lowers.
-/
namespace CacheCoherence.Protocol
open TransitionRuns Potentials

def sharerCount : Option Block → ℕ
  | some b => b.record.sharerNodes.length
  | none => 0

/-- The handling of a request, up to its reply, without the invalidation of the sharers there are. A READ also pays
for the invalidation of the reader. A thread that serves has been paid for RESET already. -/
def Request.work : Request → ℕ
  | .read _ => 8
  | .write _ => 2
  | .free _ => 3
  | .malloc _ | .locks _ | .invalidate _ => 1
  | .reset => 0

def Broadcaster.work : Broadcaster → ℕ
  | .write _ => 9
  | .free => 2
  | .handleFree _ _ => 3
  | .startInvalidations _ _ => 1

def LockSite.work : LockSite → ℕ
  | .acquire _ => 21
  | .release _ | .call _ => 0

def Exchange.work : Exchange → ℕ
  | .setLock k => k.work
  | .performRead _ | .performWrite _ | .reconnect _ _ => 7
  | .invalidate _ rest _ b => 7 * rest.length + b.work
  | .free _ | .malloc _ | .forward _ _ => 0

/-- From the poll for the reply on. A write may have to poll twice, and to wait for an invalidation. -/
def Exchange.waiting : Exchange → ℕ
  | .performWrite _ => 14
  | e => 2 + e.work

/-- From `connectClientSocket` on. A request that is forwarded gets no further. -/
def Exchange.connecting (n : NodeId) : Exchange → ℕ
  | .forward _ _ => 0
  | e => 3 + e.waiting + (e.request n).work

def Ctl.work (n : NodeId) : Ctl → ℕ
  | .idle | .crashed => 0
  | .serving _ => 1
  | .setLock k => 7 + k.work
  | .access _ => 21
  | .memcpy _ => 8
  | .free _ => 9
  | .malloc _ => 7
  | .broadcast nodes _ b => 7 * nodes.length + b.work
  | .discard _ none => 1
  | .discard _ (some _) => 2
  | .exchange .connecting e => e.connecting n
  | .exchange .connected e => e.connecting n - 2
  | .exchange .waiting e => e.waiting
  | .exchange .again _ => 13
  | .closing e _ => 1 + e.work
  | .startInvalidations _ _ nodes _ => 7 * nodes.length + 2

/-- The record whose sharers the thread has a copy of, and which it is going to overwrite or free. -/
def Broadcaster.claims (ga : GlobalAddress) : Broadcaster → Option UInt64
  | .write d => some d.ga.ptr
  | .free | .handleFree _ _ => some ga.ptr
  | .startInvalidations _ _ => none

def Ctl.claims : Ctl → Option UInt64
  | .memcpy d => some d.ga.ptr
  | .broadcast _ ga b => b.claims ga
  | .discard ga _ => some ga.ptr
  | .exchange _ (.invalidate _ _ ga b) | .closing (.invalidate _ _ ga b) _ => b.claims ga
  | .startInvalidations _ d _ _ => some d.ga.ptr
  | _ => none

/-- A suspended write still has to connect again. -/
def NodeState.work (n : NodeId) (ns : NodeState) : ℕ :=
  ns.ctl.work n + 12 * ns.suspended.length + 7 * weight sharerCount ns.mem ns.ctl.claims

def channelWork : Option Channel → ℕ
  | some ch => ch.up.elim 0 Request.work
  | none => 0

def State.work (s : State) : ℕ := ∑ n, (s.node n).work n + ∑ n, channelWork (s.net n)

def Action.begins : Action → Bool
  | .begin _ _ => true
  | _ => false

/-- The entries that a fresh block happens to have for sharers. -/
def Action.garbage : Action → ℕ
  | .exec _ env => env.block.elim 0 fun p => p.2.sharerNodes.length
  | _ => 0

def Action.cost (a : Action) : ℕ := (if a.begins then 28 else 0) + 7 * a.garbage

section
variable {s t : State} {n m p : NodeId} {e : Effect} {env : Env} {x : Ctl} {a : Action} {ns : NodeState}
variable {mem : UInt64 → Option Block} {ptr : UInt64} {d : SaveData Word} {y : Exchange} {ch : Channel}

theorem sharerCount_map_le (b : Option Block) : sharerCount (b.map fun b => { b with record := d }) ≤
    d.sharerNodes.length := by
  cases b with
  | none => exact Nat.zero_le _
  | some b => exact le_rfl

/-- Reading the sharers of a record moves what is paid for them to the thread. -/
theorem weight_claimed {b : Block} (hb : mem ptr = some b) :
    weight sharerCount mem (some ptr) + b.record.sharerNodes.length = weight sharerCount mem none := by
  have h := weight_some sharerCount mem ptr
  rwa [hb] at h

theorem weight_copyRecord (ns : NodeState) (ptr : UInt64) (d : SaveData Word) :
    weight sharerCount (ns.copyRecord ptr d).mem none ≤
      weight sharerCount ns.mem (some ptr) + d.sharerNodes.length := by
  have h := weight_update_none sharerCount ns.mem ptr ((ns.mem ptr).map fun b => { b with record := d })
  have hcount := sharerCount_map_le (d := d) (ns.mem ptr)
  rw [NodeState.copyRecord, h]
  omega

theorem endSession_work (n : NodeId) (ns : NodeState) :
    ns.endSession.ctl.work n + 12 * ns.endSession.suspended.length ≤ 12 * ns.suspended.length ∧
      ns.endSession.ctl.claims = none := by
  unfold NodeState.endSession
  split
  · rename_i d result rest hs
    rw [hs]
    refine ⟨?_, rfl⟩
    simp only [Ctl.work, Exchange.connecting, Exchange.waiting, Exchange.work, Exchange.request, Request.work,
      List.length_cons]
    omega
  · rename_i hs
    exact ⟨by simp [Ctl.work], rfl⟩

theorem lockAnswer_work (n : NodeId) (ns : NodeState) (g : Bool) (k : LockSite) :
    (ns.lockAnswer n g k).1.ctl.work n ≤ k.work ∧ (ns.lockAnswer n g k).1.ctl.claims = none := by
  unfold NodeState.lockAnswer
  split
  · split <;> exact ⟨by simp [Ctl.work, LockSite.work], rfl⟩
  · split <;> exact ⟨by simp [Ctl.work], rfl⟩
  all_goals exact ⟨by simp [Ctl.work], rfl⟩

theorem closed_work (n : NodeId) (ns : NodeState) (y : Exchange) (r : Reply) :
    (ns.closed n y r).1.ctl.work n ≤ y.work ∧ (ns.closed n y r).1.ctl.claims = (Ctl.closing y r).claims ∨
      (ns.closed n y r).1.ctl = .crashed ∧ (Ctl.closing y r).claims = none := by
  cases y with
  | setLock k =>
    cases r with
    | lock granted => exact Or.inl (lockAnswer_work n ns granted k)
    | _ => exact Or.inr ⟨rfl, rfl⟩
  | performRead ga =>
    cases r with
    | data w => exact Or.inl ⟨le_rfl, rfl⟩
    | _ => exact Or.inr ⟨rfl, rfl⟩
  | performWrite d =>
    cases r with
    | address sga => exact Or.inl ⟨le_rfl, rfl⟩
    | _ => exact Or.inr ⟨rfl, rfl⟩
  | free ga =>
    cases r with
    | address sga => exact Or.inl ⟨le_rfl, rfl⟩
    | _ => exact Or.inr ⟨rfl, rfl⟩
  | invalidate m rest ga b => exact Or.inl ⟨le_rfl, rfl⟩
  | reconnect d result => exact Or.inl ⟨le_rfl, rfl⟩
  | malloc size => exact Or.inr ⟨rfl, rfl⟩
  | forward c r => exact Or.inr ⟨rfl, rfl⟩

def Effect.posted (e : Effect) : ℕ := e.wire.elim 0 fun p => channelWork p.2

def Effect.taken (e : Effect) (s : State) : ℕ := e.wire.elim 0 fun p => channelWork (s.net p.1)

/-- A move from `x` is paid for by the thread, by what it takes from a connection and by what `malloc(3)` finds. -/
def Paid (s : State) (n : NodeId) (env : Env) (x : Ctl) (e : Effect) : Prop :=
  e.self.work n + e.posted + 1 ≤ x.work n + 12 * (s.node n).suspended.length +
    7 * weight sharerCount (s.node n).mem x.claims + e.taken s + 7 * (Action.exec n env).garbage

theorem work_goto (n : NodeId) (ns : NodeState) (x : Ctl) :
    (ns.goto x).work n = x.work n + 12 * ns.suspended.length + 7 * weight sharerCount ns.mem x.claims := rfl

theorem work_apply (s : State) (n : NodeId) (e : Effect) :
    (e.apply s n).work + (s.node n).work n + e.taken s = s.work + e.self.work n + e.posted := by
  have hnode := sum_update (fun m ns => NodeState.work m ns) s.node n e.self
  cases hw : e.wire with
  | none =>
    simp only [State.work, Effect.apply, Effect.posted, Effect.taken, hw, Option.elim_none]
    omega
  | some p =>
    have hnet := sum_update (fun _ ch => channelWork ch) s.net p.1 p.2
    simp only [State.work, Effect.apply, Effect.posted, Effect.taken, hw, Option.elim_some]
    omega

theorem endSession_node (n : NodeId) (ns : NodeState) :
    ns.endSession.work n ≤ 12 * ns.suspended.length + 7 * weight sharerCount ns.mem none := by
  obtain ⟨hwork, hclaims⟩ := endSession_work n ns
  rw [NodeState.work, hclaims, NodeState.endSession_mem]
  omega

theorem lockAnswer_node (n : NodeId) (ns : NodeState) (g : Bool) (k : LockSite) : (ns.lockAnswer n g k).1.work n ≤
    k.work + 12 * ns.suspended.length + 7 * weight sharerCount ns.mem none := by
  obtain ⟨hwork, hclaims⟩ := lockAnswer_work n ns g k
  rw [NodeState.lockAnswer_fst, work_goto, hclaims]
  omega

theorem closed_node (n : NodeId) (ns : NodeState) (y : Exchange) (r : Reply) : (ns.closed n y r).1.work n ≤
    y.work + 12 * ns.suspended.length + 7 * weight sharerCount ns.mem (Ctl.closing y r).claims := by
  rw [NodeState.closed_fst, work_goto]
  rcases closed_work n ns y r with ⟨hwork, hclaims⟩ | ⟨hcrash, hnone⟩
  · rw [hclaims]
    omega
  · rw [hcrash, hnone]
    simp only [Ctl.work, Ctl.claims]
    omega

theorem copyRecord_node (n : NodeId) (ns : NodeState) (ptr : UInt64) (d : SaveData Word) (x : Ctl)
    (hx : x.claims = none) : ((ns.copyRecord ptr d).goto x).work n ≤
      x.work n + 12 * ns.suspended.length + 7 * (weight sharerCount ns.mem (some ptr) + d.sharerNodes.length) := by
  have h := weight_copyRecord ns ptr d
  rw [work_goto, hx, NodeState.copyRecord_suspended]
  omega

/-- The reply to a request is paid for by the request, and the sharers that are to be invalidated by their record. -/
theorem Serves.work {c : NodeId} {k : ℕ} {r : Request} (hx : ns.ctl = .serving c) (h : Serves n ns env c ch k r e) :
    e.self.work n + e.posted + 1 ≤ ns.work n + (e.wire.elim 0 fun _ => r.work) + 7 * (Action.exec n env).garbage := by
  have hns : ns.work n = 1 + 12 * ns.suspended.length + 7 * weight sharerCount ns.mem none := by
    simp only [NodeState.work, hx, Ctl.work, Ctl.claims]
  have hcopy : ∀ ptr (d : SaveData Word), (ns.copyRecord ptr d).work n ≤
      1 + 12 * ns.suspended.length + 7 * (weight sharerCount ns.mem (some ptr) + d.sharerNodes.length) := by
    intro ptr d
    have hnode := copyRecord_node n ns ptr d (.serving c) rfl
    have hctl : (ns.copyRecord ptr d).goto (.serving c) = ns.copyRecord ptr d := by
      rw [← hx]
      rfl
    rw [hctl] at hnode
    simpa only [Ctl.work] using hnode
  cases h with
  | malloc sga ptr content hblock =>
    have hmem := weight_update_none sharerCount ns.mem ptr (some ⟨sga.size, stampRecord k content⟩)
    have hle := weight_some_le sharerCount ns.mem ptr
    have hcount : sharerCount (some ⟨sga.size, stampRecord k content⟩) = content.sharerNodes.length := rfl
    rw [hcount] at hmem
    simp only [NodeState.work, hx, Ctl.work, Ctl.claims, Effect.posted, Option.elim_some, channelWork, Channel.reply,
      Option.elim_none, Request.work, Action.garbage, hblock]
    omega
  | read sga b hl hb hr =>
    have hclaimed := weight_claimed hb
    have hle := hcopy sga.ptr (b.record.register sga.srcID)
    simp only [SaveData.register_sharerNodes, List.length_append, List.length_singleton] at hle
    simp only [Effect.posted, Option.elim_some, channelWork, Channel.reply, Option.elim_none, Request.work]
    omega
  | readNull sga b =>
    simp only [work_goto, Ctl.work, Ctl.claims, Effect.posted, Option.elim_none, Request.work]
    omega
  | readCached sga it =>
    simp only [NodeState.work, hx, Ctl.work, Ctl.claims, Effect.posted, Option.elim_some, channelWork, Channel.reply,
      Option.elim_none, Request.work]
    omega
  | write sd b hl hb =>
    have hle := hcopy sd.sga.ptr (.owned sd.data sd.sga.srcID)
    have hsome := weight_some_le sharerCount ns.mem sd.sga.ptr
    simp only [SaveData.owned_sharerNodes, List.length_nil] at hle
    simp only [Effect.posted, Option.elim_some, channelWork, Channel.reply, Option.elim_none, Request.work]
    omega
  | writeShared sd b hl hb =>
    have hclaimed := weight_claimed hb
    simp only [work_goto, Ctl.work, Ctl.claims, Effect.posted, Option.elim_some, channelWork, Channel.reply,
      Option.elim_none, Request.work, Data.ofSendable, GlobalAddress.ofSendable]
    omega
  | free sga b hl hb =>
    have hclaimed := weight_claimed hb
    cases hinv : b.record.freeInvalidates with
    | true =>
      simp only [work_goto, if_true, Ctl.work, Ctl.claims, Broadcaster.work, Broadcaster.claims, Effect.posted,
        Option.elim_some, channelWork, Option.elim_none, Request.work, GlobalAddress.ofSendable]
      omega
    | false =>
      simp only [work_goto, Bool.false_eq_true, if_false, Ctl.work, Ctl.claims, Effect.posted,
        Option.elim_some, channelWork, Option.elim_none, Request.work, GlobalAddress.ofSendable]
      omega
  | locks l =>
    simp only [NodeState.work, hx, Ctl.work, Ctl.claims, Effect.posted, Option.elim_some, channelWork, Channel.reply,
      Option.elim_none, Request.work]
    omega
  | reset =>
    have hend := endSession_node n ns
    simp only [Effect.posted, Option.elim_some, channelWork, Channel.reply, Option.elim_none, Request.work]
    omega
  | invalidate sga =>
    simp only [NodeState.work, hx, Ctl.work, Ctl.claims, Effect.posted, Option.elim_some, channelWork, Channel.reply,
      Option.elim_none, Request.work]
    omega
  | forward r hf =>
    simp only [Protocol.forward, work_goto, Ctl.work, Exchange.connecting, Ctl.claims, Effect.posted, Option.elim_some,
      channelWork, Option.elim_none]
    omega

theorem Opens.work (h : Opens n ns env x y) :
    y.connecting n + 1 ≤ x.work n ∧ x.claims = (Ctl.exchange .connecting y).claims := by
  cases h with
  | invalidate m rest ga b =>
    refine ⟨?_, rfl⟩
    simp only [Exchange.connecting, Exchange.waiting, Exchange.work, Exchange.request, Request.work, Ctl.work,
      List.length_cons]
    omega
  | _ =>
    refine ⟨?_, rfl⟩
    simp only [Exchange.connecting, Exchange.waiting, Exchange.work, Exchange.request, Request.work, Ctl.work]
    omega

theorem paid_goto {x' : Ctl} {w : Option (NodeId × Option Channel)} {l : List Event} (hmem : ns.mem = (s.node n).mem)
    (hsus : ns.suspended = (s.node n).suspended) (hclaims : x'.claims = x.claims)
    (hwork : x'.work n + (w.elim 0 fun p => channelWork p.2) + 1 ≤ x.work n) : Paid s n env x ⟨ns.goto x', w, l⟩ := by
  simp only [Paid, work_goto, hmem, hsus, hclaims, Effect.posted]
  omega

theorem paid_claim {b : Bool} {x' x'' : Ctl} {blk : Block} {l : List Event} (hb : (s.node n).mem ptr = some blk)
    (hx : x.claims = none) (hx' : x'.claims = some ptr) (hx'' : x''.claims = some ptr)
    (hwork : x'.work n + 1 ≤ x.work n + 7 * blk.record.sharerNodes.length) (hwork' : x''.work n + 1 ≤ x.work n) :
    Paid s n env x ⟨(s.node n).goto (if b then x' else x''), none, l⟩ := by
  have hclaimed := weight_claimed hb
  rw [Paid, hx, work_goto]
  cases b with
  | true =>
    simp only [if_true, hx', Effect.posted, Option.elim_none]
    omega
  | false =>
    simp only [Bool.false_eq_true, if_false, hx'', Effect.posted, Option.elim_none]
    omega

theorem paid_copyRecord {x' : Ctl} {record : SaveData Word} {w : Option (NodeId × Option Channel)} {l : List Event}
    (hrecord : record.sharerNodes = []) (hx : x.claims = some ptr) (hx' : x'.claims = none)
    (hwork : x'.work n + (w.elim 0 fun p => channelWork p.2) + 1 ≤ x.work n) :
    Paid s n env x ⟨((s.node n).copyRecord ptr record).goto x', w, l⟩ := by
  have hle := copyRecord_node n (s.node n) ptr record x' hx'
  rw [hrecord, List.length_nil, add_zero] at hle
  simp only [Paid, hx, Effect.posted]
  omega

theorem paid_discard {x' : Ctl} {w : Option (NodeId × Option Channel)} {l : List Event} (hx : x.claims = some ptr)
    (hx' : x'.claims = none) (hwork : x'.work n + (w.elim 0 fun p => channelWork p.2) + 1 ≤ x.work n) :
    Paid s n env x ⟨{ s.node n with mem := Function.update (s.node n).mem ptr none }.goto x', w, l⟩ := by
  have hmem := weight_update_none sharerCount (s.node n).mem ptr none
  have hcount : sharerCount none = 0 := rfl
  simp only [Paid, hx, work_goto, hx', Effect.posted]
  omega

/-- The entries that `malloc(3)` leaves in a fresh record are garbage. -/
theorem paid_malloc {content : SaveData UInt64} {size : UInt64} {k : ℕ} {l : List Event}
    (hblock : env.block = some (ptr, content)) : Paid s n env (.malloc size)
      ⟨({ s.node n with mem := (Function.update (s.node n).mem ptr (some ⟨size, stampRecord k content⟩)) }).goto .idle,
        none, l⟩ := by
  have hmem := weight_update_none sharerCount (s.node n).mem ptr (some ⟨size, stampRecord k content⟩)
  have hle := weight_some_le sharerCount (s.node n).mem ptr
  have hcount : sharerCount (some ⟨size, stampRecord k content⟩) = content.sharerNodes.length := rfl
  rw [hcount] at hmem
  simp only [Paid, work_goto, Ctl.work, Ctl.claims, Effect.posted, Option.elim_none, Action.garbage, hblock,
    Option.elim_some]
  omega

theorem paid_lockGrant {k : LockSite} {locks : LockTable} {granted : Bool} {l : List Event} :
    Paid s n env (.setLock k) ⟨({ s.node n with locks := locks }.lockAnswer n granted k).1, none, l⟩ := by
  have hle := lockAnswer_node n { s.node n with locks := locks } granted k
  dsimp only at hle
  simp only [Paid, Ctl.work, Ctl.claims, Effect.posted, Option.elim_none]
  omega

theorem paid_closed {r : Reply} : Paid s n env (.closing y r)
    ⟨((s.node n).closed n y r).1, some (n, none), ((s.node n).closed n y r).2⟩ := by
  have hle := closed_node n (s.node n) y r
  simp only [Paid, Ctl.work, Effect.posted, Option.elim_some, channelWork]
  omega

theorem paid_swept (ga : GlobalAddress) (b : Broadcaster) :
    Paid s n env (.broadcast [] ga b) (stepBroadcast (s.node n) ga b []) := by
  cases b with
  | write d => exact paid_goto rfl rfl rfl (by simp [Ctl.work, Broadcaster.work])
  | free => exact paid_goto rfl rfl rfl (by simp [Ctl.work, Broadcaster.work])
  | handleFree c srcID => exact paid_goto rfl rfl rfl (by simp [Ctl.work, Broadcaster.work])
  | startInvalidations d srcID =>
    have hend := endSession_node n (s.node n)
    simp only [stepBroadcast, Paid, Ctl.work, Ctl.claims, Broadcaster.work, Broadcaster.claims, Effect.posted,
      Option.elim_none, List.length_nil]
    omega

theorem Sessions.connecting_work {ph : Phase} (hS : Sessions s) (hx : (s.node n).ctl = .exchange ph y)
    (hother : ph = .connecting → y.target ≠ n) : y.connecting n = 3 + y.waiting + (y.request n).work := by
  cases y with
  | forward c r =>
    -- a handler forwards a request to its own node only, which never accepts it
    obtain ⟨hph, hself⟩ := (hS.stuck n).1 ph c r hx
    exact absurd hself (hother hph)
  | _ => rfl

theorem Sessions.paid_send (hS : Sessions s) (hx : (s.node n).ctl = .exchange .connected y) :
    Paid s n env (.exchange .connected y)
      ⟨(s.node n).goto (.exchange .waiting y), some (n, some { ch with up := some (y.request n) }), []⟩ := by
  have hconnecting := hS.connecting_work hx fun hph => by cases hph
  refine paid_goto rfl rfl (by cases y <;> rfl) ?_
  simp only [Ctl.work, hconnecting, Option.elim_some, channelWork]
  omega

theorem paid_received {r : Reply} {rest : List Reply} : Paid s n env (.exchange .waiting y)
    ⟨(s.node n).goto (.closing y r), some (n, some { ch with up := some .reset, down := rest }), []⟩ := by
  have hwaiting : 2 + y.work ≤ y.waiting := by cases y <;> simp [Exchange.waiting, Exchange.work]
  refine paid_goto rfl rfl (by cases y <;> rfl) ?_
  simp only [Ctl.work, Request.work, Option.elim_some, channelWork]
  omega

theorem paid_serve {c : NodeId} {k : ℕ} {r : Request} (hx : (s.node n).ctl = .serving c) (hch : s.net c = some ch)
    (hr : ch.up = some r) (h : Serves n (s.node n) env c ch k r e) : Paid s n env (.serving c) e := by
  have hserves := h.work hx
  have htaken : e.taken s = e.wire.elim 0 fun _ => r.work := by
    rcases h.wire with hw | ⟨ch', hw, -⟩
    · rw [Effect.taken, hw, Option.elim_none, Option.elim_none]
    · rw [Effect.taken, hw, Option.elim_some, Option.elim_some, hch, channelWork, hr, Option.elim_some]
  have hnode : (s.node n).work n = (Ctl.serving c).work n + 12 * (s.node n).suspended.length +
      7 * weight sharerCount (s.node n).mem (Ctl.serving c).claims := by
    rw [← hx]
    rfl
  rw [Paid]
  omega

theorem Misreads.paid {r : Reply} (h : Misreads x r) : Paid s n env x ⟨(s.node n).goto .crashed, none, []⟩ := by
  cases h <;> exact paid_goto rfl rfl rfl (by simp [Ctl.work, Exchange.waiting, Exchange.work])

/-- A thread that moves on uses up what has been paid for it, unless `malloc(3)` finds sharers. -/
theorem Moves.work (hS : Sessions s) (hx : (s.node n).ctl = x) (h : Moves s n env x e) : Paid s n env x e := by
  cases h with
  | lockGrant => exact paid_lockGrant
  | connect _ y hopens =>
    obtain ⟨hwork, hclaims⟩ := hopens.work
    exact paid_goto rfl rfl hclaims.symm hwork
  | readLocal => exact paid_goto rfl rfl rfl (by simp [Ctl.work, LockSite.work])
  | readCached => exact paid_goto rfl rfl rfl (by simp [Ctl.work, LockSite.work])
  | writeLocal d b hl hb =>
    refine paid_claim hb rfl rfl rfl ?_ (by simp [Ctl.work])
    simp only [Ctl.work, Broadcaster.work]
    omega
  | memcpy d b hb =>
    exact paid_copyRecord (SaveData.written_sharerNodes ..) rfl rfl (by simp [Ctl.work, LockSite.work])
  | freeLocal ga b hl hb =>
    refine paid_claim hb rfl rfl rfl ?_ (by simp [Ctl.work])
    simp only [Ctl.work, Broadcaster.work]
    omega
  | mallocLocal size ptr content hblock => exact paid_malloc hblock
  | swept ga b => exact paid_swept ga b
  | discardOwn => exact paid_discard rfl rfl (by simp [Ctl.work])
  | discardFor => exact paid_discard rfl rfl (by simp [Ctl.work, channelWork, Channel.reply])
  | sendWrite d ch cache =>
    refine paid_goto rfl rfl rfl ?_
    simp [Ctl.work, Exchange.connecting, Exchange.waiting, Exchange.request, Request.work, channelWork]
  | sendReset d result ch =>
    refine paid_goto rfl rfl rfl ?_
    simp [Ctl.work, Exchange.connecting, Exchange.waiting, Exchange.work, Exchange.request, Request.work, channelWork]
  | send y ch => exact hS.paid_send hx
  | fetched ga w rest ch cache =>
    refine paid_goto rfl rfl rfl ?_
    simp [Ctl.work, Exchange.waiting, Exchange.work, Request.work, channelWork]
  | invalidated d sga rest ch hch =>
    -- only a reply is polled: what is on its way to the home stays there
    simp only [Paid, work_goto, Ctl.work, Ctl.claims, Exchange.waiting, Effect.posted, Effect.taken, Option.elim_some,
      hch, channelWork]
    omega
  | received => exact paid_received
  | mallocReturn size sga rest ch =>
    exact paid_goto rfl rfl rfl (by simp [Ctl.work, Exchange.waiting, Exchange.work, channelWork])
  | suspend d sga rest ch =>
    simp only [Paid, NodeState.work, NodeState.goto, Ctl.work, Ctl.claims, List.length_cons, Effect.posted,
      Option.elim_some, channelWork]
    omega
  | sendCrash d ch =>
    exact paid_goto rfl rfl rfl
      (by simp [Ctl.work, Exchange.connecting, Exchange.waiting, Exchange.request, Request.work])
  | fetchCrash ga w rest ch =>
    exact paid_goto rfl rfl rfl (by simp [Ctl.work, Exchange.waiting, Exchange.work])
  | misread _ r rest ch hch hd hmis => exact hmis.paid
  | closed => exact paid_closed
  | serve c ch r e hch hpeer hr hs => exact paid_serve hx hch hr hs
  | startInvalidations c d nodes srcID ch b hch hb =>
    refine paid_copyRecord (SaveData.owned_sharerNodes ..) rfl rfl ?_
    simp only [Ctl.work, Broadcaster.work, Option.elim_some, channelWork, Channel.reply, Option.elim_none]
    omega

/-- The server pays for the RESET at the end, which the client has saved for it. -/
theorem accepted_work (hS : Sessions s) (hc : (s.node p).ctl = .exchange .connecting y)
    (hm : (s.node m).ctl = .idle) (htarget : y.target = m) : (s.accepted m p y).work + 1 ≤ s.work := by
  have hne : m ≠ p := ne_of_idle_connecting hc hm
  have hserver := sum_update (fun q ns => NodeState.work q ns) s.node m ((s.node m).goto (.serving p))
  have hclient := sum_update (fun q ns => NodeState.work q ns)
    (Function.update s.node m ((s.node m).goto (.serving p))) p ((s.node p).goto (.exchange .connected y))
  have hnet := sum_update (fun _ ch => channelWork ch) s.net p (some ⟨m, none, [], true⟩)
  rw [Function.update_of_ne hne.symm] at hclient
  have hconnecting := hS.connecting_work hc fun _ hself => hne (htarget.symm.trans hself)
  have hidle : (s.node m).work m = 12 * (s.node m).suspended.length + 7 * weight sharerCount (s.node m).mem none := by
    simp only [NodeState.work, hm, Ctl.work, Ctl.claims]
    omega
  have hserving : ((s.node m).goto (.serving p)).work m =
      1 + 12 * (s.node m).suspended.length + 7 * weight sharerCount (s.node m).mem none := rfl
  have hwaits : (s.node p).work p = y.connecting p + 12 * (s.node p).suspended.length +
      7 * weight sharerCount (s.node p).mem (Ctl.exchange .connecting y).claims := by
    rw [NodeState.work, hc]
    rfl
  have hconnected : ((s.node p).goto (.exchange .connected y)).work p =
      y.connecting p - 2 + 12 * (s.node p).suspended.length +
        7 * weight sharerCount (s.node p).mem (Ctl.exchange .connecting y).claims := by
    cases y <;> rfl
  have hempty : channelWork (some ⟨m, none, [], true⟩) = 0 := rfl
  rw [hidle, hserving] at hserver
  rw [hwaits, hconnected, hconnecting] at hclient
  rw [hempty] at hnet
  simp only [State.work, State.accepted]
  omega

theorem start_work (n : NodeId) (op : Op Word) : op.start.work n ≤ 28 ∧ op.start.claims = none := by
  cases op with
  | read | write => exact ⟨le_rfl, rfl⟩
  | free ga =>
    refine ⟨?_, rfl⟩
    simp only [Op.start, Ctl.work]
    omega
  | malloc size =>
    refine ⟨?_, rfl⟩
    simp only [Op.start, Ctl.work]
    omega
  | setLock l =>
    refine ⟨?_, rfl⟩
    simp only [Op.start, Ctl.work, LockSite.work]
    omega

theorem begun_work (hidle : (s.node n).ctl = .idle) (hsus : (s.node n).suspended = []) (op : Op Word) :
    (s.begun n op).work ≤ s.work + 28 := by
  have happly := work_apply s n ⟨(s.node n).goto op.start, none, [.call n op]⟩
  obtain ⟨hwork, hclaims⟩ := start_work n op
  have hnode : (s.node n).work n = 7 * weight sharerCount (s.node n).mem none := by
    simp [NodeState.work, hidle, hsus, Ctl.work, Ctl.claims]
  have hposted : Effect.posted ⟨(s.node n).goto op.start, none, [.call n op]⟩ = 0 := rfl
  rw [hposted] at happly
  simp only [work_goto, hclaims, hsus, hnode, List.length_nil] at happly
  rw [State.begun]
  omega

/-- Every step but the begin of a call is paid for. -/
theorem Steps.work (hS : Sessions s) (h : Steps s a t) :
    t.work + (if a.begins then 0 else 1) ≤ s.work + a.cost := by
  cases h with
  | begin n op hidle hsus =>
    have hbegins : (Action.begin n op).begins = true := rfl
    have hcost : Action.cost (.begin n op) = 28 := rfl
    rw [hbegins, if_pos rfl, hcost, add_zero]
    exact begun_work hidle hsus _
  | accept m c y hc htarget hm =>
    have hbegins : (Action.accept m c).begins = false := rfl
    have hcost : Action.cost (.accept m c) = 0 := rfl
    rw [hbegins, if_neg Bool.false_ne_true, hcost, add_zero]
    exact accepted_work hS hc hm htarget
  | exec n env e hsound hmoves =>
    have hpaid := hmoves.work hS rfl
    have hnode : (s.node n).work n = (s.node n).ctl.work n + 12 * (s.node n).suspended.length +
        7 * weight sharerCount (s.node n).mem (s.node n).ctl.claims := rfl
    have happly := work_apply s n e
    have hbegins : (Action.exec n env).begins = false := rfl
    have hcost : Action.cost (.exec n env) = 7 * (Action.exec n env).garbage := Nat.zero_add _
    rw [hbegins, if_neg Bool.false_ne_true, hcost]
    rw [Paid] at hpaid
    omega

theorem sum_cost (as : List Action) :
    (as.map Action.cost).sum = 28 * as.countP Action.begins + 7 * (as.map Action.garbage).sum := by
  induction as with
  | nil => rfl
  | cons a as ih =>
    rw [List.map_cons, List.sum_cons, ih, List.countP_cons, List.map_cons, List.sum_cons, Action.cost]
    split <;> omega

theorem sum_steps (as : List Action) :
    (as.map fun a => if a.begins then 0 else 1).sum = as.countP fun a => !a.begins := by
  induction as with
  | nil => rfl
  | cons a as ih =>
    rw [List.map_cons, List.sum_cons, ih, List.countP_cons, add_comm]
    cases a.begins <;> rfl

theorem Quiet.work (hs : Quiet s) : s.work = 7 * ∑ n, ∑ ptr, sharerCount ((s.node n).mem ptr) := by
  have hnode : ∀ n, (s.node n).work n = 7 * ∑ ptr, sharerCount ((s.node n).mem ptr) := by
    intro n
    rw [NodeState.work, hs.idle n, hs.suspended n, ← weight_none]
    simp [Ctl.work, Ctl.claims]
  have hnet : ∀ n, channelWork (s.net n) = 0 := by
    intro n
    rw [hs.net n]
    rfl
  simp only [State.work, hnode, hnet, Finset.sum_const_zero, add_zero, Finset.mul_sum]

/-- The calls of a run bound its steps: whatever the nodes do and however the calls interleave, a call costs at most
twenty-eight steps, and a sharer that a record has to begin with, seven. -/
theorem steps_le_calls {as : List Action} (hs : Quiet s) (h : run step s as = some t) :
    as.countP (fun a => !a.begins) ≤ 28 * as.countP Action.begins +
      7 * (∑ n, ∑ ptr, sharerCount ((s.node n).mem ptr) + (as.map Action.garbage).sum) := by
  have hrun := work_le (I := Sessions) (Φ := State.work) (fun s a t hS ht => hS.steps (steps_of_step ht))
    (fun s a t hS ht => (steps_of_step ht).work hS) hs.sessions h
  rw [sum_cost, sum_steps, hs.work] at hrun
  omega

end

def fetchThenWrite : List Action :=
  [.begin 2000 (.read ⟨8, 4096, 3000⟩), go 2000, go 2000] ++ talk 2000 3000 ++ [go 2000] ++
    [.begin 3000 (.write ⟨8, 9, ⟨8, 4096, 3000⟩⟩), go 3000] ++ talk 3000 2000 ++ [go 3000, go 3000] ++
    talk 3000 2000 ++ [go 3000, go 3000, go 3000] ++ talk 3000 2000

theorem fetchThenWrite_steps : ∃ t, run step (.start homeBlock) fetchThenWrite = some t ∧
    (t.node 2000).ctl = .idle ∧ (t.node 3000).ctl = .idle ∧
    fetchThenWrite.countP (fun a => !a.begins) ≤ 28 * fetchThenWrite.countP Action.begins +
      7 * (∑ n, ∑ ptr, sharerCount (((State.start homeBlock).node n).mem ptr) +
        (fetchThenWrite.map Action.garbage).sum) := by
  have hrun : (run step (.start homeBlock) fetchThenWrite).map (fun t => ((t.node 2000).ctl, (t.node 3000).ctl)) =
      some (.idle, .idle) := by decide
  obtain ⟨t, ht, hall⟩ := Option.map_eq_some_iff.mp hrun
  obtain ⟨hreader, hwriter⟩ := Prod.mk.inj hall
  exact ⟨t, ht, hreader, hwriter, steps_le_calls (State.quiet_start homeBlock) ht⟩

end CacheCoherence.Protocol
