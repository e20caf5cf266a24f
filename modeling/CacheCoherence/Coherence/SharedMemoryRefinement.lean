import CacheCoherence.Coherence.Freeing
import CacheCoherence.Coherence.Results
import CacheCoherence.Coherence.SharedMemory
import CacheCoherence.Protocol.Waiting

/-! # The nodes as one shared memory

The stage of a call is read off the control of its node and the replies on its connection. Under this reading every
run of the nodes is a run of the shared memory: whatever a step reports, the shared memory can do.
-/
namespace CacheCoherence.Protocol
open TransitionRuns Traces

def LockSite.stage : LockSite → Stage
  | .acquire _ | .call _ => .called
  | .release (.read _ _) => .entered
  | .release (.write _ result) => .applied result

def Broadcaster.ongoing (ga : GlobalAddress) : Broadcaster → Option Call
  | .write d => some ⟨.write d, .entered, none⟩
  | .free => some ⟨.free ga, .called, none⟩
  | .handleFree _ _ | .startInvalidations _ _ => none

def Reply.granted : Reply → Option Bool
  | .lock granted => some granted
  | _ => none

def Exchange.ongoing (r : Option Reply) : Exchange → Option Call
  | .setLock k => some ⟨k.op, k.stage, r.bind Reply.granted⟩
  | .performRead ga => some ⟨.read ga, .entered, none⟩
  | .performWrite d =>
    match r with
    | some (.address sga) => some ⟨.write d, .applied (.ofSendable sga), none⟩
    | _ => some ⟨.write d, .entered, none⟩
  | .free ga =>
    match r with
    | some (.address sga) => some ⟨.free ga, .applied (.ofSendable sga), none⟩
    | _ => some ⟨.free ga, .called, none⟩
  | .malloc size =>
    match r with
    | some (.address sga) => some ⟨.malloc size, .applied (.ofSendable sga), none⟩
    | _ => some ⟨.malloc size, .called, none⟩
  | .invalidate _ _ ga b => b.ongoing ga
  | .reconnect d result => some ⟨.write d, .applied result, none⟩
  | .forward _ _ => none

def Ctl.ongoing (ch : Option Channel) : Ctl → Option Call
  | .setLock k => some ⟨k.op, k.stage, none⟩
  | .access a => some ⟨a.op, .entered, none⟩
  | .memcpy d => some ⟨.write d, .entered, none⟩
  | .free ga | .discard ga none => some ⟨.free ga, .called, none⟩
  | .malloc size => some ⟨.malloc size, .called, none⟩
  | .broadcast _ ga b => b.ongoing ga
  | .exchange .connecting e | .exchange .connected e => e.ongoing none
  | .exchange .waiting e | .exchange .again e => e.ongoing (ch.bind fun ch => ch.down.getLast?)
  | .closing e r => e.ongoing (some r)
  | .idle | .crashed | .discard _ (some _) | .serving _ | .startInvalidations .. => none

def NodeState.ongoing (ns : NodeState) (ch : Option Channel) : Option Call :=
  match ns.suspended with
  | (d, result) :: _ => some ⟨.write d, .applied result, none⟩
  | [] => ns.ctl.ongoing ch

def State.ongoing (s : State) (n : NodeId) : Option Call := (s.node n).ongoing (s.net n)

def State.memory (s : State) : Memory where
  cells n ptr := ((s.node n).mem ptr).map fun b => b.record.data
  held n ptr w := ∃ b, (s.node n).mem ptr = some b ∧ b.record.data = w
  locks := (s.node locknode).locks
  calls _ := none

/-- The nodes are the shared memory `M`. The call of a node that has crashed stays as it is. -/
structure Mirrors (s : State) (M : Memory) : Prop where
  cells : ∀ n ptr, M.cells n ptr = ((s.node n).mem ptr).map fun b => b.record.data
  locks : M.locks = (s.node locknode).locks
  calls : ∀ n, (s.node n).ctl ≠ .crashed → M.calls n = s.ongoing n

/-- What the move of `n` reports the shared memory can do, and then it is what the nodes are. -/
def Mirrored (s : State) (n : NodeId) (e : Effect) (M : Memory) : Prop :=
  ∃ M', Trace Memory.Does M e.events M' ∧ Mirrors (e.apply s n) M'

/-- Copies are of words that a cell under the same key has held, but for the one of a write that has not reached its
home. -/
structure Copied (s : State) (M : Memory) : Prop where
  cached : ∀ n k ga c, (s.node n).ctl ≠ .crashed → (s.node n).cache.Stores k ga c →
    M.Known k c.word ∨ ∃ d, (s.node n).ctl.sent = some d ∧ Pends s n d ∧ k = d.ga.hash ∧ c.word = d.data
  replied : ∀ n ga w, Arriving s n ga w → M.Known ga.hash w
  found : ∀ n ga w, (s.node n).ctl.found = some (ga, .copy w) → M.Known ga.hash w

section
variable {s t : State} {n m p c : NodeId} {e : Effect} {env : Env} {x : Ctl} {M M' : Memory} {y : Exchange}
variable {ns ns' : NodeState} {ch ch' : Option Channel} {k : LockSite} {g : Bool} {es : List Event}

theorem LockSite.asks (k : LockSite) : Call.asks ⟨k.op, k.stage, none⟩ = some k.lock := by
  cases k with
  | acquire a => cases a <;> rfl
  | release a => cases a <;> rfl
  | call l => rfl

theorem ongoing_congr (hs : ns'.suspended = ns.suspended) (ho : ns'.ctl.ongoing ch' = ns.ctl.ongoing ch) :
    ns'.ongoing ch' = ns.ongoing ch := by
  rw [NodeState.ongoing, NodeState.ongoing, hs, ho]

theorem ongoing_of_own (hs : ns.suspended = []) : ns.ongoing ch = ns.ctl.ongoing ch := by rw [NodeState.ongoing, hs]

theorem ongoing_endSession (h : ns.suspended = [] ∨ ∃ p, ns.suspended = [p]) (ho : ns.ctl.ongoing ch = none) :
    ns.endSession.ongoing ch' = ns.ongoing ch := by
  rcases h with h | ⟨⟨d, result⟩, h⟩
  · rw [ongoing_of_own h, ho]
    simp [NodeState.endSession, NodeState.ongoing, h, NodeState.goto, Ctl.ongoing]
  · simp [NodeState.endSession, NodeState.ongoing, h, Ctl.ongoing, Exchange.ongoing]

theorem State.ongoing_apply : (e.apply s n).ongoing n = e.self.ongoing ((e.apply s n).net n) := by
  rw [State.ongoing, Effect.apply_self]

theorem State.ongoing_ne (hp : p ≠ n) (hnet : (e.apply s n).net p = s.net p) :
    (e.apply s n).ongoing p = s.ongoing p := by
  rw [State.ongoing, State.ongoing, Effect.apply_ne hp, hnet]

theorem Mirrors.apply (hM : Mirrors s M)
    (hcells : ∀ m ptr, M'.cells m ptr = if m = n then (e.self.mem ptr).map fun b => b.record.data else M.cells m ptr)
    (hlocks : M'.locks = if n = locknode then e.self.locks else M.locks)
    (hself : e.self.ctl ≠ .crashed → M'.calls n = (e.apply s n).ongoing n)
    (hothers : ∀ p, p ≠ n → (s.node p).ctl ≠ .crashed → M'.calls p = (e.apply s n).ongoing p) :
    Mirrors (e.apply s n) M' := by
  refine ⟨fun m ptr => ?_, ?_, fun p hp => ?_⟩
  · rw [hcells]
    by_cases hm : m = n
    · rw [if_pos hm, hm, Effect.apply_self]
    · rw [if_neg hm, hM.cells, Effect.apply_ne hm]
  · rw [hlocks]
    by_cases hn : n = locknode
    · rw [if_pos hn, ← hn, Effect.apply_self]
    · rw [if_neg hn, hM.locks, Effect.apply_ne (Ne.symm hn)]
  · by_cases hpn : p = n
    · subst hpn
      rw [Effect.apply_self] at hp
      exact hself hp
    · rw [Effect.apply_ne hpn] at hp
      exact hothers p hpn hp

theorem Mirrors.locks_apply (hM : Mirrors s M) (h : e.self.locks = (s.node n).locks) :
    M.locks = if n = locknode then e.self.locks else M.locks := by
  split
  · rename_i hn
    rw [hM.locks, h, hn]
  · rfl

theorem Mirrors.cells_apply (hM : Mirrors s M)
    (h : ∀ ptr, (e.self.mem ptr).map (fun b => b.record.data) = ((s.node n).mem ptr).map fun b => b.record.data)
    (m : NodeId) (ptr : UInt64) :
    M.cells m ptr = if m = n then (e.self.mem ptr).map fun b => b.record.data else M.cells m ptr := by
  split
  · rename_i hm
    rw [hm, hM.cells, h]
  · rfl

theorem Mirrors.quiet (hM : Mirrors s M) (hup : (s.node n).ctl ≠ .crashed)
    (hmem : ∀ ptr, (e.self.mem ptr).map (fun b => b.record.data) = ((s.node n).mem ptr).map fun b => b.record.data)
    (hlocks : e.self.locks = (s.node n).locks)
    (hself : e.self.ctl ≠ .crashed → (e.apply s n).ongoing n = s.ongoing n)
    (hothers : ∀ p, p ≠ n → (e.apply s n).ongoing p = s.ongoing p) : Mirrors (e.apply s n) M := by
  refine hM.apply (hM.cells_apply hmem) (hM.locks_apply hlocks) (fun h => ?_) (fun p hp hc => ?_)
  · rw [hM.calls n hup, hself h]
  · rw [hM.calls p hc, hothers p hp]

theorem lockAnswer_trace (ns : NodeState) (ch : Option Channel)
    (hcall : M.calls n = some ⟨k.op, Call.answered ⟨k.op, k.stage, none⟩ g, none⟩)
    (hread : ∀ ga f w, k = .release (.read ga f) → f.deref ns.mem = some w → M.Known ga.hash w) :
    ∃ M', Trace Memory.Does M (ns.lockAnswer n g k).2 M' ∧ M'.cells = M.cells ∧ M'.locks = M.locks ∧
      (∀ p, p ≠ n → M'.calls p = M.calls p) ∧
      ((ns.lockAnswer n g k).1.ctl ≠ .crashed → M'.calls n = (ns.lockAnswer n g k).1.ctl.ongoing ch) := by
  have hstay : M.calls n = some ⟨k.op, .entered, none⟩ → (∃ a, k = .acquire a ∧ g = true) →
      ∃ M', Trace Memory.Does M (ns.lockAnswer n g k).2 M' ∧ M'.cells = M.cells ∧ M'.locks = M.locks ∧
        (∀ p, p ≠ n → M'.calls p = M.calls p) ∧
        ((ns.lockAnswer n g k).1.ctl ≠ .crashed → M'.calls n = (ns.lockAnswer n g k).1.ctl.ongoing ch) := by
    rintro hentered ⟨a, rfl, rfl⟩
    exact ⟨M, .nil M, rfl, rfl, fun _ _ => rfl, fun _ => hentered⟩
  have hret : ∀ o, M.Returns k.op (Call.answered ⟨k.op, k.stage, none⟩ g) o → (ns.lockAnswer n g k).2 = [.ret n o] →
      (ns.lockAnswer n g k).1.ctl = .idle →
      ∃ M', Trace Memory.Does M (ns.lockAnswer n g k).2 M' ∧ M'.cells = M.cells ∧ M'.locks = M.locks ∧
        (∀ p, p ≠ n → M'.calls p = M.calls p) ∧
        ((ns.lockAnswer n g k).1.ctl ≠ .crashed → M'.calls n = (ns.lockAnswer n g k).1.ctl.ongoing ch) := by
    intro o ho hev hctl
    refine ⟨M.put n none, ?_, rfl, rfl, fun p hp => Memory.put_calls_ne hp, fun _ => ?_⟩
    · rw [hev]
      exact .single (.ret n _ _ o hcall ho)
    · rw [hctl, Memory.put_calls_self]
      rfl
  cases k with
  | acquire a =>
    cases g with
    | true => exact hstay (by cases a <;> exact hcall) ⟨a, rfl, rfl⟩
    | false =>
      refine hret a.denied ?_ rfl rfl
      cases a with
      | read ga => exact .readDenied ga
      | write d => exact .writeDenied d
  | release a =>
    cases a with
    | read ga f =>
      cases hf : f.deref ns.mem with
      | some w =>
        exact hret (.read ga (some w)) (.read ga w (hread ga f w rfl hf)) (by simp [NodeState.lockAnswer, hf])
          (by simp [NodeState.lockAnswer, hf])
      | none =>
        refine ⟨M, ?_, rfl, rfl, fun _ _ => rfl, fun hup => ?_⟩
        · simp only [NodeState.lockAnswer, hf]
          exact .nil M
        · simp [NodeState.lockAnswer, hf] at hup
    | write d result => exact hret _ (.write d result) rfl rfl
  | call l => exact hret _ (.setLock l g) rfl rfl

theorem ongoing_client {dh dh' : Channel} (hcn : c ≠ n) (hch : s.net c = some dh)
    (hnet : (e.apply s n).net c = some dh')
    (hsame : (s.node c).ctl.ongoing (some dh') = (s.node c).ctl.ongoing (some dh)) :
    (e.apply s n).ongoing c = s.ongoing c := by
  rw [State.ongoing, State.ongoing, Effect.apply_ne hcn, hnet, hch]
  exact ongoing_congr rfl hsame

theorem ongoing_answered {dh : Channel} (hcn : c ≠ n) (hown : (s.node c).ctl = .exchange .waiting y)
    (hsus : (s.node c).suspended = []) (hnet : (e.apply s n).net c = some dh) :
    (e.apply s n).ongoing c = y.ongoing dh.down.getLast? := by
  rw [State.ongoing, Effect.apply_ne hcn, hnet, ongoing_of_own hsus, hown]
  rfl

theorem ongoing_asked {dh : Channel} (hown : (s.node c).ctl = .exchange .waiting y)
    (hsus : (s.node c).suspended = []) (hch : s.net c = some dh) : s.ongoing c = y.ongoing dh.down.getLast? := by
  rw [State.ongoing, hch, ongoing_of_own hsus, hown]
  rfl

theorem Exchange.of_request (hnf : ∀ d r, y ≠ .forward d r) {r : Request} (hr : r = y.request c) :
    (∀ sga, r = .malloc sga → y = .malloc sga.size ∧ sga.srcID = c) ∧
    (∀ sga, r = .read sga → ∃ ga, y = .performRead ga ∧ sga = ga.sendable c) ∧
    (∀ sga, r = .free sga → ∃ ga, y = .free ga ∧ sga = ga.sendable c) ∧
    (∀ sd, r = .write sd → ∃ d, y = .performWrite d ∧ sd = d.sendable c) ∧
    (∀ l, r = .locks l → ∃ k, y = .setLock k ∧ l = k.lock) ∧
    ∀ sga, r = .invalidate sga → ∃ m rest ga b, y = .invalidate m rest ga b := by
  subst hr
  cases y with
  | forward d r => exact absurd rfl (hnf d r)
  | _ => simp [Exchange.request, GlobalAddress.sendable]

theorem copyRecord_data {ptr : UInt64} {d : SaveData Word} {b : Block} (hb : ns.mem ptr = some b)
    (hd : d.data = b.record.data) (q : UInt64) :
    ((ns.copyRecord ptr d).mem q).map (fun b => b.record.data) = (ns.mem q).map fun b => b.record.data := by
  by_cases hq : q = ptr
  · rw [hq, NodeState.copyRecord_mem_self, hb]
    exact congrArg some hd
  · rw [NodeState.copyRecord_mem_ne hq]

theorem cells_set {ga : GlobalAddress} {d : SaveData Word} {b : Block} (hM : Mirrors s M) (hga : ga.id = n)
    (hb : (s.node n).mem ga.ptr = some b) (hmem : e.self.mem = ((s.node n).copyRecord ga.ptr d).mem) (m : NodeId)
    (ptr : UInt64) : (M.set ga (some d.data)).cells m ptr =
      if m = n then (e.self.mem ptr).map fun b => b.record.data else M.cells m ptr := by
  subst hga
  simp only [Memory.set, hmem]
  by_cases hm : m = ga.id
  · by_cases hptr : ptr = ga.ptr
    · rw [if_pos ⟨hm, hptr⟩, if_pos hm, hptr, NodeState.copyRecord_mem_self, hb]
      rfl
    · rw [if_neg fun hc => hptr hc.2, if_pos hm, NodeState.copyRecord_mem_ne hptr, hM.cells, hm]
  · rw [if_neg fun hc => hm hc.1, if_neg hm]

theorem cells_update (hM : Mirrors s M) (ga : GlobalAddress) (o : Option Block) (hga : ga.id = n)
    (hmem : e.self.mem = Function.update (s.node n).mem ga.ptr o) (m : NodeId) (ptr : UInt64) :
    (M.set ga (o.map fun b => b.record.data)).cells m ptr =
      if m = n then (e.self.mem ptr).map fun b => b.record.data else M.cells m ptr := by
  subst hga
  simp only [Memory.set, hmem]
  by_cases hm : m = ga.id
  · by_cases hptr : ptr = ga.ptr
    · rw [if_pos ⟨hm, hptr⟩, if_pos hm, hptr, Function.update_self]
    · rw [if_neg fun hc => hptr hc.2, if_pos hm, Function.update_of_ne hptr, hM.cells, hm]
  · rw [if_neg fun hc => hm hc.1, if_neg hm]

/-- What a handler reports is a step of its client's call. -/
theorem Serves.mirrors (hS : Sessions s) (hsus : Suspends s) (hM : Mirrors s M) (hx : (s.node n).ctl = .serving c)
    {dh : Channel} {r : Request} (hch : s.net c = some dh) (hpeer : dh.peer = n) (hr : dh.up = some r)
    (hsound : env.sound (s.node n) = true) (h : Serves n (s.node n) env c dh s.clock r e) :
    Mirrored s n e M := by
  have hcn : c ≠ n := fun heq => (hS.link c dh hch).1 (hpeer.trans heq.symm)
  have hup : (s.node n).ctl ≠ .crashed := by simp [hx]
  have hl := hS.serving_link hx hch hpeer
  have hothers : ∀ p, p ≠ n → p ≠ c → (e.apply s n).ongoing p = s.ongoing p := by
    intro p hpn hpc
    refine State.ongoing_ne hpn ?_
    rcases h.wire with hw | ⟨dh', hw, -⟩
    · rw [Effect.net_local hw]
    · rw [Effect.net_wire hw, Function.update_of_ne hpc]
  have hquiet : ∀ dh' : Channel, e.wire = some (c, some dh') → e.events = [] →
      (∀ ptr, (e.self.mem ptr).map (fun b => b.record.data) = ((s.node n).mem ptr).map fun b => b.record.data) →
      e.self.locks = (s.node n).locks → (∀ nch, e.self.ongoing nch = (s.node n).ongoing (s.net n)) →
      (s.node c).ctl.ongoing (some dh') = (s.node c).ctl.ongoing (some dh) →
      Mirrored s n e M := by
    intro dh' hw hev hmem hlocks hself hclient
    refine ⟨M, by rw [hev]; exact .nil M, hM.quiet hup hmem hlocks (fun _ => ?_) fun p hpn => ?_⟩
    · rw [State.ongoing_apply, hself]
      rfl
    · by_cases hpc : p = c
      · subst hpc
        exact ongoing_client hpn hch (by rw [Effect.net_wire hw, Function.update_self]) hclient
      · exact hothers p hpn hpc
  have hclient : ∀ (y : Exchange) (C C' : Call) (dh' : Channel), (s.node c).ctl = .exchange .waiting y →
      (s.node c).suspended = [] → y.ongoing dh.down.getLast? = some C → e.wire = some (c, some dh') →
      y.ongoing dh'.down.getLast? = some C' → e.self.ctl = (s.node n).ctl → e.self.suspended = (s.node n).suspended →
      M.calls c = some C ∧ ∀ M' : Memory, (∀ p, p ≠ c → M'.calls p = M.calls p) → M'.calls c = some C' →
        (∀ m ptr, M'.cells m ptr =
          if m = n then (e.self.mem ptr).map fun b => b.record.data else M.cells m ptr) →
        (M'.locks = if n = locknode then e.self.locks else M.locks) → Mirrors (e.apply s n) M' := by
    intro y C C' dh' hown hsusc hbefore hw hafter hctl hsame
    refine ⟨?_, fun M' hne hc hcells hlocks => hM.apply hcells hlocks (fun _ => ?_) fun p hpn hp => ?_⟩
    · rw [hM.calls c (by simp [hown]), ongoing_asked hown hsusc hch, hbefore]
    · rw [hne n (Ne.symm hcn), hM.calls n hup, State.ongoing_apply, State.ongoing]
      refine (ongoing_congr hsame ?_).symm
      rw [hctl, hx]
      rfl
    · by_cases hpc : p = c
      · subst hpc
        rw [hc, ongoing_answered hpn hown hsusc (by rw [Effect.net_wire hw, Function.update_self]), hafter]
      · rw [hne p hpc, hM.calls p hp, hothers p hpn hpc]
  have hserving : ∀ ns : NodeState, ns.suspended = (s.node n).suspended → ns.ctl = (s.node n).ctl → ∀ nch,
      ns.ongoing nch = (s.node n).ongoing (s.net n) := by
    intro ns hs hc nch
    refine ongoing_congr hs ?_
    rw [hc, hx]
    rfl
  rcases hl.of_up hr with ⟨y, hown, hreq, hreset, rfl⟩ | ⟨y, a, hown, rfl, -, rfl⟩
  · have hnf : ∀ d q, y ≠ .forward d q := fun d q heq =>
      ((hS.stuck c).ne_forward (by rw [hown]; rfl) d q).1 .waiting (heq ▸ hown)
    obtain ⟨hmalloc, hread, hfree, hwrite, hlock, hinv⟩ := Exchange.of_request hnf hreq
    cases h with
    | malloc sga ptr content hblock =>
      obtain ⟨rfl, -⟩ := hmalloc sga rfl
      obtain ⟨hcall, hmirror⟩ := hclient _ _ ⟨.malloc sga.size, .applied ⟨sga.size, ptr, n⟩, none⟩ _ hown
        (hsus.of_own hown rfl) rfl rfl rfl rfl rfl
      have hfresh : M.cells n ptr = none := by
        have hnone : (s.node n).mem ptr = none := by
          simp only [Env.sound, hblock, Option.all_some, Bool.and_eq_true, Option.isNone_iff_eq_none] at hsound
          exact hsound.2
        rw [hM.cells, hnone]
        rfl
      exact ⟨_, .single (.alloc c ⟨sga.size, ptr, n⟩ ⟨content.data, s.clock⟩ hcall hfresh),
        hmirror _ (fun p hp => Memory.put_calls_ne hp) Memory.put_calls_self
          (cells_update hM ⟨sga.size, ptr, n⟩ (some ⟨sga.size, stampRecord s.clock content⟩) rfl rfl)
          (hM.locks_apply rfl)⟩
    | read sga b hl' hb hread' =>
      obtain ⟨ga, rfl, rfl⟩ := hread sga rfl
      exact hquiet _ rfl rfl (copyRecord_data hb rfl) rfl (hserving _ rfl rfl) (by rw [hown]; rfl)
    | readNull sga b =>
      refine ⟨M, .nil M, hM.quiet hup (fun _ => rfl) rfl (fun h => absurd rfl h) fun p hpn => ?_⟩
      exact State.ongoing_ne hpn (by rw [Effect.net_local rfl])
    | readCached sga it =>
      obtain ⟨ga, rfl, rfl⟩ := hread sga rfl
      exact hquiet _ rfl rfl (fun _ => rfl) rfl (hserving _ rfl rfl) (by rw [hown]; rfl)
    | write sd b hid hb =>
      obtain ⟨d, rfl, rfl⟩ := hwrite sd rfl
      obtain ⟨hcall, hmirror⟩ := hclient _ _ ⟨.write d, .applied d.ga, none⟩ _ hown (hsus.of_own hown rfl) rfl rfl
        rfl rfl rfl
      have hcell : M.cells d.ga.id d.ga.ptr ≠ none := by
        have hb' : (s.node d.ga.id).mem d.ga.ptr = some b := by
          rw [← hb, ← hid]
          rfl
        rw [hM.cells, hb']
        simp
      exact ⟨_, .single (.store c d hcall hcell), hmirror _ (fun p hp => Memory.put_calls_ne hp)
        Memory.put_calls_self (cells_set (d := .owned d.data c) hM hid hb rfl) (hM.locks_apply rfl)⟩
    | writeShared sd b =>
      obtain ⟨d, rfl, rfl⟩ := hwrite sd rfl
      refine hquiet _ rfl rfl (fun _ => rfl) rfl (fun nch => ongoing_congr rfl ?_) (by rw [hown]; rfl)
      rw [hx]
      rfl
    | free sga b =>
      obtain ⟨ga, rfl, rfl⟩ := hfree sga rfl
      refine hquiet _ rfl rfl (fun _ => rfl) rfl (fun nch => ongoing_congr rfl ?_) (by rw [hown]; rfl)
      rw [hx]
      cases b.record.freeInvalidates <;> rfl
    | locks l hn =>
      obtain ⟨k, rfl, rfl⟩ := hlock l rfl
      obtain ⟨hcall, hmirror⟩ := hclient _ _
        ⟨k.op, k.stage, some ((s.node n).locks.setLock k.lock.id k.lock.state).2⟩ _ hown (hsus.of_own hown rfl) rfl rfl
        rfl rfl rfl
      have hdoes := Memory.Does.lock c k.op k.stage k.lock hcall k.asks
      rw [hM.locks, ← hn] at hdoes
      refine ⟨_, .single hdoes, hmirror _ (fun p hp => Memory.put_calls_ne hp) Memory.put_calls_self
        (hM.cells_apply fun _ => rfl) ?_⟩
      rw [if_pos hn]
      simp only [Memory.put_locks, Memory.setLock, hM.locks, ← hn]
    | reset => exact absurd rfl hreset
    | invalidate sga =>
      obtain ⟨m, rest, ga, b, rfl⟩ := hinv sga rfl
      exact hquiet _ rfl rfl (fun _ => rfl) rfl (hserving _ rfl rfl) (by rw [hown]; rfl)
    | forward _ hf =>
      refine hquiet _ rfl rfl (fun _ => rfl) rfl (fun nch => ongoing_congr rfl ?_) (by rw [hown]; rfl)
      rw [hx]
      rfl
  · cases h with
    | reset =>
      refine hquiet _ rfl rfl (fun _ => by rw [NodeState.endSession_mem]) (NodeState.endSession_locks ..)
        (fun nch => ?_)
        (by rw [hown]; rfl)
      exact ongoing_endSession ((hsus n).imp id And.right) (by rw [hx]; rfl)
    | forward _ hf => cases hf

theorem known_of_found {ga : GlobalAddress} {f : Found} {w : Word} (hM : Mirrors s M) (hC : Copied s M)
    (hsound : M.Sound)
    (hH : (s.node n).ctl.Homed n) (hf : (s.node n).ctl.found = some (ga, f))
    (hw : f.deref (s.node n).mem = some w) : M.Known ga.hash w := by
  cases f with
  | record ptr =>
    obtain ⟨hid, rfl⟩ := hH.found hf
    refine ⟨ga, rfl, hsound ga.id ga.ptr w ?_⟩
    rw [hM.cells, hid]
    exact hw
  | null => cases hw
  | copy v =>
    cases hw
    exact hC.found n ga w hf

theorem Mirrors.own_call {nch : Option Channel} (hM : Mirrors s M) (hsus : Suspends s) (hx : (s.node n).ctl = x)
    (hup : x ≠ .crashed) (ha : x.aside = false) (hnch : s.net n = nch) : M.calls n = x.ongoing nch := by
  rw [hM.calls n (hx ▸ hup), State.ongoing, ongoing_of_own (hsus.of_own hx ha), hx, hnch]

theorem ongoing_after {nch : Option Channel} (hsus : Suspends s) (hx : (s.node n).ctl = x) (ha : x.aside = false)
    (hs : e.self.suspended = (s.node n).suspended) (hnch : (e.apply s n).net n = nch) :
    (e.apply s n).ongoing n = e.self.ctl.ongoing nch := by
  rw [State.ongoing_apply, hnch]
  exact ongoing_of_own (hs.trans (hsus.of_own hx ha))

theorem Mirrors.own (hM : Mirrors s M) (hnet : ∀ p, p ≠ n → (e.apply s n).net p = s.net p)
    (hne : ∀ p, p ≠ n → M'.calls p = M.calls p)
    (hself : e.self.ctl ≠ .crashed → M'.calls n = (e.apply s n).ongoing n)
    (hcells : ∀ m ptr, M'.cells m ptr = if m = n then (e.self.mem ptr).map fun b => b.record.data else M.cells m ptr)
    (hlocks : M'.locks = if n = locknode then e.self.locks else M.locks) : Mirrors (e.apply s n) M' := by
  refine hM.apply hcells hlocks hself fun p hp hc => ?_
  rw [hne p hp, hM.calls p hc, State.ongoing_ne hp (hnet p hp)]

theorem Mirrors.silent (hM : Mirrors s M) (hup : (s.node n).ctl ≠ .crashed)
    (hnet : ∀ p, p ≠ n → (e.apply s n).net p = s.net p) (hev : e.events = []) (hmem : e.self.mem = (s.node n).mem)
    (hlocks : e.self.locks = (s.node n).locks)
    (hself : e.self.ctl ≠ .crashed → (e.apply s n).ongoing n = s.ongoing n) : Mirrored s n e M :=
  ⟨M, by rw [hev]; exact .nil M,
    hM.quiet hup (fun _ => by rw [hmem]) hlocks hself fun p hp => State.ongoing_ne hp (hnet p hp)⟩

theorem Mirrors.stays (hM : Mirrors s M) (hx : (s.node n).ctl = x) (hup : x ≠ .crashed)
    (hnet : ∀ p, p ≠ n → (e.apply s n).net p = s.net p) (hev : e.events = []) (hmem : e.self.mem = (s.node n).mem)
    (hlocks : e.self.locks = (s.node n).locks) (hs : e.self.suspended = (s.node n).suspended)
    (hstage : ∀ nch nch', s.net n = nch → (e.apply s n).net n = nch' → e.self.ctl.ongoing nch' = x.ongoing nch) :
    Mirrored s n e M := by
  refine hM.silent (hx ▸ hup) hnet hev hmem hlocks fun _ => ?_
  rw [State.ongoing_apply]
  refine ongoing_congr hs ?_
  rw [hx]
  exact hstage _ _ rfl rfl

theorem Mirrors.lockGrant {locks : LockTable} (hM : Mirrors s M) (hsus : Suspends s) (hH : (s.node n).ctl.Homed n)
    (hC : Copied s M) (hsound : M.Sound) (hx : (s.node n).ctl = .setLock k) (hn : n = locknode)
    (hset : (s.node n).locks.setLock k.lock.id k.lock.state = (locks, g)) :
    Mirrored s n ⟨({ s.node n with locks := locks }.lockAnswer n g k).1, none, .lock n k.lock g ::
      .answered n k.lock g :: ({ s.node n with locks := locks }.lockAnswer n g k).2⟩ M := by
  have hsusn : (s.node n).suspended = [] := hsus.of_own hx rfl
  have hcall : M.calls n = some ⟨k.op, k.stage, none⟩ := hM.own_call hsus hx (by simp) rfl rfl
  have hdoes := Memory.Does.lock n k.op k.stage k.lock hcall k.asks
  have htable : M.locks.setLock k.lock.id k.lock.state = (locks, g) := by rw [hM.locks, ← hn, hset]
  rw [htable] at hdoes
  have hanswered := Memory.Does.answered (M := (M.setLock k.lock).put n (some ⟨k.op, k.stage, some g⟩)) n k.op
    k.stage k.lock g Memory.put_calls_self k.asks
  obtain ⟨M', htrace, hcells', hlocks', hcalls', hself'⟩ := lockAnswer_trace { s.node n with locks := locks }
    (s.net n) (g := g) (k := k) (n := n)
    (M := ((M.setLock k.lock).put n (some ⟨k.op, k.stage, some g⟩)).put n
      (some ⟨k.op, Call.answered ⟨k.op, k.stage, none⟩ g, none⟩))
    Memory.put_calls_self fun ga f w hk hw =>
      (known_of_found hM hC hsound hH (by rw [hx, hk]; rfl) hw : M.Known ga.hash w)
  refine ⟨M', .cons hdoes (.cons hanswered htrace), hM.own (fun _ _ => by rw [Effect.net_local rfl])
    (fun p hp => ?_) (fun hc => ?_) (fun m ptr => ?_) ?_⟩
  · rw [hcalls' p hp, Memory.put_calls_ne hp, Memory.put_calls_ne hp, Memory.setLock_calls]
  · rw [hself' hc, State.ongoing_apply, Effect.net_local rfl]
    refine (ongoing_of_own ?_).symm
    rw [NodeState.lockAnswer_fst]
    exact hsusn
  · rw [hcells']
    exact hM.cells_apply (fun _ => by rw [NodeState.lockAnswer_fst]; rfl) m ptr
  · rw [hlocks', if_pos hn, NodeState.lockAnswer_fst]
    exact congrArg Prod.fst htable

theorem Mirrors.lockClosed (hM : Mirrors s M) (hsus : Suspends s) (hH : (s.node n).ctl.Homed n) (hC : Copied s M)
    (hsound : M.Sound) (hx : (s.node n).ctl = .closing (.setLock k) (.lock g)) :
    Mirrored s n ⟨((s.node n).closed n (.setLock k) (.lock g)).1, some (n, none),
      ((s.node n).closed n (.setLock k) (.lock g)).2⟩ M := by
  have hsusn : (s.node n).suspended = [] := hsus.of_own hx rfl
  have hcall : M.calls n = some ⟨k.op, k.stage, some g⟩ := hM.own_call hsus hx (by simp) rfl rfl
  have hanswered := Memory.Does.answered n k.op k.stage k.lock g hcall k.asks
  obtain ⟨M', htrace, hcells', hlocks', hcalls', hself'⟩ := lockAnswer_trace (s.node n) none (g := g) (k := k) (n := n)
    (M := M.put n (some ⟨k.op, Call.answered ⟨k.op, k.stage, none⟩ g, none⟩)) Memory.put_calls_self fun ga f w hk hw =>
      (known_of_found hM hC hsound hH (by rw [hx, hk]; rfl) hw : M.Known ga.hash w)
  refine ⟨M', .cons hanswered htrace,
    hM.own (fun p hp => by rw [Effect.net_wire rfl, Function.update_of_ne hp]) (fun p hp => ?_) (fun hc => ?_)
      (fun m ptr => ?_) ?_⟩
  · rw [hcalls' p hp, Memory.put_calls_ne hp]
  · rw [State.ongoing_apply, Effect.net_wire rfl, Function.update_self]
    refine (hself' hc).trans (ongoing_of_own ?_).symm
    rw [NodeState.lockAnswer_fst]
    exact hsusn
  · rw [hcells']
    exact hM.cells_apply (fun _ => by rw [NodeState.closed_fst]; rfl) m ptr
  · rw [hlocks']
    exact hM.locks_apply (by rw [NodeState.closed_fst]; rfl)

/-- A handler changes the cell of its client's call, and the stage with it; the server is in no call. -/
theorem Mirrors.answers {C : Call} (hM : Mirrors s M) (hcn : c ≠ n) (hup : (s.node n).ctl ≠ .crashed)
    (hserver : (e.apply s n).ongoing n = s.ongoing n) (hclient : (e.apply s n).ongoing c = some C)
    (hnet : ∀ p, p ≠ c → (e.apply s n).net p = s.net p) (hne : ∀ p, p ≠ c → M'.calls p = M.calls p)
    (hcall : M'.calls c = some C)
    (hcells : ∀ m ptr, M'.cells m ptr = if m = n then (e.self.mem ptr).map fun b => b.record.data else M.cells m ptr)
    (hlocks : M'.locks = if n = locknode then e.self.locks else M.locks) : Mirrors (e.apply s n) M' := by
  refine hM.apply hcells hlocks (fun _ => ?_) fun p hp hcrash => ?_
  · rw [hne n (Ne.symm hcn), hM.calls n hup, hserver]
  · by_cases hpc : p = c
    · rw [hpc, hcall, hclient]
    · rw [hne p hpc, hM.calls p hcrash, State.ongoing_ne hp (hnet p hpc)]

theorem Mirrors.discardFor {ga : GlobalAddress} {srcID : UInt16} {dh : Channel} (hM : Mirrors s M) (hS : Sessions s)
    (hsus : Suspends s) (hga : ga.id = n) (hx : (s.node n).ctl = .discard ga (some (c, srcID)))
    (hch : s.net c = some dh) :
    Mirrored s n ⟨{ s.node n with mem := Function.update (s.node n).mem ga.ptr none }.goto (.serving c),
      some (c, some (dh.reply (.address (ga.freed.sendable srcID)))), [.freed ga]⟩ M := by
  obtain ⟨dh', hch', hpeer, ho, hl⟩ := hS.client_link hx rfl (by simp)
  obtain rfl : dh = dh' := Option.some.inj (hch.symm.trans hch')
  have hcn : c ≠ n := fun heq => (hS.link c dh hch).1 (hpeer.trans heq.symm)
  obtain ⟨y, hctl, hreq, -, rfl⟩ := hl.of_handles ho rfl
  have hnf : ∀ d q, y ≠ .forward d q := fun d q heq =>
    ((hS.stuck c).ne_forward (by rw [hctl]; rfl) d q).1 .waiting (heq ▸ hctl)
  obtain ⟨ga', rfl, hga'⟩ := (Exchange.of_request hnf hreq).2.2.1 _ rfl
  obtain rfl : ga = ga' := congrArg GlobalAddress.ofSendable hga'
  have hsusc : (s.node c).suspended = [] := hsus.of_own hctl rfl
  have hcall : M.calls c = some ⟨.free ga, .called, none⟩ := by
    rw [hM.calls c (by simp [hctl]), ongoing_asked hctl hsusc hch]
    rfl
  refine ⟨_, .single (.freed c ga hcall), hM.answers (C := ⟨.free ga, .applied ga.freed, none⟩) hcn (by simp [hx])
    ?_ ?_ (fun p hp => by rw [Effect.net_wire rfl, Function.update_of_ne hp])
    (fun p hp => by rw [Memory.put_calls_ne hp, Memory.set_calls]) Memory.put_calls_self
    (cells_update hM ga none hga rfl) (hM.locks_apply rfl)⟩
  · rw [State.ongoing_apply, State.ongoing]
    refine ongoing_congr rfl ?_
    rw [hx]
    rfl
  · rw [ongoing_answered hcn hctl hsusc (by rw [Effect.net_wire rfl, Function.update_self])]
    rfl

theorem Mirrors.startInvalidations {d : Data Word} {nodes : List NodeId} {srcID : UInt16} {dh : Channel} {b : Block}
    (hM : Mirrors s M) (hS : Sessions s) (hsus : Suspends s) (hga : d.ga.id = n)
    (hx : (s.node n).ctl = .startInvalidations c d nodes srcID) (hch : s.net c = some dh)
    (hb : (s.node n).mem d.ga.ptr = some b) :
    Mirrored s n ⟨((s.node n).copyRecord d.ga.ptr (.owned d.data srcID)).goto
        (.broadcast nodes d.ga (.startInvalidations d srcID)),
      some (c, some { dh.reply (.address (d.ga.sendable srcID)) with isOpen := false }),
      [.store srcID d.ga d.data]⟩ M := by
  obtain ⟨dh', hch', hpeer, ho, hl⟩ := hS.client_link hx rfl (by simp)
  obtain rfl : dh = dh' := Option.some.inj (hch.symm.trans hch')
  have hcn : c ≠ n := fun heq => (hS.link c dh hch).1 (hpeer.trans heq.symm)
  have hcell : M.cells d.ga.id d.ga.ptr ≠ none := by
    rw [hM.cells, hga, hb]
    simp
  obtain ⟨rfl, hclient⟩ := hl.of_startInvalidations ho
  have hphase : (s.node srcID).ctl ≠ .crashed ∧ (s.node srcID).suspended = [] ∧
      s.ongoing srcID = some ⟨.write d, .entered, none⟩ ∧
      ∀ sga : SendGlobalAddr, (s.node srcID).ctl.ongoing (some { dh.reply (.address sga) with isOpen := false }) =
        some ⟨.write d, .applied (.ofSendable sga), none⟩ := by
    rcases hclient with ⟨sga, hctl, rfl⟩ | ⟨hctl, rfl⟩
    all_goals
      refine ⟨by simp [hctl], hsus.of_own hctl rfl, ?_, fun sga' => by rw [hctl]; rfl⟩
      rw [State.ongoing, ongoing_of_own (hsus.of_own hctl rfl), hctl, hch]
      rfl
  obtain ⟨halive, hsusc, hentered, happlied⟩ := hphase
  refine ⟨_, .single (.store srcID d ((hM.calls srcID halive).trans hentered) hcell),
    hM.answers (C := ⟨.write d, .applied d.ga, none⟩) hcn (by simp [hx]) ?_ ?_
      (fun p hp => by rw [Effect.net_wire rfl, Function.update_of_ne hp])
      (fun p hp => by rw [Memory.put_calls_ne hp, Memory.set_calls]) Memory.put_calls_self
      (cells_set (d := .owned d.data srcID) hM hga hb rfl) (hM.locks_apply rfl)⟩
  · rw [State.ongoing_apply, State.ongoing]
    refine ongoing_congr rfl ?_
    rw [hx]
    rfl
  · rw [State.ongoing, Effect.apply_ne hcn, Effect.net_wire rfl, Function.update_self, ongoing_of_own hsusc, happlied]
    rfl

/-- Whatever a move reports, the shared memory can do, and it is then what the nodes are after the move. -/
theorem Moves.mirrors (hS : Sessions s) (hsus : Suspends s) (hH : (s.node n).ctl.Homed n) (hM : Mirrors s M)
    (hC : Copied s M) (hsound : M.Sound) (hfresh : env.sound (s.node n) = true)
    (hx : (s.node n).ctl = x) (h : Moves s n env x e) : Mirrored s n e M := by
  have hup : x ≠ .crashed := h.awake.2
  have hnet : x.answers = none → ∀ p, p ≠ n → (e.apply s n).net p = s.net p :=
    fun ha p hp => h.net_ne hp (by simp [ha])
  have hmine : x.aside = false → ∀ nch, s.net n = nch → M.calls n = x.ongoing nch :=
    fun ha _ => hM.own_call hsus hx hup ha
  have hafter : x.aside = false → e.self.suspended = (s.node n).suspended → ∀ nch, (e.apply s n).net n = nch →
      (e.apply s n).ongoing n = e.self.ctl.ongoing nch := fun ha hs _ => ongoing_after hsus hx ha hs
  have hown : x.answers = none → ∀ M' : Memory, _ → _ → _ → _ → Mirrors (e.apply s n) M' :=
    fun ha M' => hM.own (hnet ha)
  have hquiet := fun ha => hM.silent (hx ▸ hup) (hnet ha)
  have hstay := fun ha => hM.stays hx hup (hnet ha)
  cases h with
  | lockGrant k locks granted hn hset => exact hM.lockGrant hsus hH hC hsound hx hn hset
  | connect x y hopen =>
    refine hstay ?_ rfl rfl rfl rfl fun _ _ _ _ => ?_
    · cases hopen <;> rfl
    · cases hopen <;> rfl
  | readLocal ga b hl hb => exact hstay rfl rfl rfl rfl rfl fun _ _ _ _ => rfl
  | readCached ga it hne hit => exact hstay rfl rfl rfl rfl rfl fun _ _ _ _ => rfl
  | writeLocal d b hl hb =>
    exact hstay rfl rfl rfl rfl rfl fun _ _ _ _ => by cases b.record.writeInvalidates <;> rfl
  | memcpy d b hb =>
    rw [hx] at hH
    have hcell : M.cells d.ga.id d.ga.ptr ≠ none := by
      rw [hM.cells, hH, hb]
      simp
    refine ⟨_, .single (.store n d (hmine rfl _ rfl) hcell), hown rfl _ (fun p hp => Memory.put_calls_ne hp)
      (fun _ => ?_)
      (cells_set (d := .written d.data n) hM hH hb rfl) (hM.locks_apply rfl)⟩
    rw [Memory.put_calls_self, hafter rfl rfl _ rfl]
    rfl
  | freeLocal ga b hl hb =>
    exact hstay rfl rfl rfl rfl rfl fun _ _ _ _ => by cases b.record.freeInvalidates <;> rfl
  | mallocLocal size ptr content hblock =>
    have hnone : (s.node n).mem ptr = none := by
      simp only [Env.sound, hblock, Option.all_some, Bool.and_eq_true, Option.isNone_iff_eq_none] at hfresh
      exact hfresh.2
    have hcell : M.cells n ptr = none := by
      rw [hM.cells, hnone]
      rfl
    have halloc := Memory.Does.alloc n ⟨size, ptr, n⟩ ⟨content.data, s.clock⟩ (hmine rfl _ rfl) hcell
    refine ⟨_, .cons halloc (.single (.ret n _ _ _ Memory.put_calls_self (.malloc size _))), hown rfl _ (fun p hp => ?_)
      (fun _ => ?_) (cells_update hM ⟨size, ptr, n⟩ (some ⟨size, stampRecord s.clock content⟩) rfl rfl)
      (hM.locks_apply rfl)⟩
    · rw [Memory.put_calls_ne hp, Memory.put_calls_ne hp, Memory.set_calls]
    · rw [Memory.put_calls_self, hafter rfl rfl _ rfl]
      rfl
  | swept ga b =>
    cases b with
    | startInvalidations d srcID =>
      refine hquiet rfl rfl (NodeState.endSession_mem ..) (NodeState.endSession_locks ..) fun _ => ?_
      rw [State.ongoing_apply]
      exact ongoing_endSession ((hsus n).imp id And.right) (by rw [hx]; rfl)
    | _ => exact hstay rfl rfl rfl rfl rfl fun _ _ _ _ => rfl
  | discardOwn ga =>
    rw [hx] at hH
    have hfreed := Memory.Does.freed n ga (hmine rfl _ rfl)
    refine ⟨_, .cons hfreed (.single (.ret n _ _ _ Memory.put_calls_self (.free ga _))), hown rfl _ (fun p hp => ?_)
      (fun _ => ?_) (cells_update hM ga none hH rfl) (hM.locks_apply rfl)⟩
    · rw [Memory.put_calls_ne hp, Memory.put_calls_ne hp, Memory.set_calls]
    · rw [Memory.put_calls_self, hafter rfl rfl _ rfl]
      rfl
  | discardFor ga c srcID dh hch => exact hM.discardFor hS hsus (by rwa [hx] at hH) hx hch
  | sendWrite d dh cache hch ha =>
    refine hstay rfl rfl rfl rfl rfl fun _ nch' _ hnch' => ?_
    have hl := (hS.link n dh hch).2
    rw [hx] at hl
    rw [Effect.net_wire rfl, Function.update_self] at hnch'
    obtain ⟨rfl, -⟩ := hl.of_connected
    rw [← hnch']
    rfl
  | sendReset d result dh hch => exact hstay rfl rfl rfl rfl rfl fun _ _ _ _ => rfl
  | send y dh hch hnw hnr =>
    refine hstay rfl rfl rfl rfl rfl fun _ nch' _ hnch' => ?_
    have hl := (hS.link n dh hch).2
    rw [hx] at hl
    rw [Effect.net_wire rfl, Function.update_self] at hnch'
    obtain ⟨rfl, -⟩ := hl.of_connected
    rw [← hnch']
    rfl
  | fetched ga w rest dh cache hch hd ha => exact hstay rfl rfl rfl rfl rfl fun _ _ _ _ => rfl
  | invalidated d sga rest dh hch hd =>
    refine hstay rfl rfl rfl rfl rfl fun nch nch' hnch hnch' => ?_
    have hl := (hS.link n dh hch).2
    rw [hx] at hl
    rw [Effect.net_wire rfl, Function.update_self] at hnch'
    rw [hch] at hnch
    rw [← hnch, ← hnch']
    rcases hl.of_waiting hd with ⟨-, -, hanswer, -⟩ | ⟨d', sga', hy, -, ⟨rfl, rfl, -⟩ | ⟨sga'', rfl, rfl⟩⟩
    · cases hanswer
    · rfl
    · rfl
  | received y r rest dh hch hd hplain hninv =>
    refine hstay rfl rfl rfl rfl rfl fun nch _ hnch _ => ?_
    have hl := (hS.link n dh hch).2
    rw [hx] at hl
    rw [hch] at hnch
    rcases hl.of_waiting hd with ⟨rfl, -⟩ | ⟨d, sga, hy, hr, -⟩
    · rw [← hnch]
      rfl
    · exact absurd hr (hninv d sga hy)
  | mallocReturn size sga rest dh hch hd =>
    have hl := (hS.link n dh hch).2
    rw [hx] at hl
    have hcall := hmine rfl _ hch
    rcases hl.of_waiting hd with ⟨rfl, -⟩ | ⟨d, sga', hy, -⟩
    · refine ⟨_, .single (.ret n _ _ _ hcall (.malloc size _)), hown rfl _ (fun p hp => Memory.put_calls_ne hp)
        (fun _ => ?_) (hM.cells_apply fun _ => rfl) (hM.locks_apply rfl)⟩
      rw [Memory.put_calls_self, hafter rfl rfl _ rfl]
      rfl
    · cases hy
  | suspend d sga rest dh hch hd =>
    have hl := (hS.link n dh hch).2
    rw [hx] at hl
    obtain ⟨d', sga', hy, hr, -, rfl⟩ := hl.of_again hd
    refine hquiet rfl rfl rfl rfl fun _ => ?_
    rw [State.ongoing_apply, State.ongoing, ongoing_of_own (hsus.of_own hx rfl), hx, hch, hr]
    cases hy
    cases hr
    rfl
  | sendCrash | fetchCrash => exact hquiet rfl rfl rfl rfl fun h => absurd rfl h
  | misread x r rest dh hch hd hmis =>
    refine hquiet ?_ rfl rfl rfl fun h => absurd rfl h
    cases hmis <;> rfl
  | closed y r rest dh hch hd =>
    cases y with
    | setLock k =>
      cases r with
      | lock granted => exact hM.lockClosed hsus hH hC hsound hx
      | _ => exact hquiet rfl rfl rfl rfl fun h => absurd rfl h
    | performRead ga =>
      cases r with
      | data w => exact hstay rfl rfl rfl rfl rfl fun _ _ _ _ => rfl
      | _ => exact hquiet rfl rfl rfl rfl fun h => absurd rfl h
    | performWrite d =>
      cases r with
      | address sga => exact hstay rfl rfl rfl rfl rfl fun _ _ _ _ => rfl
      | _ => exact hquiet rfl rfl rfl rfl fun h => absurd rfl h
    | free ga =>
      cases r with
      | address sga =>
        refine ⟨_, .single (.ret n _ _ _ (hmine rfl _ rfl) (.free ga _)),
          hown rfl _ (fun p hp => Memory.put_calls_ne hp)
          (fun _ => ?_) (hM.cells_apply fun _ => rfl) (hM.locks_apply rfl)⟩
        rw [Memory.put_calls_self, hafter rfl rfl _ rfl]
        rfl
      | _ => exact hquiet rfl rfl rfl rfl fun h => absurd rfl h
    | invalidate m rest ga b => exact hstay rfl rfl rfl rfl rfl fun _ _ _ _ => rfl
    | reconnect d result => exact hstay rfl rfl rfl rfl rfl fun _ _ _ _ => rfl
    | malloc size => exact hquiet rfl rfl rfl rfl fun h => absurd rfl h
    | forward c q => exact hquiet rfl rfl rfl rfl fun h => absurd rfl h
  | serve c dh r e hch hpeer hr hs => exact hs.mirrors hS hsus hM hx hch hpeer hr hfresh
  | startInvalidations c d nodes srcID dh b hch hb =>
    exact hM.startInvalidations hS hsus (by rwa [hx] at hH) hx hch hb

theorem Moves.sent_pends {d : Data Word} (hS : Sessions s) (hx : (s.node n).ctl = x) (h : Moves s n env x e)
    (hsent : x.sent = some d) (hpend : Pends s n d) (hup : e.self.ctl ≠ .crashed) :
    e.self.ctl.sent = some d ∧ Pends (e.apply s n) n d := by
  have hwaits : ∀ dh sga, s.net n = some dh → .address sga ∉ dh.down := by
    rcases hpend with he | ⟨-, hdown⟩
    · rw [hx, early_of_sent hsent] at he
      cases he
    · exact hdown
  cases h with
  | connect _ y hopen => cases hopen <;> cases hsent
  | sendWrite | send | fetched | mallocReturn | sendReset => cases hsent
  | invalidated d' sga rest dh hch hd =>
    cases hsent
    refine ⟨rfl, Or.inr ⟨by rw [Effect.apply_self]; rfl, fun dh' sga' hch' hmem => hwaits dh sga' hch ?_⟩⟩
    rw [Effect.net_wire rfl, Function.update_self] at hch'
    cases hch'
    rw [hd]
    exact List.mem_cons_of_mem _ hmem
  | received y r rest dh hch hd hplain hninv =>
    have hl := (hS.link n dh hch).2
    rw [hx] at hl
    cases y with
    | performWrite d' =>
      rcases hl.of_waiting hd with ⟨-, -, hanswer, -⟩ | ⟨d'', sga, hy, hr, -⟩
      · cases r with
        | address sga => exact absurd (by rw [hd]; exact List.mem_cons_self) (hwaits dh sga hch)
        | _ => cases hanswer
      · exact absurd hr (hninv d'' sga hy)
    | _ => cases hsent
  | suspend d' sga rest dh hch hd => exact absurd (by rw [hd]; exact List.mem_cons_self) (hwaits dh sga hch)
  | misread => exact absurd rfl hup
  | _ => cases hsent

theorem Steps.sent_pends {a : Action} {d : Data Word} (hS : Sessions s) (hs : Steps s a t)
    (hsent : (s.node p).ctl.sent = some d) (hpend : Pends s p d) (hup : (t.node p).ctl ≠ .crashed)
    (hlog : t.log = s.log ++ es) :
    (t.node p).ctl.sent = some d ∧ Pends t p d ∨ .store p d.ga d.data ∈ es := by
  have hkeep : t.node p = s.node p → t.net p = s.net p → (t.node p).ctl.sent = some d ∧ Pends t p d := by
    intro hnode hnet
    rw [Pends, hnode, hnet]
    exact ⟨hsent, hpend⟩
  cases hs with
  | begin q op hidle hsus =>
    have hpq : p ≠ q := by
      rintro rfl
      rw [hidle] at hsent
      cases hsent
    exact Or.inl (hkeep (State.begun_ne hpq) rfl)
  | accept m c y hc hm hidle =>
    have hpc : p ≠ c := by
      rintro rfl
      rw [hc] at hsent
      cases hsent
    have hpm : p ≠ m := by
      rintro rfl
      rw [hidle] at hsent
      cases hsent
    exact Or.inl (hkeep (State.accepted_ne hpc hpm) (State.accepted_net_ne hpc))
  | exec q env e _ hm =>
    by_cases hpq : p = q
    · subst hpq
      rw [Effect.apply_self] at hup
      have hself := hm.sent_pends hS rfl hsent hpend hup
      rw [Effect.apply_self]
      exact Or.inl hself
    · rcases hm.pends_ne hS rfl hpq hpend with hp | hstore
      · left
        rw [Effect.apply_ne hpq]
        exact ⟨hsent, hp⟩
      · right
        rw [← List.append_cancel_left hlog, hstore]
        exact List.mem_singleton.mpr rfl

theorem Steps.crashed {a : Action} (hs : Steps s a t) (hp : (s.node p).ctl = .crashed) : (t.node p).ctl = .crashed := by
  cases hs with
  | begin q op hidle hsus =>
    have hpq : p ≠ q := by
      rintro rfl
      rw [hidle] at hp
      cases hp
    rw [State.begun_ne hpq, hp]
  | accept m c y hc hm hidle =>
    have hpc : p ≠ c := by
      rintro rfl
      rw [hc] at hp
      cases hp
    have hpm : p ≠ m := by
      rintro rfl
      rw [hidle] at hp
      cases hp
    rw [State.accepted_ne hpc hpm, hp]
  | exec q env e _ hm =>
    have hpq : p ≠ q := by
      rintro rfl
      exact hm.awake.2 hp
    rw [Effect.apply_ne hpq, hp]

theorem Copied.replies (hS : Sessions s) (hM : Mirrors s M) (hC : Copied s M) (hsound : M.Sound)
    (h : Moves s n env (s.node n).ctl e) {ga : GlobalAddress} {w : Word} (ha : Arriving (e.apply s n) p ga w) :
    M.Known ga.hash w := by
  obtain ⟨hctl, dh, rest, hch, hd⟩ := ha
  obtain ⟨hold, hcase⟩ := h.replied hS rfl hctl hch (by simp [hd])
  have hsame : s.net p = some dh → M.Known ga.hash w := fun hnet => hC.replied p ga w ⟨hold, dh, rest, hnet, hd⟩
  by_cases hans : (s.node n).ctl.answers = some p
  · rcases hcase with hnet | ⟨d, hy⟩ | ⟨ga', srcID, hreq, -⟩ | ⟨-, hwire, hserves⟩
    · exact hsame hnet
    · cases hy
    · cases hreq
    · cases hserves with
      | read sga b hl hb =>
        cases hwire
        cases hd
        refine ⟨ga, rfl, hsound _ _ _ ?_⟩
        have hid : ga.id = n := hl
        rw [hM.cells, hid]
        exact congrArg (Option.map fun b => b.record.data) hb
      | readNull => cases hwire
      | readCached sga it hne hit =>
        cases hwire
        cases hd
        rcases hC.cached n _ _ _ h.awake.2 (Cache.stores_of_hit hit) with hknown | ⟨d, hsent, -⟩
        · exact hknown
        · cases hx : (s.node n).ctl with
          | exchange ph y =>
            rw [hx] at hans
            cases hans
          | _ =>
            rw [hx] at hsent
            cases hsent
      | forward r hf =>
        cases hwire
        cases hd
  · by_cases hpn : p = n
    · subst hpn
      rw [Effect.apply_self] at hctl
      exact absurd (h.asks hS rfl hctl hch) (by simp [hd])
    · rw [h.net_ne hpn hans] at hch
      exact hsame hch

theorem Copied.steps {a : Action} (hS : Sessions s) (hM : Mirrors s M) (hC : Copied s M) (hsound : M.Sound)
    (hs : Steps s a t) (hlog : t.log = s.log ++ es) (htrace : Trace Memory.Does M es M') : Copied t M' := by
  refine ⟨fun p k ga v hup hst => ?_, fun p ga w harr => ?_, fun p ga w hf => ?_⟩
  · cases hs.comes hst with
    | kept hold =>
      rcases hC.cached p k ga v (fun hc => hup (hs.crashed hc)) hold with hknown | ⟨d, hsent, hpend, hk, hw⟩
      · exact Or.inl (Memory.known_mono htrace hknown)
      · rcases hs.sent_pends hS hsent hpend hup hlog with hstill | hstored
        · exact Or.inr ⟨d, hstill.1, hstill.2, hk, hw⟩
        · rw [hk, hw]
          exact Or.inl (Memory.known_of_store htrace hstored)
    | fetched w dh rest hctl hch hd _ hk hv =>
      rw [hk, hv]
      exact Or.inl (Memory.known_mono htrace (hC.replied p ga w ⟨hctl, dh, rest, hch, hd⟩))
    | written d dh hctl hch hctl' hnet hga hk hv =>
      refine Or.inr ⟨d, by rw [hctl']; rfl, Or.inr ⟨by rw [hctl']; rfl, fun dh' sga hch' => ?_⟩, ?_, ?_⟩
      · have hl := (hS.link p dh hch).2
        rw [hctl] at hl
        obtain ⟨rfl, -⟩ := hl.of_connected
        rw [hnet] at hch'
        cases hch'
        exact List.not_mem_nil
      · rw [hk, hga]
      · rw [hv]
  · refine Memory.known_mono htrace ?_
    cases hs with
    | begin q op hidle hsus =>
      obtain ⟨hctl, dh, rest, hch, hd⟩ := harr
      by_cases hpq : p = q
      · subst hpq
        rw [State.begun_self] at hctl
        cases op <;> cases hctl
      · rw [State.begun_ne hpq] at hctl
        exact hC.replied p ga w ⟨hctl, dh, rest, hch, hd⟩
    | accept m c y hc hm hidle =>
      obtain ⟨hctl, dh, rest, hch, hd⟩ := harr
      by_cases hpc : p = c
      · subst hpc
        rw [State.accepted_client] at hctl
        cases hctl
      · rw [State.accepted_net_ne hpc] at hch
        by_cases hpm : p = m
        · subst hpm
          rw [State.accepted_server hpc] at hctl
          cases hctl
        · rw [State.accepted_ne hpc hpm] at hctl
          exact hC.replied p ga w ⟨hctl, dh, rest, hch, hd⟩
    | exec q env e _ hm => exact hC.replies hS hM hsound hm harr
  · refine Memory.known_mono htrace ?_
    rcases hs.obtains hf with hold | hobtains
    · exact hC.found p ga w hold
    · generalize hcopy : Found.copy w = f at hobtains
      cases hobtains with
      | own b => cases hr : b.record.readable <;> simp [hr] at hcopy
      | hit ga' c hctl hst =>
        cases hcopy
        rcases hC.cached p _ _ _ (by simp [hctl]) hst with hknown | ⟨d, hsent, -⟩
        · exact hknown
        · rw [hctl] at hsent
          cases hsent
      | fetch w harr =>
        cases hcopy
        exact hC.replied p ga _ harr

structure Refined (s : State) (M : Memory) : Prop where
  sessions : Sessions s
  suspends : Suspends s
  homed : ∀ n, (s.node n).ctl.Homed n
  mirrors : Mirrors s M
  copied : Copied s M
  sound : M.Sound

theorem State.accepted_ongoing (hc : (s.node c).ctl = .exchange .connecting y) (hm : (s.node m).ctl = .idle)
    (p : NodeId) : (s.accepted m c y).ongoing p = s.ongoing p := by
  rw [State.ongoing, State.ongoing]
  by_cases hpc : p = c
  · subst hpc
    rw [State.accepted_client]
    refine ongoing_congr rfl ?_
    rw [hc]
    rfl
  · rw [State.accepted_net_ne hpc]
    by_cases hpm : p = m
    · subst hpm
      rw [State.accepted_server hpc]
      refine ongoing_congr rfl ?_
      rw [hm]
      rfl
    · rw [State.accepted_ne hpc hpm]

theorem Steps.mirrors {a : Action} (h : Refined s M) (hs : Steps s a t) :
    ∃ es M', t.log = s.log ++ es ∧ Trace Memory.Does M es M' ∧ Mirrors t M' := by
  cases hs with
  | begin n op hidle hsus =>
    have hup : (s.node n).ctl ≠ .crashed := by simp [hidle]
    have hnone : M.calls n = none := by
      rw [h.mirrors.calls n hup, State.ongoing, ongoing_of_own hsus, hidle]
      rfl
    refine ⟨_, _, State.begun_log, .single (.call n (op.stamp s.clock) hnone), ?_, ?_, fun p hp => ?_⟩
    · intro m ptr
      rw [State.begun_node]
      exact h.mirrors.cells m ptr
    · rw [State.begun_node]
      exact h.mirrors.locks
    · by_cases hpn : p = n
      · subst hpn
        have hsus' : ((s.begun p (op.stamp s.clock)).node p).suspended = [] := by
          rw [State.begun_self]
          exact hsus
        rw [Memory.put_calls_self, State.ongoing, ongoing_of_own hsus', State.begun_self]
        cases op <;> rfl
      · rw [State.begun_ne hpn] at hp
        rw [Memory.put_calls_ne hpn, h.mirrors.calls p hp, State.ongoing, State.ongoing, State.begun_ne hpn,
          State.begun_net]
  | accept m c y hc htarget hm =>
    refine ⟨[], M, by simp, .nil M, ?_, ?_, fun p hp => ?_⟩
    · intro q ptr
      rw [State.accepted_node]
      exact h.mirrors.cells q ptr
    · rw [State.accepted_node]
      exact h.mirrors.locks
    · rw [State.accepted_ongoing hc hm]
      exact h.mirrors.calls p fun hcrash => hp ((Steps.accept m c y hc htarget hm).crashed hcrash)
  | exec n env e hsound hm =>
    obtain ⟨M', htrace, hM'⟩ := hm.mirrors h.sessions h.suspends (h.homed n) h.mirrors h.copied h.sound hsound rfl
    exact ⟨_, M', rfl, htrace, hM'⟩

theorem Refined.steps {a : Action} (h : Refined s M) (hs : Steps s a t) :
    ∃ es M', t.log = s.log ++ es ∧ Trace Memory.Does M es M' ∧ Refined t M' := by
  obtain ⟨es, M', hlog, htrace, hM'⟩ := hs.mirrors h
  refine ⟨es, M', hlog, htrace, h.sessions.steps hs, h.suspends.steps hs, homed_steps h.homed hs, hM', ?_, ?_⟩
  · exact h.copied.steps h.sessions h.mirrors h.sound hs hlog htrace
  · exact htrace.invariant (I := Memory.Sound) (fun _ _ _ hM hd => hd.sound hM) h.sound

theorem Quiet.refined (hs : Quiet s) (hempty : ∀ n k ga c, ¬ (s.node n).cache.Stores k ga c) :
    Refined s s.memory where
  sessions := hs.sessions
  suspends := hs.suspends
  homed n := by
    rw [hs.idle n]
    trivial
  mirrors := by
    refine ⟨fun _ _ => rfl, rfl, fun n _ => ?_⟩
    rw [State.ongoing, ongoing_of_own (hs.suspended n), hs.idle n]
    rfl
  copied := by
    refine ⟨fun n k ga c _ hst => absurd hst (hempty n k ga c), fun n ga w harr => ?_, fun n ga w hf => ?_⟩
    · have hctl := harr.1
      rw [hs.idle n] at hctl
      cases hctl
    · rw [hs.idle n] at hf
      cases hf
  sound n ptr w hw := Option.map_eq_some_iff.mp hw

theorem run_refined {as : List Action} (hs : Quiet s) (hempty : ∀ n k ga c, ¬ (s.node n).cache.Stores k ga c)
    (h : run step s as = some t) : ∃ M, Trace Memory.Does s.memory t.log M ∧ Refined t M := by
  obtain ⟨es, M, hlog, htrace, hM⟩ := run_refines State.log (R := Refined)
    (fun s M a t hR ht => hR.steps (steps_of_step ht)) (hs.refined hempty) h
  rw [hs.log, List.nil_append] at hlog
  exact ⟨M, hlog ▸ htrace, hM⟩

/-- Every run of the nodes is a run of one shared memory with one lock table, whose cells and whose table are those of
the homes and of the lock node at the end. -/
theorem refines_sharedMemory {as : List Action} (hs : Quiet s)
    (hempty : ∀ n k ga c, ¬ (s.node n).cache.Stores k ga c) (h : run step s as = some t) :
    ∃ M, Trace Memory.Does s.memory t.log M ∧ Mirrors t M := by
  obtain ⟨M, htrace, hM⟩ := run_refined hs hempty h
  exact ⟨M, htrace, hM.mirrors⟩

end

theorem start_empty (mem : NodeId → UInt64 → Option Block) (n : NodeId) (k : UInt64) (ga : GlobalAddress) (c : Copy) :
    ¬ ((State.start mem).node n).cache.Stores k ga c := Cache.stores_new

theorem readAgain_refines : ∃ t, run step (.start homeBlock) readAgain = some t ∧
    ∃ M, Trace Memory.Does (State.start homeBlock).memory t.log M ∧ Mirrors t M := by
  have hrun : (run step (.start homeBlock) readAgain).isSome = true := by decide
  obtain ⟨t, ht⟩ := Option.isSome_iff_exists.mp hrun
  exact ⟨t, ht, refines_sharedMemory (State.quiet_start homeBlock) (start_empty homeBlock) ht⟩

end CacheCoherence.Protocol
