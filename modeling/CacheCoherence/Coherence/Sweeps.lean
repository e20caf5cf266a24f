import CacheCoherence.Coherence.Fetches
import CacheCoherence.Coherence.Workload
import CacheCoherence.Foundation.TransitionRuns

/-! # How home applies a write

Home decides from the record whether a write has to invalidate. A remote write is stored before its
broadcast, and its writer is detained until the broadcast is over; a local write is stored after it.
-/
namespace CacheCoherence.Protocol
open TransitionRuns VersionOrder

def Broadcaster.sweeps : Broadcaster → Option (Data Word × NodeId)
  | .startInvalidations d srcID => some (d, srcID)
  | _ => none

def Ctl.sweeps : Ctl → Option (Data Word × NodeId)
  | .broadcast _ _ b => b.sweeps
  | .exchange _ (.invalidate _ _ _ b) => b.sweeps
  | .closing (.invalidate _ _ _ b) _ => b.sweeps
  | _ => none

/-- The local write that the thread has looked up the record for. -/
def Ctl.decided : Ctl → Option (Data Word)
  | .memcpy d => some d
  | .broadcast _ _ b => b.early
  | .exchange _ (.invalidate _ _ _ b) => b.early
  | .closing (.invalidate _ _ _ b) _ => b.early
  | _ => none

/-- The writer has lost its connection to home and has not got a new one. -/
def Detained (s : State) (n : NodeId) (d : Data Word) : Prop :=
  ((s.node n).ctl.sent = some d ∧ ∃ ch, s.net n = some ch ∧ ch.isOpen = false) ∨
  (∃ r rest, (s.node n).suspended = (d, r) :: rest) ∨
  ∃ r, (s.node n).ctl = .exchange .connecting (.reconnect d r)

def Registered (s : State) (n : NodeId) (ga : GlobalAddress) (w : Word) : Prop :=
  ∃ b, (s.node port).mem ga.ptr = some b ∧ n ∈ b.record.sharerNodes ∧ b.record.data = w

/-- What is known of every run of reads and writes from the state `s₀`. -/
structure History (G : GlobalAddress → Prop) (s₀ s : State) : Prop where
  sessions : Sessions s
  suspends : Suspends s
  calls : Calls s
  workload : Workload G s
  stores : StoreOrder s
  sentOwn : SentOwn s
  uncached : HomeUncached s
  initial : ∀ ga, G ga → ∃ w, s₀.homeWord ga = some w ∧ w.stamp = 0
  newest : ∀ ga, G ga → (versions s₀ ga s.log).getLast? = s.homeWord ga
  taken : ∀ c d nodes srcID, (s.node port).ctl = .startInvalidations c d nodes srcID →
    ∃ b, (s.node port).mem d.ga.ptr = some b ∧ b.record.sharerNodes = nodes
  detained : ∀ d n, (s.node port).ctl.sweeps = some (d, n) → Detained s n d
  arriving : ∀ n ga w, Arriving s n ga w → Registered s n ga w

/-- The state after every address in `G` was initialised by a write: its record is as a write leaves it,
and a copy can only be the one of that writer. -/
structure Initialised (G : GlobalAddress → Prop) (s : State) : Prop where
  quiet : Quiet s
  home : ∀ ga, G ga → ga.id = port
  block : ∀ ga, G ga → ∃ b, (s.node port).mem ga.ptr = some b ∧ b.size = ga.size ∧
    b.record.readable = true ∧ b.record.sharerNodes = [] ∧ b.record.data.stamp = 0
  copies : ∀ n k ga v, (s.node n).cache.Stores k ga v →
    n ≠ port ∧ G ga ∧ k = ga.hash ∧ v.fetched = false ∧ s.homeWord ga = some v.word

section
variable {G : GlobalAddress → Prop} {s t s₀ : State} {n m p c : NodeId} {e : Effect} {env : Env} {x : Ctl}
variable {d d' : Data Word} {ga : GlobalAddress} {w : Word}

inductive Phases (s : State) (n : NodeId) (x : Ctl) (e : Effect) : Prop where
  | plain : (∀ ch m ga, ¬ e.self.ctl.ahead ch m ga) → e.self.ctl.sweeps = none → e.self.ctl.decided = none →
      (∀ c d nodes srcID, e.self.ctl ≠ .startInvalidations c d nodes srcID) → Phases s n x e
  | along : e.self.ctl.sweeps = x.sweeps → e.self.ctl.decided = x.decided →
      (∀ c d nodes srcID, e.self.ctl ≠ .startInvalidations c d nodes srcID) → Phases s n x e
  | decide (d : Data Word) (b : Block) : x = .access (.write d) → (s.node n).mem d.ga.ptr = some b →
      e = ⟨(s.node n).goto (if b.record.writeInvalidates then
          .broadcast b.record.sharerNodes d.ga (.write d) else .memcpy d), none, []⟩ → Phases s n x e
  | take (c : NodeId) (d : Data Word) (b : Block) (srcID : UInt16) : x = .serving c →
      (∃ ch sd, s.net c = some ch ∧ ch.up = some (.write sd) ∧ d = .ofSendable sd) →
      (s.node n).mem d.ga.ptr = some b →
      e.self = (s.node n).goto (.startInvalidations c d b.record.sharerNodes srcID) → Phases s n x e
  | sweep (c : NodeId) (d : Data Word) (nodes : List NodeId) (srcID : UInt16) :
      x = .startInvalidations c d nodes srcID →
      e.self.ctl = .broadcast nodes d.ga (.startInvalidations d srcID) → Phases s n x e

theorem plain_of_detour (h : e.self.ctl = (s.node n).endSession.ctl) : Phases s n x e := by
  rcases endSession_ctl (s.node n) with hc | ⟨d, result, hc⟩
  all_goals
    rw [hc] at h
    exact .plain (by rw [h]; exact fun _ _ _ => id) (by rw [h]; rfl) (by rw [h]; rfl) (by simp [h])

theorem plain_of_lockAnswer (ns : NodeState) {g : Bool} {k : LockSite} (h : e.self.ctl = (ns.lockAnswer n g k).1.ctl) :
    Phases s n x e := by
  rcases lockAnswer_ctl (n := n) ns g k with hc | hc | ⟨a, hc⟩
  all_goals
    rw [hc] at h
    exact .plain (by rw [h]; exact fun _ _ _ => id) (by rw [h]; rfl) (by rw [h]; rfl) (by simp [h])

theorem Moves.phases (hS : Sessions s) (hW : Workload G s) (hx : (s.node n).ctl = x) (h : Moves s n env x e) :
    Phases s n x e := by
  have hin : x.Within G n := hx ▸ hW.within n
  cases h with
  | lockGrant k locks granted hn hset => exact plain_of_lockAnswer _ rfl
  | connect x y hopen =>
    cases hopen with
    | invalidate m rest ga b => exact .along rfl rfl (fun _ _ _ _ hc => by cases hc)
    | _ => exact .plain (fun _ _ _ => id) rfl rfl (fun _ _ _ _ hc => by cases hc)
  | writeLocal d b hl hb => exact .decide d b rfl hb rfl
  | freeLocal ga b => exact absurd hin id
  | swept ga b =>
    cases b with
    | write d => exact .along rfl rfl (by simp [stepBroadcast])
    | startInvalidations d srcID => exact plain_of_detour rfl
    | _ => exact .plain (fun _ _ _ => id) rfl rfl (by simp [stepBroadcast])
  | send y ch hch hnw hnr => exact .along (by cases y <;> rfl) (by cases y <;> rfl) (by simp)
  | received y r rest ch hch hd => exact .along (by cases y <;> rfl) (by cases y <;> rfl) (by simp)
  | closed y r rest ch hch hd =>
    cases y with
    | setLock k =>
      cases r with
      | lock granted => exact plain_of_lockAnswer (s.node n) rfl
      | _ => exact .plain (fun _ _ _ => id) rfl rfl (by simp [NodeState.closed])
    | invalidate m rest ga b => exact .along rfl rfl (by simp [NodeState.closed])
    | reconnect d result => exact .plain (fun _ _ _ => id) rfl rfl (by simp [NodeState.closed])
    | _ => cases r <;> exact .plain (fun _ _ _ => id) rfl rfl (by simp [NodeState.closed])
  | serve c ch r e hch hpeer hup hs =>
    cases hs with
    | reset => exact plain_of_detour rfl
    | writeShared sd b hl hb hinv => exact .take c _ b _ rfl ⟨ch, sd, hch, hup, rfl⟩ hb rfl
    | free sga b =>
      rcases hW.request hS hx hch hpeer hup
        with ⟨k, hr, -⟩ | hr | ⟨sga, hr⟩ | ⟨-, -, ⟨ga, -, -, -, hr⟩ | ⟨d, -, -, -, hr⟩⟩
      all_goals cases hr
    | readNull | forward => exact .plain (fun _ _ _ => id) rfl rfl (fun _ _ _ _ hc => by cases hc)
    | malloc | read | readCached | write | locks | invalidate =>
      exact .plain (by simp only [NodeState.copyRecord_ctl, hx]; exact fun _ _ _ => id)
        (by simp only [NodeState.copyRecord_ctl, hx]; rfl) (by simp only [NodeState.copyRecord_ctl, hx]; rfl)
          (by simp [hx])
  | startInvalidations c d nodes srcID ch b hch hb => exact .sweep c d nodes srcID rfl rfl
  | _ => exact .plain (fun _ _ _ => id) rfl rfl (by simp)

theorem Detained.calling (hsus : Suspends s) (h : Detained s n d) : (s.node n).calling = some (.write d) := by
  rcases h with ⟨hsent, -⟩ | ⟨r, rest, hs⟩ | ⟨r, hctl⟩
  · have hop := op_of_sent hsent
    rw [calling_of_own (hsus.of_own rfl (aside_of_op hop)), hop]
  · rw [NodeState.calling, hs]
  · have hop : (s.node n).ctl.op = some (.write d) := by
      rw [hctl]
      rfl
    rw [calling_of_own (hsus.of_own rfl (aside_of_op hop)), hop]

theorem Detained.moves_self (hS : Sessions s) (hsus : Suspends s) (h : Detained s n d)
    (hm : Moves s n env (s.node n).ctl e) : Detained (e.apply s n) n d := by
  rcases h with ⟨hsent, ch, hch, ho⟩ | ⟨r, rest, hs⟩ | ⟨r, hctl⟩
  · have hl := (hS.link n ch hch).2
    unfold Ctl.sent at hsent
    split at hsent
    · rename_i d' hctl
      cases hsent
      rw [hctl] at hl hm
      cases hm with
      | invalidated _ sga rest dh hdh hd =>
        obtain rfl : ch = dh := Option.some.inj (hch.symm.trans hdh)
        refine Or.inl ⟨by rw [Effect.apply_self]; rfl, { ch with down := rest }, ?_, ho⟩
        rw [Effect.net_wire rfl, Function.update_self]
      | received _ r rest dh hdh hd hp hni =>
        obtain rfl : ch = dh := Option.some.inj (hch.symm.trans hdh)
        rcases hl.of_waiting hd with ⟨rfl, -⟩ | ⟨d'', sga, heq, rfl, -⟩
        · cases ho
        · exact absurd rfl (hni d'' sga heq)
      | misread _ r rest dh hdh hd hmis => cases hmis
      | connect _ y hopen => cases hopen
    · rename_i d' hctl
      cases hsent
      rw [hctl] at hl hm
      cases hm with
      | suspend _ sga rest dh hdh hd =>
        refine Or.inr (Or.inl ⟨.ofSendable sga, (s.node n).suspended, ?_⟩)
        rw [Effect.apply_self]
        rfl
      | misread _ r rest dh hdh hd hmis =>
        obtain rfl : ch = dh := Option.some.inj (hch.symm.trans hdh)
        obtain ⟨d'', sga, -, rfl, -⟩ := hl.of_again hd
        cases hmis with
        | again _ _ hne => exact absurd rfl (hne sga)
      | connect _ y hopen => cases hopen
    · cases hsent
  · obtain ⟨q, hq⟩ : ∃ q, (s.node n).suspended = [q] := by
      rcases hsus n with hnil | ⟨-, hq⟩
      · rw [hnil] at hs
        cases hs
      · exact hq
    rcases hm.suspends rfl with ⟨hkeep, -⟩ | ⟨-, -, hctl⟩ | ⟨d', sga, hx, -⟩
    · refine Or.inr (Or.inl ⟨r, rest, ?_⟩)
      rw [Effect.apply_self, hkeep, hs]
    · refine Or.inr (Or.inr ⟨r, ?_⟩)
      rw [Effect.apply_self, hctl, NodeState.endSession, hs]
    · rw [hsus.of_own hx rfl] at hs
      cases hs
  · rw [hctl] at hm
    cases hm with
    | connect _ y hopen => cases hopen
    | misread _ _ _ _ _ _ hmis => cases hmis

theorem Detained.moves_ne (hS : Sessions s) (hx : (s.node p).ctl = x) (h : Detained s n d)
    (hm : Moves s p env x e) (hn : n ≠ p) : Detained (e.apply s p) n d := by
  rw [Detained, Effect.apply_ne hn]
  refine h.imp (fun ⟨hsent, ch, hch, ho⟩ => ⟨hsent, ch, ?_, ho⟩) id
  by_cases hans : x.answers = some n
  · have hopen : ∀ dh, s.net n = some dh → dh.isOpen = true → False := by
      intro dh hdh hod
      obtain rfl : ch = dh := Option.some.inj (hch.symm.trans hdh)
      rw [ho] at hod
      cases hod
    cases hm with
    | discardFor ga c srcID dh hdh =>
      obtain rfl : c = n := Option.some.inj hans
      obtain ⟨dh', hdh', -, hod, -⟩ := hS.client_link hx rfl (by simp)
      exact absurd (hopen dh' hdh' hod) id
    | startInvalidations c d' nodes srcID dh b hdh hb =>
      obtain rfl : c = n := Option.some.inj hans
      obtain ⟨dh', hdh', -, hod, -⟩ := hS.client_link hx rfl (by simp)
      exact absurd (hopen dh' hdh' hod) id
    | serve c dh r e hdh hpeer hup hs =>
      obtain rfl : c = n := Option.some.inj hans
      rcases (hS.serving_link hx hdh hpeer).of_up hup with ⟨y, -, -, -, rfl⟩ | ⟨y, a, -, -, -, rfl⟩
      · exact absurd (hopen _ hdh rfl) id
      · exact absurd (hopen _ hdh rfl) id
    | misread _ _ _ _ _ _ hmis => cases hmis <;> cases hans
    | connect _ y hopen => cases hopen <;> cases hans
    | _ => cases hans
  · rw [hm.net_ne hn hans, hch]

/-- Home accepts nobody while it is busy, so the writer does not get its connection. -/
theorem Detained.accept {y : Exchange} (h : Detained s n d) (hc : (s.node c).ctl = .exchange .connecting y)
    (hm : y.target = m) (hidle : (s.node m).ctl = .idle) (hbusy : (s.node port).ctl ≠ .idle) :
    Detained (s.accepted m c y) n d := by
  rcases h with ⟨hsent, ch, hch, ho⟩ | ⟨r, rest, hs⟩ | ⟨r, hctl⟩
  · have hnc : n ≠ c := by
      rintro rfl
      rw [hc] at hsent
      cases hsent
    have hnm : n ≠ m := by
      rintro rfl
      rw [hidle] at hsent
      cases hsent
    refine Or.inl ⟨by rw [State.accepted_ne hnc hnm]; exact hsent, ch, ?_, ho⟩
    rw [State.accepted_net_ne hnc]
    exact hch
  · refine Or.inr (Or.inl ⟨r, rest, ?_⟩)
    rw [State.accepted_node]
    exact hs
  · have hnc : n ≠ c := by
      rintro rfl
      rw [hc] at hctl
      cases hctl
      have hp : port = m := hm
      exact hbusy (by rw [hp]; exact hidle)
    have hnm : n ≠ m := by
      rintro rfl
      rw [hidle] at hctl
      cases hctl
    refine Or.inr (Or.inr ⟨r, ?_⟩)
    rw [State.accepted_ne hnc hnm]
    exact hctl

theorem Registered.homeWord (h : Registered s n ga w) : s.homeWord ga = some w := by
  obtain ⟨b, hb, -, rfl⟩ := h
  rw [State.homeWord, hb]
  rfl

theorem Registered.congr (h : Registered s n ga w) (hmem : (t.node port).mem ga.ptr = (s.node port).mem ga.ptr) :
    Registered t n ga w := by
  rw [Registered, hmem]
  exact h

theorem Arriving.address (hW : Workload G s) {w : Word} (h : Arriving s n ga w) : G ga ∧ n ≠ port := by
  have hin := hW.within n
  rw [h.1] at hin
  exact hin

theorem History.initial_versions (h : History G s₀ s) (hga : G ga) : ∃ w, versions s₀ ga s.log = w :: stored ga s.log ∧
    w.stamp = 0 := by
  obtain ⟨w, hw, hstamp⟩ := h.initial ga hga
  exact ⟨w, by rw [versions, hw]; rfl, hstamp⟩

theorem History.nodup (h : History G s₀ s) (hga : G ga) : (versions s₀ ga s.log).Nodup := by
  obtain ⟨w, hv, hstamp⟩ := h.initial_versions hga
  rw [hv, List.nodup_cons]
  refine ⟨fun hmem => ?_, h.stores.nodup ga⟩
  obtain ⟨m, hm⟩ := mem_stored.mp hmem
  obtain ⟨d, -, hw, hat⟩ := h.stores.source m ga w hm
  have hpos := hat.1
  rw [hw, hstamp] at hpos
  omega

theorem History.noNewer_home (h : History G s₀ s) (hga : G ga) (hw : s.homeWord ga = some w) {v : Word}
    (hv : v ∈ versions s₀ ga s.log) : NoNewer (versions s₀ ga s.log) v w :=
  noNewer_getLast (h.nodup hga) ((h.newest ga hga).trans hw) hv

theorem History.home_mem (h : History G s₀ s) (hga : G ga) (hw : s.homeWord ga = some w) :
    w ∈ versions s₀ ga s.log := List.mem_of_getLast? ((h.newest ga hga).trans hw)

/-- A move applies no write to `ga` and keeps its value, or it applies one and has its value. -/
theorem HomeStep.homeWord (hW : Workload G s) (h : HomeStep G s n x e) (hga : G ga) :
    ((e.apply s n).homeWord ga = s.homeWord ga ∧ stored ga e.events = []) ∨
    ∃ w, stored ga e.events = [w] ∧ (e.apply s n).homeWord ga = some w := by
  rcases h.mem hW hga with ⟨hmem, hno⟩ | ⟨-, b, r, hb, hb', -, ⟨⟨c, rfl⟩, hev⟩ | ⟨m, w, hev, hr⟩⟩
  · refine Or.inl ⟨by rw [State.homeWord, hmem]; rfl, ?_⟩
    rw [List.eq_nil_iff_forall_not_mem]
    intro w hw
    obtain ⟨m, hm⟩ := mem_stored.mp hw
    exact hno m w hm
  · refine Or.inl ⟨?_, by rw [hev]; rfl⟩
    rw [State.homeWord, State.homeWord, hb', hb]
    rfl
  · refine Or.inr ⟨w, by rw [hev, stored_self], ?_⟩
    rw [State.homeWord, hb', Option.map_some, hr]

theorem Steps.taken {a : Action} (hS : Sessions s) (hW : Workload G s) (hs : Steps s a t) {nodes : List NodeId}
    {srcID : UInt16} (hc : (t.node port).ctl = .startInvalidations c d nodes srcID) :
    t.node port = s.node port ∨ ∃ env ch sd b, a = .exec port env ∧ (s.node port).ctl = .serving c ∧
      s.net c = some ch ∧ ch.up = some (.write sd) ∧ d = .ofSendable sd ∧ (s.node port).mem d.ga.ptr = some b ∧
      nodes = b.record.sharerNodes ∧ t.node port = (s.node port).goto (.startInvalidations c d nodes srcID) ∧
      ∀ n, n ≠ port → t.node n = s.node n := by
  cases hs with
  | begin n op hidle hsus =>
    by_cases hn : port = n
    · subst hn
      rw [State.begun_self] at hc
      cases op <;> cases hc
    · exact Or.inl (State.begun_ne hn)
  | accept m c' y hcc hm hidle =>
    by_cases hpc : port = c'
    · subst hpc
      rw [State.accepted_client] at hc
      cases hc
    · by_cases hpm : port = m
      · subst hpm
        rw [State.accepted_server hpc] at hc
        cases hc
      · exact Or.inl (State.accepted_ne hpc hpm)
  | exec n env e _ hm =>
    by_cases hn : port = n
    · subst hn
      rw [Effect.apply_self] at hc
      cases hm.phases hS hW rfl with
      | plain _ _ _ hne => exact absurd hc (hne c d nodes srcID)
      | along _ _ hne => exact absurd hc (hne c d nodes srcID)
      | decide d' b hx hb he =>
        rw [he] at hc
        cases hwi : b.record.writeInvalidates <;> simp [hwi] at hc
      | take c' d' b src' hx hup hb he =>
        rw [he] at hc
        cases hc
        obtain ⟨ch, sd, hch, hwr, hd⟩ := hup
        refine Or.inr ⟨env, ch, sd, b, rfl, hx, hch, hwr, hd, hb, rfl, ?_, fun n hn => Effect.apply_ne hn⟩
        rw [Effect.apply_self, he]
      | sweep c' d' nodes' src' hx he =>
        rw [he] at hc
        cases hc
    · exact Or.inl (Effect.apply_ne hn)

theorem Steps.decided {a : Action} (hS : Sessions s) (hW : Workload G s) (hs : Steps s a t)
    (hd : (t.node port).ctl.decided = some d) : (s.node port).ctl.decided = some d ∨
    ∃ env b, a = .exec port env ∧ (s.node port).ctl = .access (.write d) ∧ (s.node port).mem d.ga.ptr = some b ∧
      (t.node port).ctl = (if b.record.writeInvalidates then
        .broadcast b.record.sharerNodes d.ga (.write d) else .memcpy d) ∧ ∀ n, n ≠ port → t.node n = s.node n := by
  cases hs with
  | begin n op hidle hsus =>
    by_cases hn : port = n
    · subst hn
      rw [State.begun_self] at hd
      cases op <;> cases hd
    · rw [State.begun_ne hn] at hd
      exact Or.inl hd
  | accept m c y hc hm hidle =>
    by_cases hpc : port = c
    · subst hpc
      rw [State.accepted_client] at hd
      rw [hc]
      left
      cases y <;> exact hd
    · by_cases hpm : port = m
      · subst hpm
        rw [State.accepted_server hpc] at hd
        cases hd
      · rw [State.accepted_ne hpc hpm] at hd
        exact Or.inl hd
  | exec n env e _ hm =>
    by_cases hn : port = n
    · subst hn
      rw [Effect.apply_self] at hd
      cases hm.phases hS hW rfl with
      | plain _ _ hno =>
        rw [hno] at hd
        cases hd
      | along _ hdec => exact Or.inl (hdec ▸ hd)
      | decide d' b hx hb he =>
        have hself : e.self.ctl = if b.record.writeInvalidates then
            .broadcast b.record.sharerNodes d'.ga (.write d') else .memcpy d' := by rw [he, NodeState.goto_ctl]
        have hdd : d' = d := by
          rw [hself] at hd
          cases hwi : b.record.writeInvalidates
          all_goals
            simp only [hwi] at hd
            cases hd
            rfl
        subst hdd
        exact Or.inr ⟨env, b, rfl, hx, hb, by rw [Effect.apply_self, hself], fun n hn => Effect.apply_ne hn⟩
      | take c d' b srcID hx hup hb he =>
        rw [he] at hd
        cases hd
      | sweep c d' nodes srcID hx he =>
        rw [he] at hd
        cases hd
    · rw [Effect.apply_ne hn] at hd
      exact Or.inl hd

theorem History.detained_moves (h : History G s₀ s) (hm : Moves s n env (s.node n).ctl e)
    (hsw : ((e.apply s n).node port).ctl.sweeps = some (d, p)) : Detained (e.apply s n) p d := by
  have hkeep : (s.node port).ctl.sweeps = some (d, p) → Detained (e.apply s n) p d := by
    intro hold
    have hdet := h.detained d p hold
    by_cases hpn : p = n
    · subst hpn
      exact hdet.moves_self h.sessions h.suspends hm
    · exact hdet.moves_ne h.sessions rfl hm hpn
  by_cases hn : port = n
  · subst hn
    rw [Effect.apply_self] at hsw
    cases hm.phases h.sessions h.workload rfl with
    | plain _ hs =>
      rw [hs] at hsw
      cases hsw
    | along hs =>
      rw [hs] at hsw
      exact hkeep hsw
    | decide d' b hx hb he =>
      rw [he] at hsw
      cases hwi : b.record.writeInvalidates <;> simp only [hwi] at hsw <;> cases hsw
    | take c' d' b src' hx hup hb he =>
      rw [he] at hsw
      cases hsw
    | sweep c' d' nodes' src' hx he =>
      rw [he] at hsw
      cases hsw
      rw [hx] at hm
      cases hm with
      | startInvalidations _ _ _ _ ch b hch hb =>
        obtain ⟨dh, hdh, hpeer, ho, hl⟩ := h.sessions.client_link hx rfl (by simp)
        obtain ⟨rfl, hown⟩ := hl.of_startInvalidations ho
        have hpc : p ≠ port := fun hp => (h.sessions.link p dh hdh).1 (hpeer.trans hp.symm)
        have hsent : (s.node p).ctl.sent = some d := by
          rcases hown with ⟨sga, hown, -⟩ | ⟨hown, -⟩
          · rw [hown]
            rfl
          · rw [hown]
            rfl
        refine Or.inl ⟨by rw [Effect.apply_ne hpc]; exact hsent,
          { ch.reply (.address (d.ga.sendable p)) with isOpen := false }, ?_, rfl⟩
        rw [Effect.net_wire rfl, Function.update_self]
      | connect _ y hopen => cases hopen
      | misread _ _ _ _ _ _ hmis => cases hmis
  · rw [Effect.apply_ne hn] at hsw
    exact hkeep hsw

theorem History.arriving_steps {a : Action} (h : History G s₀ s) (hs : Steps s a t) (ha : Arriving t p ga w) :
    Registered t p ga w := by
  rcases hs.arriving h.sessions h.uncached ha with ⟨hold, hmem⟩ | ⟨-, b, hb, rfl, hmem⟩
  · exact (h.arriving p ga w hold).congr (by rw [hmem])
  · refine ⟨{ b with record := b.record.register p }, ?_, by simp, rfl⟩
    rw [hmem, NodeState.copyRecord_mem_self, hb]
    rfl

theorem History.steps {a : Action} (h : History G s₀ s) (ha : a.accessesIn G) (hs : Steps s a t) :
    History G s₀ t := by
  refine ⟨h.sessions.steps hs, h.suspends.steps hs, h.calls.steps h.suspends hs,
    h.workload.steps h.sessions ha hs, h.stores.steps h.sessions h.suspends h.calls hs,
    h.sentOwn.steps hs, h.uncached.steps h.sessions hs, h.initial, ?_, ?_, ?_, ?_⟩
  · intro ga hga
    cases hs with
    | begin n op hidle hsus =>
      have hnil : stored ga [.call n (op.stamp s.clock)] = [] := rfl
      rw [State.begun_log, versions_append, hnil, List.append_nil, State.homeWord, State.begun_node]
      exact h.newest ga hga
    | accept m c y hc hm hidle =>
      rw [State.accepted_log, State.homeWord, State.accepted_node]
      exact h.newest ga hga
    | exec n env e _ hm =>
      rw [Effect.apply_log, versions_append]
      rcases (hm.home h.sessions h.workload rfl).homeWord h.workload hga with ⟨hw, hst⟩ | ⟨w, hst, hw⟩
      · rw [hst, List.append_nil, hw]
        exact h.newest ga hga
      · rw [hst, hw, List.getLast?_append]
        rfl
  · intro c d nodes srcID hctl
    rcases hs.taken h.sessions h.workload hctl with hsame | ⟨env, ch, sd, b, -, -, -, -, -, hb, hnodes, ht, -⟩
    · rw [hsame] at hctl ⊢
      exact h.taken c d nodes srcID hctl
    · rw [ht]
      exact ⟨b, hb, hnodes.symm⟩
  · intro d p hsw
    cases hs with
    | begin n op hidle hsus =>
      by_cases hn : port = n
      · subst hn
        rw [State.begun_self] at hsw
        cases op <;> cases hsw
      · rw [State.begun_ne hn] at hsw
        have hdet := h.detained d p hsw
        by_cases hpn : p = n
        · subst hpn
          rcases hdet with ⟨hsent, -⟩ | ⟨r, rest, hsp⟩ | ⟨r, hctl⟩
          · rw [hidle] at hsent
            cases hsent
          · rw [hsus] at hsp
            cases hsp
          · rw [hidle] at hctl
            cases hctl
        · rw [Detained, State.begun_ne hpn]
          exact hdet
    | accept m c y hc hm hidle =>
      have hold : (s.node port).ctl.sweeps = some (d, p) := by
        by_cases hpc : port = c
        · subst hpc
          rw [State.accepted_client] at hsw
          rw [hc]
          cases y <;> exact hsw
        · by_cases hpm : port = m
          · subst hpm
            rw [State.accepted_server hpc] at hsw
            cases hsw
          · rwa [State.accepted_ne hpc hpm] at hsw
      have hbusy : (s.node port).ctl ≠ .idle := by
        intro hp
        rw [hp] at hold
        cases hold
      exact (h.detained d p hold).accept hc hm hidle hbusy
    | exec n env e _ hm => exact h.detained_moves hm hsw
  · exact fun p ga w ha => h.arriving_steps hs ha

theorem Initialised.regular (h : Initialised G s) (hga : G ga) :
    ∃ b, (s.node port).mem ga.ptr = some b ∧ b.size = ga.size ∧ b.record.Regular ∧ b.record.sharerNodes = [] := by
  obtain ⟨b, hb, hsize, hread, hnil, -⟩ := h.block ga hga
  exact ⟨b, hb, hsize, ⟨hread, fun hne => absurd hnil hne⟩, hnil⟩

theorem Initialised.history (h : Initialised G s) : History G s s := by
  have hQ := h.quiet
  have hidle : ∀ n, (s.node n).ctl = .idle := hQ.idle
  refine ⟨hQ.sessions, hQ.suspends, hQ.calls, ⟨h.home, fun n => ?_, fun n p hp => ?_, fun ga hga => ?_⟩,
    hQ.storeOrder, hQ.sentOwn, fun k ga v hst => (h.copies port k ga v hst).1 rfl, fun ga hga => ?_, fun ga hga => ?_,
    fun c d nodes srcID hc => ?_, fun d n hs => ?_, fun n ga w ha => ?_⟩
  · rw [hidle n]
    trivial
  · rw [hQ.suspended n] at hp
    cases hp
  · obtain ⟨b, hb, hsize, hreg, -⟩ := h.regular hga
    exact ⟨b, hb, hsize, hreg⟩
  · obtain ⟨b, hb, -, -, -, hstamp⟩ := h.block ga hga
    exact ⟨b.record.data, by rw [State.homeWord, hb]; rfl, hstamp⟩
  · obtain ⟨b, hb, -⟩ := h.block ga hga
    rw [hQ.log, versions, State.homeWord, hb]
    rfl
  · rw [hidle port] at hc
    cases hc
  · rw [hidle port] at hs
    cases hs
  · rw [Arriving, hidle n] at ha
    cases ha.1

theorem run_accesses {I : State → Prop} (hI : ∀ u a v, I u → a.accessesIn G → Steps u a v → I v) (hs : I s)
    {as : List Action} (has : ∀ a ∈ as, a.accessesIn G) (ht : run step s as = some t) : I t :=
  run_invariant_of_meets (C := fun _ a => a.accessesIn G)
    (fun u a v hu ha huv => hI u a v hu ha (steps_of_step huv)) hs (meets_of_forall has) ht

end

def homeAddress : GlobalAddress := ⟨8, 4096, 3000⟩

theorem initialised_homeBlock : Initialised (· = homeAddress) (.start homeBlock) where
  quiet := State.quiet_start _
  home := by
    rintro ga rfl
    rfl
  block := by
    rintro ga rfl
    exact ⟨⟨8, .written ⟨1, 0⟩ 3000⟩, rfl, rfl, rfl, rfl, rfl⟩
  copies := fun _ _ _ _ hst => absurd hst Cache.stores_new

def readBy2000 : List Action :=
  [.begin 2000 (.read homeAddress), go 2000, go 2000] ++ talk 2000 3000 ++ [go 2000]

def writeBy3000 : List Action :=
  [.begin 3000 (.write ⟨8, 9, homeAddress⟩), go 3000] ++ talk 3000 2000 ++ [go 3000, go 3000] ++
    talk 3000 2000 ++ [go 3000, go 3000, go 3000] ++ talk 3000 2000

def readAgain : List Action := readBy2000 ++ writeBy3000 ++ readBy2000

end CacheCoherence.Protocol
