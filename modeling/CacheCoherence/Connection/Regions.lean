import CacheCoherence.Connection.RemoteCalls

/-! # Registered buffers

Each call of a client registers a buffer for the reply, each `receive` one for the request, and tells the other side
its address over the socket. The registration ends when the function returns. A write with immediate goes to the
address that its side has read last.
-/
namespace CacheCoherence.QueuePairs
open TransitionRuns

def Role.other : Role → Role
  | .client => .server
  | .server => .client

/-- The thread is in `sendAddress`, `sendData` or `sendLock`, whose `recvmr` keeps the buffer registered. Where
`prepareForInvalidate` closes the connection, the buffer counts as gone. -/
def ClientCtl.inCall : ClientCtl → Bool
  | .ready | .closed | .failed => false
  | _ => true

def ServerCtl.inReceive : ServerCtl → Bool
  | .writeAddress | .closed | .failed => false
  | _ => true

def State.side (s : State) : Role → Side
  | .client => s.atClient
  | .server => s.atServer

def State.underWay (s : State) : Role → List WriteWithImm
  | .client => s.toClient
  | .server => s.toServer

def State.registers (s : State) : Role → Bool
  | .client => s.client.inCall
  | .server => s.server.inReceive

/-- A connection with the buffers of its two sides: how many each has registered (the last one has this number), the
buffers whose addresses are on the socket to it, the one that its `remoteMr` names, and the targets of the writes that
are on their way to it. -/
structure Buffers where
  state : State
  count : Role → ℕ
  stream : Role → List ℕ
  remoteMr : Role → ℕ
  targets : Role → List ℕ

namespace Buffers

def start : Buffers := ⟨connected, fun _ => 0, fun _ => [], fun _ => 0, fun _ => []⟩

def registered (b : Buffers) (x : Role) : Option ℕ := if b.state.registers x then some (b.count x) else none

def register (b : Buffers) (x : Role) : Buffers :=
  { b with
    count := Function.update b.count x (b.count x + 1)
    stream := Function.update b.stream x.other (b.stream x.other ++ [b.count x + 1]) }

def readAddress (b : Buffers) (x : Role) : Buffers :=
  match b.stream x with
  | [] => b
  | k :: rest => { b with remoteMr := Function.update b.remoteMr x k, stream := Function.update b.stream x rest }

def post (b : Buffers) (x : Role) : Buffers :=
  { b with targets := Function.update b.targets x.other (b.targets x.other ++ [b.remoteMr x]) }

def arrive (b : Buffers) (x : Role) : Buffers :=
  { b with targets := Function.update b.targets x (b.targets x).tail }

def track (b : Buffers) : Action → Buffers
  | .call _ => b.register .client
  | .close => b
  | .client =>
    match b.state.client with
    | .readAddress _ => b.readAddress .client
    | .postWrite _ => b.post .client
    | _ => b
  | .server _ =>
    match b.state.server with
    | .writeAddress => b.register .server
    | .readAddress => b.readAddress .server
    | .handle immData => if immData = .default then b else b.post .server
    | .postSecond => b.post .server
    | _ => b
  | .arrive x => b.arrive x

def step (b : Buffers) (a : Action) : Option Buffers := (patient b.state a).map fun t => { b.track a with state := t }

/-- Every write that is under way goes to the buffer that is registered where it will arrive. -/
def Registered (b : Buffers) : Prop :=
  ∀ x, (b.targets x).length = (b.state.underWay x).length ∧ ∀ k ∈ b.targets x, b.registered x = some k

end Buffers

/-- The server has read the address for the reply to the request that it waits for or handles. -/
def ServerCtl.knows : ServerCtl → Bool
  | .postRecv | .pollRecv | .handle _ | .pollFirst | .postSecond => true
  | _ => false

structure Buffers.Known (b : Buffers) : Prop where
  stage : Stage b.state
  targets : ∀ x, b.targets x = List.replicate (b.state.underWay x).length (b.count x)
  stream : ∀ x, b.stream x = List.replicate (b.state.side x).stream (b.count x.other)
  remoteClient : ∀ r, b.state.client = .postWrite r → b.remoteMr .client = b.count .server
  remoteServer : b.state.server.knows = true → b.remoteMr .server = b.count .client

section
variable {s t : State} {b : Buffers} {a : Action} {x : Role} {r : Call} {shared : Bool}

/-- A write is under way only while its receiver keeps a buffer registered. -/
theorem Stage.registers (h : Stage s) (hw : s.underWay x ≠ []) : s.registers x = true := by
  obtain ⟨client, server, ⟨rc, ac, sc, tc⟩, ⟨rs, as, ss, ts⟩, toClient, toServer⟩ := s
  cases x with
  | client =>
    cases h with
    | asking cw cr sw sr hc hs hcs hss => exact absurd hs.posts_nil hw
    | answering r hc hs hcs hss hts => cases hc <;> rfl
    | again hc hsent hs hrs has hcs hss hts => cases hc <;> rfl
  | server =>
    cases h with
    | asking cw cr sw sr hc hs hcs hss =>
      cases hc with
      | posted r => cases hs <;> first | rfl | simp at hcs
      | _ => exact absurd rfl hw
    | answering r hc hs hcs hss hts => exact absurd hts hw
    | again hc hsent hs hrs has hcs hss hts => exact absurd hts hw

theorem Stage.of_ready (h : Stage s) (hc : s.client = .ready) :
    s.toClient = [] ∧ s.atServer.stream = 0 ∧ s.server.knows = false := by
  obtain ⟨client, server, ⟨rc, ac, sc, tc⟩, ⟨rs, as, ss, ts⟩, toClient, toServer⟩ := s
  obtain rfl : client = .ready := hc
  cases h with
  | asking cw cr sw sr hc hs hcs hss =>
    cases hc
    refine ⟨hs.posts_nil, by simp only at hss ⊢; omega, ?_⟩
    cases hs <;> first | rfl | simp at hss
  | answering r hc hs hcs hss hts => cases hc
  | again hc hsent hs hrs has hcs hss hts => cases hc

theorem Stage.of_writeAddress (h : Stage s) (hv : s.server = .writeAddress) :
    s.toServer = [] ∧ s.atClient.stream = 0 ∧ ∀ r, s.client ≠ .postWrite r := by
  obtain ⟨client, server, ⟨rc, ac, sc, tc⟩, ⟨rs, as, ss, ts⟩, toClient, toServer⟩ := s
  obtain rfl : server = .writeAddress := hv
  cases h with
  | asking cw cr sw sr hc hs hcs hss =>
    cases hs
    have htc : tc = 0 := by simp only at hcs; omega
    subst htc
    cases hc with
    | postWrite r | posted r => simp at hcs
    | _ => exact ⟨rfl, rfl, by simp⟩
  | answering r hc hs hcs hss hts => cases hs
  | again hc hsent hs hrs has hcs hss hts => cases hs

theorem Buffers.Known.registered (h : b.Known) : b.Registered := by
  refine fun x => ⟨by rw [h.targets x, List.length_replicate], fun k hk => ?_⟩
  rw [h.targets x, List.mem_replicate] at hk
  obtain ⟨hne, rfl⟩ := hk
  rw [Buffers.registered, if_pos (h.stage.registers fun hnil => hne (by rw [hnil]; rfl))]

theorem Buffers.Known.same (h : b.Known) (ht : Stage t) (hway : ∀ x, t.underWay x = b.state.underWay x)
    (hside : ∀ x, (t.side x).stream = (b.state.side x).stream)
    (hc : ∀ r, t.client = .postWrite r → b.state.client = .postWrite r)
    (hv : t.server.knows = true → b.state.server.knows = true) : Buffers.Known { b with state := t } where
  stage := ht
  targets x := by simpa only [hway x] using h.targets x
  stream x := by simpa only [hside x] using h.stream x
  remoteClient r hr := h.remoteClient r (hc r hr)
  remoteServer hk := h.remoteServer (hv hk)

theorem Buffers.Known.call (h : b.Known) (ht : Stage t) (hstep : QueuePairs.step b.state (.call r) = some t) :
    Buffers.Known { b.register .client with state := t } := by
  simp only [QueuePairs.step] at hstep
  split at hstep
  · rename_i hready
    obtain ⟨hnil, hzero, hknows⟩ := h.stage.of_ready hready
    obtain rfl := Option.some.inj hstep
    have hclient := h.targets .client
    have hserver := h.stream .server
    simp only [State.underWay, hnil, List.length_nil, List.replicate_zero] at hclient
    simp only [State.side, hzero, List.replicate_zero] at hserver
    refine ⟨ht, fun x => ?_, fun x => ?_, (by simp), fun hk => (by cases hknows.symm.trans hk)⟩
    · cases x with
      | client => simp [Buffers.register, State.underWay, hclient, hnil]
      | server => simpa [Buffers.register, State.underWay, Role.other] using h.targets .server
    · cases x with
      | client => simpa [Buffers.register, State.side, Role.other] using h.stream .client
      | server => simp [Buffers.register, State.side, Role.other, hserver, hzero]
  · cases hstep

theorem Buffers.Known.readAddress_eq (h : b.Known) {k : ℕ} (hk : (b.state.side x).stream = k + 1) :
    b.readAddress x = { b with
      remoteMr := Function.update b.remoteMr x (b.count x.other)
      stream := Function.update b.stream x (List.replicate k (b.count x.other)) } := by
  have hs := h.stream x
  rw [hk, List.replicate_succ] at hs
  simp only [Buffers.readAddress, hs]

theorem clientStep_frame (h : clientStep s = some t) (hr : ∀ r, s.client ≠ .readAddress r)
    (hw : ∀ r, s.client ≠ .postWrite r) : t.toClient = s.toClient ∧ t.toServer = s.toServer ∧
      t.atClient.stream = s.atClient.stream ∧ t.atServer = s.atServer ∧ t.server = s.server ∧
        ∀ r, t.client ≠ .postWrite r := by
  cases hc : s.client with
  | readAddress r => exact absurd hc (hr r)
  | postWrite r => exact absurd hc (hw r)
  | ready | closed | failed => simp [clientStep, hc] at h
  | postRecv r | postSecond =>
    simp only [clientStep, hc, Option.some.injEq] at h
    subst h
    exact ⟨rfl, rfl, rfl, rfl, rfl, by simp⟩
  | pollSend r | pollRecv r | pollSecond =>
    simp only [clientStep, hc] at h
    split at h
    · cases h
    · obtain rfl := Option.some.inj h
      refine ⟨rfl, rfl, rfl, rfl, rfl, fun r => ?_⟩
      first | simp; done | (simp only; split <;> simp)

theorem Buffers.Known.client_other (h : b.Known) (ht : Stage t) (hstep : clientStep b.state = some t)
    (hr : ∀ r, b.state.client ≠ .readAddress r) (hw : ∀ r, b.state.client ≠ .postWrite r) :
    Buffers.Known { b with state := t } := by
  obtain ⟨htoClient, htoServer, hstream, hside, hserver, hpost⟩ := clientStep_frame hstep hr hw
  refine h.same ht (fun x => ?_) (fun x => ?_) (fun r hc => absurd hc (hpost r)) (fun hk => hserver ▸ hk)
  · cases x <;> assumption
  · cases x with
    | client => exact hstream
    | server => exact congrArg Side.stream hside

theorem Buffers.Known.client (h : b.Known) (ht : Stage t) (hstep : clientStep b.state = some t) :
    Buffers.Known { b.track .client with state := t } := by
  cases hc : b.state.client with
  | readAddress r =>
    simp only [clientStep, hc] at hstep
    split at hstep
    · cases hstep
    · rename_i k hk
      obtain rfl := Option.some.inj hstep
      simp only [Buffers.track, hc, h.readAddress_eq (x := .client) hk]
      refine ⟨ht, fun x => ?_, fun x => ?_, fun r' hr => ?_, fun hk => ?_⟩
      · cases x with
        | client => exact h.targets .client
        | server => exact h.targets .server
      · cases x with
        | client => simp [State.side]
        | server => simpa [State.side] using h.stream .server
      · simp [Role.other]
      · simpa using h.remoteServer hk
  | postWrite r =>
    simp only [clientStep, hc, Option.some.injEq] at hstep
    subst hstep
    have hremote := h.remoteClient r hc
    simp only [Buffers.track, hc, Buffers.post, hremote]
    refine ⟨ht, fun x => ?_, fun x => ?_, by simp, fun hk => h.remoteServer hk⟩
    · cases x with
      | client => simpa [Role.other, State.underWay] using h.targets .client
      | server => simpa [Role.other, State.underWay, List.replicate_succ'] using h.targets .server
    · cases x with
      | client => exact h.stream .client
      | server => exact h.stream .server
  | _ =>
    simp only [Buffers.track, hc]
    exact h.client_other ht hstep (by simp [hc]) (by simp [hc])

theorem exists_call {i : ImmData} (h : i ≠ .default) : ∃ r : Call, r.immData = i := by
  cases i with
  | default => exact absurd rfl h
  | malloc => exact ⟨.malloc, rfl⟩
  | read => exact ⟨.read, rfl⟩
  | free => exact ⟨.free, rfl⟩
  | write => exact ⟨.write, rfl⟩
  | locks => exact ⟨.locks, rfl⟩
  | reset => exact ⟨.reset, rfl⟩
  | invalidate => exact ⟨.invalidate, rfl⟩

theorem Buffers.Known.post_server (h : b.Known) {w : WriteWithImm} (hk : b.state.server.knows = true)
    (hclient : t.client = b.state.client) (hto : t.toClient = b.state.toClient ++ [w])
    (hts : t.toServer = b.state.toServer) (hstream : ∀ x, (t.side x).stream = (b.state.side x).stream) (ht : Stage t) :
    Buffers.Known { b.post .server with state := t } := by
  have hremote := h.remoteServer hk
  simp only [Buffers.post, hremote]
  refine ⟨ht, fun x => ?_, fun x => ?_, fun r hr => h.remoteClient r (hclient ▸ hr), fun _ => hremote⟩
  · cases x with
    | client => simpa [Role.other, State.underWay, hto, List.replicate_succ'] using h.targets .client
    | server => simpa [Role.other, State.underWay, hts] using h.targets .server
  · simpa [hstream x] using h.stream x

theorem Buffers.Known.server (h : b.Known) (ht : Stage t) (hstep : serverStep shared b.state = some t) :
    Buffers.Known { b.track (.server shared) with state := t } := by
  cases hv : b.state.server with
  | writeAddress =>
    obtain ⟨hnil, hzero, hpost⟩ := h.stage.of_writeAddress hv
    have hclient := h.stream .client
    have hserver := h.targets .server
    simp only [State.underWay, hnil, List.length_nil, List.replicate_zero] at hserver
    simp only [State.side, hzero, List.replicate_zero] at hclient
    simp only [serverStep, hv, Option.some.injEq] at hstep
    subst hstep
    simp only [Buffers.track, hv]
    refine ⟨ht, fun x => ?_, fun x => ?_, fun r hr => absurd hr (hpost r), by simp [ServerCtl.knows]⟩
    · cases x with
      | client => simpa [Buffers.register, State.underWay, Role.other] using h.targets .client
      | server => simp [Buffers.register, State.underWay, hserver, hnil]
    · cases x with
      | client => simp [Buffers.register, State.side, Role.other, hclient, hzero]
      | server => simpa [Buffers.register, State.side, Role.other] using h.stream .server
  | readAddress =>
    simp only [serverStep, hv] at hstep
    split at hstep
    · cases hstep
    · rename_i k hk
      obtain rfl := Option.some.inj hstep
      simp only [Buffers.track, hv, h.readAddress_eq (x := .server) hk]
      refine ⟨ht, fun x => ?_, fun x => ?_, fun r hr => ?_, fun _ => by simp [Role.other]⟩
      · cases x with
        | client => exact h.targets .client
        | server => exact h.targets .server
      · cases x with
        | client => simpa [State.side] using h.stream .client
        | server => simp [State.side]
      · simpa using h.remoteClient r hr
  | handle i =>
    simp only [serverStep, hv, Option.some.injEq] at hstep
    subst hstep
    by_cases hi : i = .default
    · subst hi
      simp only [Buffers.track, hv, ↓reduceIte]
      exact h.same ht (fun x => by cases x <;> rfl) (fun x => by cases x <;> rfl) (fun _ hr => hr)
        (fun hk => by cases hk)
    · obtain ⟨r, rfl⟩ := exists_call hi
      obtain ⟨v, w, heq, -⟩ := handler_answers r shared b.state
      simp only [Buffers.track, hv, if_neg hi]
      rw [heq] at ht ⊢
      exact h.post_server (by rw [hv]; rfl) rfl rfl rfl (fun x => by cases x <;> rfl) ht
  | postSecond =>
    simp only [serverStep, hv, Option.some.injEq] at hstep
    subst hstep
    simp only [Buffers.track, hv]
    exact h.post_server (by rw [hv]; rfl) rfl rfl rfl (fun x => by cases x <;> rfl) ht
  | closed | failed => simp [serverStep, hv] at hstep
  | postRecv =>
    simp only [serverStep, hv, Option.some.injEq] at hstep
    subst hstep
    simp only [Buffers.track, hv]
    exact h.same ht (fun x => by cases x <;> rfl) (fun x => by cases x <;> rfl) (fun _ hr => hr)
      (fun _ => by rw [hv]; rfl)
  | pollRecv =>
    simp only [serverStep, hv] at hstep
    split at hstep
    · cases hstep
    · obtain rfl := Option.some.inj hstep
      simp only [Buffers.track, hv]
      exact h.same ht (fun x => by cases x <;> rfl) (fun x => by cases x <;> rfl) (fun _ hr => hr)
        (fun _ => by rw [hv]; rfl)
  | pollFirst =>
    simp only [serverStep, hv, pollSend] at hstep
    split at hstep
    · cases hstep
    · obtain rfl := Option.some.inj hstep
      simp only [Buffers.track, hv]
      exact h.same ht (fun x => by cases x <;> rfl) (fun x => by cases x <;> rfl) (fun _ hr => hr)
        (fun _ => by rw [hv]; rfl)
  | pollSend more =>
    simp only [serverStep, hv, pollSend] at hstep
    split at hstep
    · cases hstep
    · rename_i ok rest _
      obtain rfl := Option.some.inj hstep
      simp only [Buffers.track, hv]
      exact h.same ht (fun x => by cases x <;> rfl) (fun x => by cases x <;> rfl) (fun _ hr => hr)
        (fun hk => by cases ok <;> cases more <;> cases hk)

theorem arrival_ready {target source target' source' : Side} {ws rest : List WriteWithImm}
    (hready : 0 < target.receives) (h : arrival target source ws = some (target', source', rest)) :
    rest = ws.tail ∧ target'.stream = target.stream ∧ source'.stream = source.stream := by
  cases ws with
  | nil => cases h
  | cons w ws =>
    obtain ⟨k, hk⟩ := Nat.exists_eq_add_of_lt hready
    simp only [arrival, show target.receives = k + 1 by omega, Option.some.injEq, Prod.mk.injEq] at h
    obtain ⟨rfl, rfl, rfl⟩ := h
    exact ⟨rfl, rfl, rfl⟩

theorem Buffers.Known.arrive (h : b.Known) (ht : Stage t) (hready : Ready b.state (.arrive x))
    (hstep : QueuePairs.step b.state (.arrive x) = some t) : Buffers.Known { b.arrive x with state := t } := by
  cases x with
  | client =>
    obtain ⟨⟨target, source, rest⟩, harrival, rfl⟩ := Option.map_eq_some_iff.mp hstep
    obtain ⟨rfl, htarget, hsource⟩ := arrival_ready hready harrival
    refine ⟨ht, fun x => ?_, fun x => ?_, h.remoteClient, h.remoteServer⟩
    · cases x with
      | client => simp [Buffers.arrive, State.underWay, h.targets .client]
      | server => exact h.targets .server
    · cases x with
      | client => simpa [Buffers.arrive, State.side, htarget] using h.stream .client
      | server => simpa [Buffers.arrive, State.side, hsource] using h.stream .server
  | server =>
    obtain ⟨⟨target, source, rest⟩, harrival, rfl⟩ := Option.map_eq_some_iff.mp hstep
    obtain ⟨rfl, htarget, hsource⟩ := arrival_ready hready harrival
    refine ⟨ht, fun x => ?_, fun x => ?_, h.remoteClient, h.remoteServer⟩
    · cases x with
      | client => exact h.targets .client
      | server => simp [Buffers.arrive, State.underWay, h.targets .server]
    · cases x with
      | client => simpa [Buffers.arrive, State.side, hsource] using h.stream .client
      | server => simpa [Buffers.arrive, State.side, htarget] using h.stream .server

theorem Buffers.Known.step {c : Buffers} (h : b.Known) (hstep : b.step a = some c) : c.Known := by
  obtain ⟨t, ht, rfl⟩ := Option.map_eq_some_iff.mp hstep
  have hstage := stage_patient h.stage ht
  obtain ⟨hready, hs⟩ := patient_eq_some ht
  cases a with
  | call r => exact h.call hstage hs
  | close =>
    simp only [QueuePairs.step] at hs
    split at hs
    · obtain rfl := Option.some.inj hs
      exact h.same hstage (fun x => by cases x <;> rfl) (fun x => by cases x <;> rfl) (by simp) (fun hk => hk)
    · cases hs
  | client => exact h.client hstage hs
  | server shared => exact h.server hstage hs
  | arrive x => exact h.arrive hstage hready hs

theorem Buffers.known_start : start.Known :=
  ⟨stage_connected, fun x => by cases x <;> rfl, fun x => by cases x <;> rfl, by simp [start, connected],
    by simp [start, connected, ServerCtl.knows]⟩

/-- Whatever calls the client makes and however the steps interleave, if every write finds a posted receive, every
write that is under way goes to the buffer that the call, or the `receive`, at its other end has registered. -/
theorem writes_registered (as : List Action) : Always Buffers.step Buffers.Registered Buffers.start as :=
  always_iff_passed.mpr fun _ _ _ hrun =>
    (run_invariant (fun _ _ _ h hstep => h.step hstep) Buffers.known_start hrun).registered

end
end CacheCoherence.QueuePairs
