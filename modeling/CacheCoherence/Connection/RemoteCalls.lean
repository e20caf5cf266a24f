import CacheCoherence.Connection.Readiness
import CacheCoherence.Foundation.Potentials
import CacheCoherence.Foundation.Traces

/-! # Remote calls

What a connection is for: the client asks, the server handles the request, the client gets the answer. When every
write with immediate finds a posted receive, the steps of the two sides come to no more than this.
-/
namespace CacheCoherence.QueuePairs
open TransitionRuns Traces Potentials

/-- What can be seen of a connection; `confirmed` is the second reply to a write that invalidates. -/
inductive Observed where
  | asked (r : Call)
  | handled (immData : ImmData) (shared : Bool)
  | answered (r : Call) (immData : ImmData)
  | confirmed
  | closed
deriving DecidableEq, Repr

inductive Phase where
  | idle
  | asked (r : Call)
  | served (r : Call) (immData : ImmData)
  | invalidating
  | over
deriving DecidableEq, Repr

structure Session where
  phase : Phase
  serving : Bool
deriving DecidableEq, Repr

def answer (r : Call) (shared : Bool) : ImmData :=
  match r, shared with
  | .reset, _ => .reset
  | .write, true => .invalidate
  | _, _ => .default

/-- The server leaves its loop after a RESET, and after a write that invalidates. -/
def stays (r : Call) (shared : Bool) : Bool :=
  match r, shared with
  | .reset, _ => false
  | .write, true => false
  | _, _ => true

inductive Does : Session → Observed → Session → Prop where
  | ask {serving} (r : Call) : Does ⟨.idle, serving⟩ (.asked r) ⟨.asked r, serving⟩
  | handle (r : Call) (shared : Bool) :
    Does ⟨.asked r, true⟩ (.handled r.immData shared) ⟨.served r (answer r shared), stays r shared⟩
  | answer {serving r i} (hi : i ≠ .invalidate) : Does ⟨.served r i, serving⟩ (.answered r i) ⟨.idle, serving⟩
  | invalidate : Does ⟨.served .write .invalidate, false⟩ (.answered .write .invalidate) ⟨.invalidating, false⟩
  | confirm : Does ⟨.invalidating, false⟩ .confirmed ⟨.over, false⟩
  | close {serving} : Does ⟨.idle, serving⟩ .closed ⟨.over, serving⟩

def Session.Settled (x : Session) : Prop :=
  match x.phase with
  | .served r i => i = .invalidate → r = .write ∧ x.serving = false
  | .invalidating => x.serving = false
  | _ => True

theorem Does.settled {x y : Session} {l : Observed} (h : Does x l y) : y.Settled := by
  cases h with
  | handle r shared => cases r <;> cases shared <;> simp [Session.Settled, QueuePairs.answer, stays]
  | invalidate => rfl
  | ask | answer | confirm | close => trivial

def Observed.request : Observed → Option ImmData
  | .asked r => some r.immData
  | _ => none

def Observed.handling : Observed → Option ImmData
  | .handled i _ => some i
  | _ => none

def Phase.waiting : Phase → List ImmData
  | .asked r => [r.immData]
  | _ => []

theorem handled_of_trace {x y : Session} {log : List Observed} (h : Trace Does x log y) :
    x.phase.waiting ++ log.filterMap Observed.request = log.filterMap Observed.handling ++ y.phase.waiting := by
  induction h with
  | nil x => simp
  | cons hl _ ih =>
    cases hl <;> simp only [Phase.waiting, List.filterMap_cons, Observed.request, Observed.handling] at ih ⊢ <;>
      simpa using ih

/-- The network holds a write back until its receiver has posted a receive. -/
def patient (s : State) (a : Action) : Option State := if Ready s a then step s a else none

def observe (s : State) : Action → List Observed
  | .call r => [.asked r]
  | .close => [.closed]
  | .client =>
    match s.client, s.atClient.arrived with
    | .pollRecv r, i :: _ => [.answered r i]
    | .pollSecond, _ :: _ => [.confirmed]
    | _, _ => []
  | .server shared =>
    match s.server with
    | .handle immData => [.handled immData shared]
    | _ => []
  | .arrive _ => []

def observed (p : State × List Observed) (a : Action) : Option (State × List Observed) :=
  (patient p.1 a).map fun t => (t, p.2 ++ observe p.1 a)

def State.reply (s : State) : Option ImmData := (s.atClient.arrived ++ s.toClient.map WriteWithImm.immData).head?

def State.phase (s : State) : Phase :=
  match s.client with
  | .ready => .idle
  | .readAddress r | .postWrite r => .asked r
  | .pollSend r | .postRecv r | .pollRecv r => s.reply.elim (.asked r) (.served r)
  | .postSecond | .pollSecond => .invalidating
  | .closed | .failed => .over

def ServerCtl.serving : ServerCtl → Bool
  | .pollSend more => more
  | .pollFirst | .postSecond | .closed | .failed => false
  | .writeAddress | .readAddress | .postRecv | .pollRecv | .handle _ => true

def State.session (s : State) : Session := ⟨s.phase, s.server.serving⟩

section
variable {s t : State} {a : Action} {r : Call} {shared : Bool}

theorem patient_eq_some (h : patient s a = some t) : Ready s a ∧ step s a = some t := by
  rw [patient] at h
  split at h
  · rename_i hr
    exact ⟨hr, h⟩
  · cases h

theorem stage_patient (hs : Stage s) (h : patient s a = some t) : Stage t := by
  obtain ⟨hr, hstep⟩ := patient_eq_some h
  exact hs.step ((hs.ready_iff hstep).mp hr) hstep

theorem shows_call (h : step s (.call r) = some t) : Trace Does s.session (observe s (.call r)) t.session := by
  obtain ⟨client, server, ⟨rc, ac, sc, tc⟩, ⟨rs, as, ss, ts⟩, toClient, toServer⟩ := s
  by_cases hready : client = .ready
  · subst hready
    simp only [step, ↓reduceIte, Option.some.injEq] at h
    subst h
    exact .single (.ask r)
  · simp [step, hready] at h

theorem shows_close (h : step s .close = some t) : Trace Does s.session (observe s .close) t.session := by
  obtain ⟨client, server, ⟨rc, ac, sc, tc⟩, ⟨rs, as, ss, ts⟩, toClient, toServer⟩ := s
  by_cases hready : client = .ready
  · subst hready
    simp only [step, ↓reduceIte, Option.some.injEq] at h
    subst h
    exact .single .close
  · simp [step, hready] at h

theorem shows_client (hs : Stage s) (hx : s.session.Settled) (h : clientStep s = some t) :
    Trace Does s.session (observe s .client) t.session := by
  obtain ⟨client, server, ⟨rc, ac, sc, tc⟩, ⟨rs, as, ss, ts⟩, toClient, toServer⟩ := s
  cases hs with
  | asking cw cr sw sr hc hs hcs hss =>
    obtain rfl : toClient = [] := hs.posts_nil
    cases hc with
    | ready | closed | posted r => cases h
    | answered r i hi =>
      simp only [clientStep, hi, and_false, ↓reduceIte, Option.some.injEq] at h
      subst h
      exact .single (.answer hi)
    | answeredSecond i =>
      simp only [clientStep, Option.some.injEq] at h
      subst h
      have hserving : server.serving = false := hx
      simp only [State.session, State.phase, observe, hserving]
      exact .single .confirm
    | readAddress r =>
      cases tc with
      | zero => cases h
      | succ k =>
        simp only [clientStep, Option.some.injEq] at h
        subst h
        exact .nil _
    | postWrite r =>
      simp only [clientStep, List.nil_append, Option.some.injEq] at h
      subst h
      exact .nil _
  | answering r hc hs hcs hss hts =>
    cases hc with
    | arrived =>
      simp only [clientStep, ↓reduceIte, Option.some.injEq] at h
      subst h
      exact .nil _
    | postRecv =>
      simp only [clientStep, Option.some.injEq] at h
      subst h
      exact .nil _
    | pollRecv => cases h
  | again hc hsent hs hrs has hcs hss hts =>
    cases hc with
    | arrived =>
      simp only [clientStep, Call.sender, and_self, ↓reduceIte, Option.some.injEq] at h
      subst h
      obtain ⟨-, hserving⟩ : Call.write = .write ∧ server.serving = false := hx rfl
      simp only [State.session, State.phase, State.reply, observe, List.cons_append, List.head?_cons, Option.elim_some,
        hserving]
      exact .single .invalidate
    | postSecond =>
      simp only [clientStep, Option.some.injEq] at h
      subst h
      exact .nil _
    | pollSecond => cases h

theorem shows_server (hs : Stage s) (h : serverStep shared s = some t) :
    Trace Does s.session (observe s (.server shared)) t.session := by
  obtain ⟨client, server, ⟨rc, ac, sc, tc⟩, ⟨rs, as, ss, ts⟩, toClient, toServer⟩ := s
  cases hs with
  | asking cw cr sw sr hc hs hcs hss =>
    cases hs with
    | answered more =>
      simp only [serverStep, pollSend, ↓reduceIte, Option.some.injEq] at h
      subst h
      cases more <;> exact .nil _
    | closed | pollRecv => cases h
    | writeAddress | postRecv =>
      simp only [serverStep, Option.some.injEq] at h
      subst h
      exact .nil _
    | readAddress =>
      cases ts with
      | zero => cases h
      | succ k =>
        simp only [serverStep, Option.some.injEq] at h
        subst h
        exact .nil _
  | answering r hc hs hcs hss hts =>
    cases hs with
    | arrived =>
      simp only [serverStep, Option.some.injEq] at h
      subst h
      exact .nil _
    | handle =>
      simp only [serverStep, Option.some.injEq] at h
      subst h
      cases hc <;> cases r <;> cases shared <;> exact .single (.handle _ _)
    | replied more i hi | first hr => cases h
  | again hc hsent hs hrs has hcs hss hts =>
    cases hs with
    | arrived =>
      simp only [serverStep, pollSend, ↓reduceIte, Option.some.injEq] at h
      subst h
      exact .nil _
    | postSecond =>
      simp only [serverStep, reply, List.nil_append, Option.some.injEq] at h
      subst h
      cases hc <;> exact .nil _
    | replied more i => cases h

/-- An arrival is not seen: a reply counts as soon as it is posted. -/
theorem session_arrive {x : Role} (hs : Stage s) (ha : Awaited s (.arrive x)) (h : step s (.arrive x) = some t) :
    t.session = s.session := by
  obtain ⟨client, server, ⟨rc, ac, sc, tc⟩, ⟨rs, as, ss, ts⟩, toClient, toServer⟩ := s
  cases hs with
  | asking cw cr sw sr hc hs hcs hss =>
    obtain rfl : toClient = [] := hs.posts_nil
    cases x with
    | client => cases h
    | server =>
      cases hs with
      | pollRecv =>
        cases hc with
        | posted r =>
          simp only [step, arrival, List.nil_append, Option.map_some, Option.some.injEq] at h
          subst h
          rfl
        | _ => cases h
      | _ => cases ha.1
  | answering r hc hs hcs hss hts =>
    obtain rfl : toServer = [] := hts
    cases x with
    | server => cases h
    | client =>
      cases hc with
      | arrived | postRecv => cases ha.1
      | pollRecv =>
        cases hs with
        | arrived | handle => cases h
        | replied more i hi | first hr =>
          simp only [step, arrival, createWriteWithImm, List.nil_append, Option.map_some, Option.some.injEq] at h
          subst h
          rfl
  | again hc hsent hs hrs has hcs hss hts =>
    obtain rfl : toServer = [] := hts
    cases x with
    | server => cases h
    | client =>
      cases hc with
      | arrived => cases ha.2
      | postSecond => cases ha.1
      | pollSecond =>
        cases hs with
        | arrived | postSecond => cases h
        | replied more i =>
          simp only [step, arrival, createWriteWithImm, List.nil_append, Option.map_some, Option.some.injEq] at h
          subst h
          rfl

theorem shows_step (hs : Stage s) (hx : s.session.Settled) (h : patient s a = some t) :
    Trace Does s.session (observe s a) t.session := by
  obtain ⟨hready, hstep⟩ := patient_eq_some h
  cases a with
  | call r => exact shows_call hstep
  | close => exact shows_close hstep
  | client => exact shows_client hs hx hstep
  | server shared => exact shows_server hs hstep
  | arrive x =>
    rw [session_arrive hs ((hs.ready_iff hstep).mp hready) hstep]
    exact .nil _

end

/-- Whatever calls the client makes and however the steps interleave, if every write finds a posted receive, the
connection shows calls that are asked, handled and answered one after the other: every request is handled once. -/
theorem calls_refine {as : List Action} {t : State} {log : List Observed}
    (h : run observed (connected, []) as = some (t, log)) :
    Trace Does ⟨.idle, true⟩ log t.session ∧
      log.filterMap Observed.request = log.filterMap Observed.handling ++ t.session.phase.waiting := by
  let R (p : State × List Observed) (x : Session) : Prop := Stage p.1 ∧ x = p.1.session ∧ x.Settled
  have hstep : ∀ p x a q, R p x → observed p a = some q → ∃ es y, q.2 = p.2 ++ es ∧ Trace Does x es y ∧ R q y := by
    rintro ⟨s, es⟩ _ a q ⟨hs, rfl, hx⟩ hq
    obtain ⟨u, hu, rfl⟩ := Option.map_eq_some_iff.mp hq
    have htrace := shows_step hs hx hu
    refine ⟨observe s a, u.session, rfl, htrace, stage_patient hs hu, rfl, ?_⟩
    exact htrace.invariant (fun _ _ _ _ hl => hl.settled) hx
  obtain ⟨es, y, hlog, htrace, -, rfl, -⟩ := run_refines (R := R) (fun p => p.2) hstep
    (x := connected.session) ⟨stage_connected, rfl, trivial⟩ h
  have hlog : log = es := hlog
  subst hlog
  exact ⟨htrace, handled_of_trace htrace⟩

theorem writeShared_refines :
    Trace Does ⟨.idle, true⟩ [.asked .write, .handled .write true, .answered .write .invalidate, .confirmed]
        ⟨.over, false⟩ ∧ [ImmData.write] = [ImmData.write] ++ [] :=
  calls_refine (show run observed (connected, []) (writeShared ++ [.client]) =
    some (⟨.closed, .pollSend false, ⟨0, [], [], 0⟩, ⟨0, [], [true], 0⟩, [], []⟩, _) by decide)

def ClientCtl.work : ClientCtl → ℕ
  | .readAddress _ => 8
  | .postWrite _ => 7
  | .pollSend _ => 5
  | .postRecv _ => 4
  | .pollRecv _ => 3
  | .postSecond => 2
  | .pollSecond => 1
  | .ready | .closed | .failed => 0

def ServerCtl.work : ServerCtl → ℕ
  | .postRecv => 9
  | .pollRecv => 8
  | .handle _ => 7
  | .pollFirst => 5
  | .postSecond => 4
  | .pollSend _ => 2
  | .writeAddress => 1
  | .readAddress | .closed | .failed => 0

def State.work (s : State) : ℕ :=
  s.client.work + s.server.work + 10 * s.atServer.stream + s.toServer.length + s.toClient.length

def Action.isCall : Action → Bool
  | .call _ => true
  | _ => false

def Action.inner : Action → Bool
  | .call _ | .close => false
  | .client | .server _ | .arrive _ => true

section
variable {s t : State} {a : Action} {r : Call} {shared : Bool}

theorem client_work (h : clientStep s = some t) : t.work + 1 ≤ s.work := by
  obtain ⟨client, server, ⟨rc, ac, sc, tc⟩, ⟨rs, as, ss, ts⟩, toClient, toServer⟩ := s
  cases client with
  | readAddress r =>
    cases tc with
    | zero => cases h
    | succ k =>
      cases h
      simp only [State.work, ClientCtl.work]
      omega
  | postWrite r =>
    cases h
    simp only [State.work, ClientCtl.work, List.length_append, List.length_singleton]
    omega
  | pollSend r =>
    cases sc with
    | nil => cases h
    | cons ok rest =>
      cases h
      cases ok <;> simp only [State.work, ClientCtl.work, if_true, if_false, Bool.false_eq_true] <;> omega
  | postRecv r | postSecond =>
    cases h
    simp only [State.work, ClientCtl.work]
    omega
  | pollRecv r =>
    cases ac with
    | nil => cases h
    | cons i rest =>
      cases h
      simp only [State.work]
      split <;> simp only [ClientCtl.work] <;> omega
  | pollSecond =>
    cases ac with
    | nil => cases h
    | cons i rest =>
      cases h
      simp only [State.work, ClientCtl.work]
      omega
  | ready | closed | failed => cases h

theorem handler_work {i : ImmData} (hs : s.server = .handle i) : (handler shared s i).work + 1 ≤ s.work := by
  cases i <;> cases shared <;> simp [handler, reply, State.work, ServerCtl.work, hs] <;> omega

theorem server_work (h : serverStep shared s = some t) : t.work + 1 ≤ s.work := by
  obtain ⟨client, server, ⟨rc, ac, sc, tc⟩, ⟨rs, as, ss, ts⟩, toClient, toServer⟩ := s
  cases server with
  | writeAddress | postRecv =>
    cases h
    simp only [State.work, ServerCtl.work]
    omega
  | readAddress =>
    cases ts with
    | zero => cases h
    | succ k =>
      cases h
      simp only [State.work, ServerCtl.work]
      omega
  | pollRecv =>
    cases as with
    | nil => cases h
    | cons i rest =>
      cases h
      simp only [State.work, ServerCtl.work]
      omega
  | handle i =>
    cases h
    exact handler_work rfl
  | pollFirst =>
    cases ss with
    | nil => cases h
    | cons ok rest =>
      cases h
      cases ok <;> simp only [State.work, ServerCtl.work, if_true, if_false, Bool.false_eq_true] <;> omega
  | postSecond =>
    cases h
    simp only [State.work, reply, ServerCtl.work, List.length_append, List.length_singleton]
    omega
  | pollSend more =>
    cases ss with
    | nil => cases h
    | cons ok rest =>
      cases h
      cases ok <;> cases more <;>
        simp only [State.work, ServerCtl.work, if_true, if_false, Bool.false_eq_true] <;>
        omega
  | closed | failed => cases h

theorem arrive_work {x : Role} (hr : Ready s (.arrive x)) (h : step s (.arrive x) = some t) :
    t.work + 1 ≤ s.work := by
  obtain ⟨client, server, ⟨rc, ac, sc, tc⟩, ⟨rs, as, ss, ts⟩, toClient, toServer⟩ := s
  cases x with
  | client =>
    cases toClient with
    | nil => cases h
    | cons w rest =>
      obtain ⟨k, rfl⟩ := Nat.exists_eq_add_of_lt hr
      simp only [step, arrival, Nat.zero_add, Option.map_some, Option.some.injEq] at h
      subst h
      simp only [State.work, List.length_cons]
      omega
  | server =>
    cases toServer with
    | nil => cases h
    | cons w rest =>
      obtain ⟨k, rfl⟩ := Nat.exists_eq_add_of_lt hr
      simp only [step, arrival, Nat.zero_add, Option.map_some, Option.some.injEq] at h
      subst h
      simp only [State.work, List.length_cons]
      omega

theorem patient_work (h : patient s a = some t) :
    t.work + (if a.inner then 1 else 0) ≤ s.work + (if a.isCall then 18 else 0) := by
  obtain ⟨hr, hstep⟩ := patient_eq_some h
  cases a with
  | call r =>
    simp only [step] at hstep
    split at hstep
    · rename_i hready
      cases hstep
      simp only [State.work, hready, ClientCtl.work, Action.inner, Action.isCall, if_true, Bool.false_eq_true, if_false]
      omega
    · cases hstep
  | close =>
    simp only [step] at hstep
    split at hstep
    · rename_i hready
      cases hstep
      simp [State.work, hready, ClientCtl.work, Action.inner, Action.isCall]
    · cases hstep
  | client => exact client_work hstep
  | server shared => exact server_work hstep
  | arrive x => exact arrive_work hr hstep

/-- A connection that does not go on by itself is between two calls, or over, or its server has left before the
call. -/
theorem stage_stopped (hs : Stage s) (hstop : ∀ a, a.inner = true → patient s a = none) :
    s.client = .ready ∨ s.client = .closed ∨ ∃ r, s.client = .readAddress r ∧ s.server = .closed := by
  have hclient : clientStep s = none := hstop .client rfl
  have hserver : serverStep false s = none := hstop (.server false) rfl
  have harrive : ∀ x, Ready s (.arrive x) → step s (.arrive x) = none := by
    intro x hr
    have h := hstop (.arrive x) rfl
    rwa [patient, if_pos hr] at h
  obtain ⟨client, server, ⟨rc, ac, sc, tc⟩, ⟨rs, as, ss, ts⟩, toClient, toServer⟩ := s
  cases hs with
  | asking cw cr sw sr hc hs hcs hss =>
    cases hc with
    | ready => exact Or.inl rfl
    | closed => exact Or.inr (Or.inl rfl)
    | answered r i hi | answeredSecond i | postWrite r => cases hclient
    | readAddress r =>
      cases hs with
      | closed => exact Or.inr (Or.inr ⟨r, rfl, rfl⟩)
      | answered more | writeAddress | postRecv => cases hserver
      | readAddress | pollRecv =>
        obtain rfl : tc = 1 := hcs
        cases hclient
    | posted r =>
      cases hs with
      | closed | answered more | writeAddress => cases hcs
      | readAddress =>
        obtain rfl : ts = 1 := hss
        cases hserver
      | postRecv => cases hserver
      | pollRecv => cases harrive .server Nat.one_pos
  | answering r hc hs hcs hss hts =>
    cases hc with
    | arrived | postRecv => cases hclient
    | pollRecv =>
      cases hs with
      | arrived | handle => cases hserver
      | replied more i hi | first hr => cases harrive .client Nat.one_pos
  | again hc hsent hs hrs has hcs hss hts =>
    cases hc with
    | arrived | postSecond => cases hclient
    | pollSecond =>
      cases hs with
      | arrived | postSecond => cases hserver
      | replied more i => cases harrive .client Nat.one_pos

end

/-- If every write finds a posted receive, and handlers return (`.handle` is one step), a connection makes at most
eighteen steps for each call and one more, and goes on until the call has returned or the connection is over. Then
only a call after the server has left waits for ever. -/
theorem calls_end {as : List Action} {t : State} (h : run patient connected as = some t) :
    as.countP Action.inner ≤ 18 * as.countP Action.isCall + 1 ∧
      ((∀ a, a.inner = true → patient t a = none) →
        t.phase = .idle ∨ t.phase = .over ∨ ∃ r, t.phase = .asked r ∧ t.server = .closed) := by
  constructor
  · have hwork := work_le (I := fun _ => True) (Φ := State.work) (fun _ _ _ _ _ => trivial)
      (fun _ _ _ _ ht => patient_work ht) trivial h
    rw [sum_map_ite, sum_map_ite, Nat.one_mul] at hwork
    exact (Nat.le_add_right _ _).trans (hwork.trans_eq (Nat.add_comm _ _))
  · intro hstop
    have hstage : Stage t := run_invariant (fun _ _ _ hs hu => stage_patient hs hu) stage_connected h
    rcases stage_stopped hstage hstop with hclient | hclient | ⟨r, hclient, hserver⟩
    · exact Or.inl (by rw [State.phase, hclient])
    · exact Or.inr (Or.inl (by rw [State.phase, hclient]))
    · exact Or.inr (Or.inr ⟨r, by rw [State.phase, hclient], hserver⟩)

theorem writeShared_ends : ∃ t, run patient connected (writeShared ++ [.client, .server false]) = some t ∧
    (∀ a, a.inner = true → patient t a = none) ∧
    (t.phase = .idle ∨ t.phase = .over ∨ ∃ r, t.phase = .asked r ∧ t.server = .closed) := by
  have hrun : run patient connected (writeShared ++ [.client, .server false]) =
      some ⟨.closed, .closed, ⟨0, [], [], 0⟩, ⟨0, [], [], 0⟩, [], []⟩ := by decide
  have hstop : ∀ a : Action, a.inner = true →
      patient ⟨.closed, .closed, ⟨0, [], [], 0⟩, ⟨0, [], [], 0⟩, [], []⟩ a = none := by
    intro a ha
    cases a with
    | call r | close => cases ha
    | client | server shared => rfl
    | arrive x => cases x <;> rfl
  exact ⟨_, hrun, hstop, (calls_end hrun).2 hstop⟩

end CacheCoherence.QueuePairs
