import CacheCoherence.Connection.QueuePairs

/-! # When the receiver is ready

A connection goes through three stages: the client asks and the server waits for the request; the client waits and
the server answers; and, for a write to a shared record, the client waits for the second reply. Each side posts its
receive in the middle of a stage, so a write is met by a receive exactly if the receiver has got as far as its poll.
-/
namespace CacheCoherence.QueuePairs
open TransitionRuns

/-- A write that arrives in this step finds a posted receive. -/
def Ready (s : State) : Action → Prop
  | .arrive .client => 0 < s.atClient.receives
  | .arrive .server => 0 < s.atServer.receives
  | _ => True

instance : ∀ s a, Decidable (Ready s a)
  | s, .arrive .client => inferInstanceAs (Decidable (0 < s.atClient.receives))
  | s, .arrive .server => inferInstanceAs (Decidable (0 < s.atServer.receives))
  | _, .call _ | _, .close | _, .client | _, .server _ => isTrue trivial

def ClientCtl.polls : ClientCtl → Bool
  | .pollRecv _ | .pollSecond => true
  | _ => false

def ServerCtl.polls : ServerCtl → Bool
  | .pollRecv => true
  | _ => false

/-- A write that arrives in this step finds the thread of its receiver waiting for it: at the poll, with no completion
to take. -/
def Awaited (s : State) : Action → Prop
  | .arrive .client => s.client.polls = true ∧ s.atClient.arrived = []
  | .arrive .server => s.server.polls = true ∧ s.atServer.arrived = []
  | _ => True

instance : ∀ s a, Decidable (Awaited s a)
  | s, .arrive .client => inferInstanceAs (Decidable (s.client.polls = true ∧ s.atClient.arrived = []))
  | s, .arrive .server => inferInstanceAs (Decidable (s.server.polls = true ∧ s.atServer.arrived = []))
  | _, .call _ | _, .close | _, .client | _, .server _ => isTrue trivial

inductive Asks : ClientCtl → ℕ → List ImmData → List Bool → List WriteWithImm → ℕ → ℕ → Prop
  | ready : Asks .ready 0 [] [] [] 0 0
  | closed : Asks .closed 0 [] [] [] 0 0
  | answered (r : Call) (i : ImmData) : i ≠ .invalidate → Asks (.pollRecv r) 0 [i] [] [] 0 0
  | answeredSecond (i : ImmData) : Asks .pollSecond 0 [i] [] [] 0 0
  | readAddress (r : Call) : Asks (.readAddress r) 0 [] [] [] 1 0
  | postWrite (r : Call) : Asks (.postWrite r) 0 [] [] [] 1 1
  | posted (r : Call) : Asks (.pollSend r) 0 [] [] [createWriteWithImm r.immData] 1 1

inductive Waits : ServerCtl → ℕ → List ImmData → List Bool → List WriteWithImm → ℕ → ℕ → Prop
  | answered (more : Bool) : Waits (.pollSend more) 0 [] [true] [] 0 0
  | closed : Waits .closed 0 [] [] [] 0 0
  | writeAddress : Waits .writeAddress 0 [] [] [] 0 0
  | readAddress : Waits .readAddress 0 [] [] [] 1 0
  | postRecv : Waits .postRecv 0 [] [] [] 1 1
  | pollRecv : Waits .pollRecv 1 [] [] [] 1 1

inductive Asked (r : Call) : ClientCtl → ℕ → List ImmData → List Bool → Prop
  | arrived : Asked r (.pollSend r) 0 [] [true]
  | postRecv : Asked r (.postRecv r) 0 [] []
  | pollRecv : Asked r (.pollRecv r) 1 [] []

inductive Answers (r : Call) : ServerCtl → ℕ → List ImmData → List Bool → List WriteWithImm → Prop
  | arrived : Answers r .pollRecv 0 [r.immData] [] []
  | handle : Answers r (.handle r.immData) 0 [] [] []
  | replied (more : Bool) (i : ImmData) : i ≠ .invalidate →
      Answers r (.pollSend more) 0 [] [] [createWriteWithImm i]
  | first : r = .write → Answers r .pollFirst 0 [] [] [createWriteWithImm .invalidate]

inductive AskedTwice : ClientCtl → ℕ → List ImmData → Prop
  | arrived : AskedTwice (.pollRecv .write) 0 [.invalidate]
  | postSecond : AskedTwice .postSecond 0 []
  | pollSecond : AskedTwice .pollSecond 1 []

inductive AnswersTwice : ServerCtl → List Bool → List WriteWithImm → Prop
  | arrived : AnswersTwice .pollFirst [true] []
  | postSecond : AnswersTwice .postSecond [] []
  | replied (more : Bool) (i : ImmData) : AnswersTwice (.pollSend more) [] [createWriteWithImm i]

/-- The stages of a connection. The socket holds the addresses that one side has written and the other has not read. -/
inductive Stage : State → Prop
  | asking {s : State} (cw cr sw sr : ℕ) :
      Asks s.client s.atClient.receives s.atClient.arrived s.atClient.sent s.toServer cw cr →
      Waits s.server s.atServer.receives s.atServer.arrived s.atServer.sent s.toClient sw sr →
      s.atClient.stream + cr = sw → s.atServer.stream + sr = cw → Stage s
  | answering {s : State} (r : Call) : Asked r s.client s.atClient.receives s.atClient.arrived s.atClient.sent →
      Answers r s.server s.atServer.receives s.atServer.arrived s.atServer.sent s.toClient →
      s.atClient.stream = 0 → s.atServer.stream = 0 → s.toServer = [] → Stage s
  | again {s : State} : AskedTwice s.client s.atClient.receives s.atClient.arrived → s.atClient.sent = [] →
      AnswersTwice s.server s.atServer.sent s.toClient → s.atServer.receives = 0 → s.atServer.arrived = [] →
      s.atClient.stream = 0 → s.atServer.stream = 0 → s.toServer = [] → Stage s

theorem stage_connected : Stage connected := .asking 0 0 0 0 .ready .writeAddress rfl rfl

section
variable {s t : State} {a : Action} {r : Call} {c : ClientCtl} {v : ServerCtl} {k cw cr sw sr : ℕ}
    {arrived : List ImmData}
variable {sent : List Bool} {posts : List WriteWithImm}

theorem Waits.ready (h : Waits v k arrived sent posts sw sr) : 0 < k ↔ v.polls = true ∧ arrived = [] := by
  cases h <;> simp [ServerCtl.polls]

theorem Asked.ready (h : Asked r c k arrived sent) : 0 < k ↔ c.polls = true ∧ arrived = [] := by
  cases h <;> simp [ClientCtl.polls]

theorem AskedTwice.ready (h : AskedTwice c k arrived) : 0 < k ↔ c.polls = true ∧ arrived = [] := by
  cases h <;> simp [ClientCtl.polls]

theorem Waits.posts_nil (h : Waits v k arrived sent posts sw sr) : posts = [] := by
  cases h <;> rfl

/-- In every stage, a side to which a write is on its way has a receive exactly if its thread waits for the write. -/
theorem Stage.ready_iff (h : Stage s) (hstep : step s a = some t) : Ready s a ↔ Awaited s a := by
  cases a with
  | call r | close | client | server shared => exact Iff.rfl
  | arrive x =>
    cases x with
    | client =>
      cases h with
      | asking cw cr sw sr hc hs hcs hss =>
        simp only [step, hs.posts_nil, arrival, Option.map_none] at hstep
        cases hstep
      | answering r hc hs hcs hss hts => exact hc.ready
      | again hc hsent hs hrs has hcs hss hts => exact hc.ready
    | server =>
      cases h with
      | asking cw cr sw sr hc hs hcs hss => exact hs.ready
      | answering r hc hs hcs hss hts =>
        simp only [step, hts, arrival, Option.map_none] at hstep
        cases hstep
      | again hc hsent hs hrs has hcs hss hts =>
        simp only [step, hts, arrival, Option.map_none] at hstep
        cases hstep

theorem Stage.call (h : Stage s) (hstep : step s (.call r) = some t) : Stage t := by
  obtain ⟨client, server, ⟨rc, ac, sc, tc⟩, ⟨rs, as, ss, ts⟩, toClient, toServer⟩ := s
  by_cases hready : client = .ready
  · subst hready
    cases h with
    | asking cw cr sw sr hc hs hcs hss =>
      cases hc
      simp only [step, ↓reduceIte, Option.some.injEq] at hstep
      subst hstep
      exact .asking 1 0 sw sr (.readAddress r) hs hcs (by simp only at hss ⊢; omega)
    | answering r hc hs hcs hss hts => cases hc
    | again hc hsent hs hrs has hcs hss hts => cases hc
  · simp [step, hready] at hstep

theorem Stage.close (h : Stage s) (hstep : step s .close = some t) : Stage t := by
  obtain ⟨client, server, ⟨rc, ac, sc, tc⟩, ⟨rs, as, ss, ts⟩, toClient, toServer⟩ := s
  by_cases hready : client = .ready
  · subst hready
    cases h with
    | asking cw cr sw sr hc hs hcs hss =>
      cases hc
      simp only [step, ↓reduceIte, Option.some.injEq] at hstep
      subst hstep
      exact .asking 0 0 sw sr .closed hs hcs hss
    | answering r hc hs hcs hss hts => cases hc
    | again hc hsent hs hrs has hcs hss hts => cases hc
  · simp [step, hready] at hstep

theorem Stage.client (h : Stage s) (hstep : clientStep s = some t) : Stage t := by
  obtain ⟨client, server, ⟨rc, ac, sc, tc⟩, ⟨rs, as, ss, ts⟩, toClient, toServer⟩ := s
  cases h with
  | asking cw cr sw sr hc hs hcs hss =>
    cases hc with
    | ready | closed | posted r => cases hstep
    | answered r i hi =>
      simp only [clientStep, hi, and_false, ↓reduceIte, Option.some.injEq] at hstep
      subst hstep
      exact .asking 0 0 sw sr .ready hs hcs hss
    | answeredSecond i =>
      simp only [clientStep, Option.some.injEq] at hstep
      subst hstep
      exact .asking 0 0 sw sr .closed hs hcs hss
    | readAddress r =>
      cases tc with
      | zero => cases hstep
      | succ k =>
        simp only [clientStep, Option.some.injEq] at hstep
        subst hstep
        exact .asking 1 1 sw sr (.postWrite r) hs hcs hss
    | postWrite r =>
      simp only [clientStep, List.nil_append, Option.some.injEq] at hstep
      subst hstep
      exact .asking 1 1 sw sr (.posted r) hs hcs hss
  | answering r hc hs hcs hss hts =>
    cases hc with
    | arrived =>
      simp only [clientStep, ↓reduceIte, Option.some.injEq] at hstep
      subst hstep
      exact .answering r .postRecv hs hcs hss hts
    | postRecv =>
      simp only [clientStep, Option.some.injEq] at hstep
      subst hstep
      exact .answering r .pollRecv hs hcs hss hts
    | pollRecv => cases hstep
  | again hc hsent hs hrs has hcs hss hts =>
    cases hc with
    | arrived =>
      simp only [clientStep, Call.sender, and_self, ↓reduceIte, Option.some.injEq] at hstep
      subst hstep
      exact .again .postSecond hsent hs hrs has hcs hss hts
    | postSecond =>
      simp only [clientStep, Option.some.injEq] at hstep
      subst hstep
      exact .again .pollSecond hsent hs hrs has hcs hss hts
    | pollSecond => cases hstep

theorem handler_answers (r : Call) (shared : Bool) (s : State) : ∃ v w, handler shared s r.immData =
    { s with server := v, toClient := s.toClient ++ [w] } ∧ Answers r v 0 [] [] [w] := by
  cases r with
  | write =>
    cases shared with
    | false => exact ⟨_, _, rfl, .replied true .default (by decide)⟩
    | true => exact ⟨_, _, rfl, .first rfl⟩
  | reset => exact ⟨_, _, rfl, .replied false .reset (by decide)⟩
  | malloc | read | free | invalidate | locks => exact ⟨_, _, rfl, .replied true .default (by decide)⟩

theorem Stage.server {shared : Bool} (h : Stage s) (hstep : serverStep shared s = some t) : Stage t := by
  obtain ⟨client, server, ⟨rc, ac, sc, tc⟩, ⟨rs, as, ss, ts⟩, toClient, toServer⟩ := s
  cases h with
  | asking cw cr sw sr hc hs hcs hss =>
    cases hs with
    | answered more =>
      simp only [serverStep, pollSend, ↓reduceIte, Option.some.injEq] at hstep
      subst hstep
      cases more with
      | true => exact .asking cw cr 0 0 hc .writeAddress hcs hss
      | false => exact .asking cw cr 0 0 hc .closed hcs hss
    | closed | pollRecv => cases hstep
    | writeAddress =>
      simp only [serverStep, Option.some.injEq] at hstep
      subst hstep
      exact .asking cw cr 1 0 hc .readAddress (by simp only at hcs ⊢; omega) hss
    | readAddress =>
      cases ts with
      | zero => cases hstep
      | succ k =>
        simp only [serverStep, Option.some.injEq] at hstep
        subst hstep
        exact .asking cw cr 1 1 hc .postRecv hcs hss
    | postRecv =>
      simp only [serverStep, Option.some.injEq] at hstep
      subst hstep
      exact .asking cw cr 1 1 hc .pollRecv hcs hss
  | answering r hc hs hcs hss hts =>
    cases hs with
    | arrived =>
      simp only [serverStep, Option.some.injEq] at hstep
      subst hstep
      exact .answering r hc .handle hcs hss hts
    | handle =>
      simp only [serverStep, Option.some.injEq] at hstep
      obtain ⟨v, w, heq, hans⟩ := handler_answers r shared
        ⟨client, .handle r.immData, ⟨rc, ac, sc, tc⟩, ⟨0, [], [], ts⟩, [], toServer⟩
      rw [heq] at hstep
      subst hstep
      exact .answering r hc hans hcs hss hts
    | replied more i hi | first hr => cases hstep
  | again hc hsent hs hrs has hcs hss hts =>
    cases hs with
    | arrived =>
      simp only [serverStep, pollSend, ↓reduceIte, Option.some.injEq] at hstep
      subst hstep
      exact .again hc hsent .postSecond hrs has hcs hss hts
    | postSecond =>
      simp only [serverStep, reply, List.nil_append, Option.some.injEq] at hstep
      subst hstep
      exact .again hc hsent (.replied false .default) hrs has hcs hss hts
    | replied more i => cases hstep

theorem Stage.arrive_server (h : Stage s) (ha : Awaited s (.arrive .server))
    (hstep : step s (.arrive .server) = some t) : Stage t := by
  obtain ⟨client, server, ⟨rc, ac, sc, tc⟩, ⟨rs, as, ss, ts⟩, toClient, toServer⟩ := s
  cases h with
  | asking cw cr sw sr hc hs hcs hss =>
    cases hs with
    | pollRecv =>
      cases hc with
      | posted r =>
        simp only [step, arrival, List.nil_append, Option.map_some, Option.some.injEq] at hstep
        subst hstep
        exact .answering r .arrived .arrived (by simp only at hcs ⊢; omega) (by simp only at hss ⊢; omega) rfl
      | _ => cases hstep
    | _ => cases ha.1
  | answering r hc hs hcs hss hts =>
    obtain rfl : toServer = [] := hts
    cases hstep
  | again hc hsent hs hrs has hcs hss hts =>
    obtain rfl : toServer = [] := hts
    cases hstep

theorem Stage.arrive_client (h : Stage s) (ha : Awaited s (.arrive .client))
    (hstep : step s (.arrive .client) = some t) : Stage t := by
  obtain ⟨client, server, ⟨rc, ac, sc, tc⟩, ⟨rs, as, ss, ts⟩, toClient, toServer⟩ := s
  cases h with
  | asking cw cr sw sr hc hs hcs hss =>
    obtain rfl : toClient = [] := hs.posts_nil
    cases hstep
  | answering r hc hs hcs hss hts =>
    cases hc with
    | arrived | postRecv => cases ha.1
    | pollRecv =>
      cases hs with
      | arrived | handle => cases hstep
      | replied more i hi =>
        simp only [step, arrival, createWriteWithImm, List.nil_append, Option.map_some, Option.some.injEq] at hstep
        subst hstep
        obtain rfl : toServer = [] := hts
        exact .asking 0 0 0 0 (.answered r i hi) (.answered more) hcs hss
      | first hr =>
        simp only [step, arrival, createWriteWithImm, List.nil_append, Option.map_some, Option.some.injEq] at hstep
        subst hstep
        subst hr
        exact .again .arrived rfl .arrived rfl rfl hcs hss hts
  | again hc hsent hs hrs has hcs hss hts =>
    cases hc with
    | arrived => cases ha.2
    | postSecond => cases ha.1
    | pollSecond =>
      cases hs with
      | arrived | postSecond => cases hstep
      | replied more i =>
        simp only [step, arrival, createWriteWithImm, List.nil_append, Option.map_some, Option.some.injEq] at hstep
        subst hstep
        obtain rfl : toServer = [] := hts
        obtain rfl : sc = [] := hsent
        obtain rfl : rs = 0 := hrs
        obtain rfl : as = [] := has
        exact .asking 0 0 0 0 (.answeredSecond i) (.answered more) hcs hss

theorem Stage.step (h : Stage s) (ha : Awaited s a) (hstep : QueuePairs.step s a = some t) : Stage t := by
  cases a with
  | call r => exact h.call hstep
  | close => exact h.close hstep
  | client => exact h.client hstep
  | server shared => exact h.server hstep
  | arrive x =>
    cases x with
    | client => exact h.arrive_client ha hstep
    | server => exact h.arrive_server ha hstep

end

/-- Whatever calls the client makes and however the steps interleave, every write with immediate of a connection
finds a posted receive exactly if every one arrives while its receiver waits for it. -/
theorem receiver_ready_iff (as : List Action) :
    Meets QueuePairs.step Ready connected as ↔ Meets QueuePairs.step Awaited connected as :=
  meets_congr_of_meets (I := Stage) (fun _ _ _ hs ha ht => hs.step ((hs.ready_iff ht).mp ha) ht)
    (fun _ _ _ hs ht => hs.ready_iff ht) stage_connected

def writeShared : List Action :=
  [.call .write, .server false, .server false, .server false, .client, .client, .arrive .server, .client, .client,
    .server false, .server true, .arrive .client, .client, .client, .server false, .server false, .arrive .client]

example : Meets QueuePairs.step Awaited connected writeShared ∧
    (run QueuePairs.step connected writeShared).isSome = true := by decide

/-- The address of the server's buffer reaches the client before the server has posted its receive. -/
def readAtOnce : List Action :=
  [.call .read, .server false, .client, .client, .arrive .server]

/-- A request for a read can arrive where no receive is posted. -/
theorem receiver_not_ready : ¬ ∀ as, Meets QueuePairs.step Ready connected as := by
  intro h
  exact absurd (h readAtOnce) (by decide)

end CacheCoherence.QueuePairs
