import CacheCoherence.Foundation.TransitionRuns
import CacheCoherence.Protocol.Sessions

/-! # The shared receive completion queue

All queue pairs of a node report to one completion queue, and `pollRecvWorkCompletionBlocking` takes whatever
is in it. Here every posted message leaves a completion with the name of its connection at its receiver, and
every poll takes any one of them.
-/
namespace CacheCoherence.Protocol
open TransitionRuns

abbrev Connection := NodeId × ℕ

/-- The system with the number of connections that each client has opened, the connection that each node has accepted
last, and the completions that each node has not taken yet. -/
structure Completions where
  state : State
  opened : NodeId → ℕ
  working : NodeId → Connection
  queue : NodeId → List Connection

/-- The thread is about to take a receive completion: in `receive`, `sendAddress`, `sendData`, `sendLock` or
`prepareForInvalidate`. -/
def Ctl.polling : Ctl → Bool
  | .serving _ | .exchange .waiting _ | .exchange .again _ | .closing _ _ => true
  | _ => false

/-- The connection that the call of a polling node works on: the accepted one in `receive`, else its own. -/
def Completions.current (q : Completions) (n : NodeId) : Connection :=
  match (q.state.node n).ctl with
  | .serving _ => q.working n
  | _ => (n, q.opened n)

def receivers (n c : NodeId) (old new : Option Channel) : List NodeId :=
  match old, new with
  | some ch, some ch' =>
    if c = n then if ch.up.isNone && ch'.up.isSome then [ch'.peer] else []
    else List.replicate (ch'.down.length - ch.down.length) c
  | _, _ => []

def Completions.post (q : Completions) (n : NodeId) (e : Effect) (queue : NodeId → List Connection) :
    NodeId → List Connection :=
  match e.wire with
  | some (c, ch) => fun m => queue m ++ List.replicate ((receivers n c (q.state.net c) ch).count m) (c, q.opened c)
  | none => queue

/-- A step of the system; a node that polls takes the completion `t`. -/
def Completions.step (q : Completions) : Action × Connection → Option Completions
  | (.begin n op, _) => (Protocol.step q.state (.begin n op)).map fun s => { q with state := s }
  | (.accept m c, _) => (Protocol.step q.state (.accept m c)).map fun s =>
    { q with
      state := s
      opened := Function.update q.opened c (q.opened c + 1)
      working := Function.update q.working m (c, q.opened c + 1) }
  | (.exec n env, t) =>
    if env.sound (q.state.node n) then do
      let e ← exec n (q.state.node n) env q.state
      if (q.state.node n).ctl.polling then
        if t ∈ q.queue n then
          some { q with
            state := e.apply q.state n
            queue := q.post n e (Function.update q.queue n ((q.queue n).erase t)) }
        else none
      else some { q with state := e.apply q.state n, queue := q.post n e q.queue }
    else none

/-- Whatever completion a polling node takes, it is one of the connection that its call works on. -/
def Completions.Unmixed (q : Completions) : Prop :=
  ∀ n, (q.state.node n).ctl.polling = true → ∀ t ∈ q.queue n, t = q.current n

def Completions.start (s : State) : Completions := ⟨s, fun _ => 0, fun n => (n, 0), fun _ => []⟩

/-- The messages on the connection `t` that its end at `m` has not taken. -/
def live (s : State) (opened : NodeId → ℕ) (m : NodeId) (t : Connection) : ℕ :=
  if t.2 = opened t.1 then
    match s.net t.1 with
    | some ch => (if t.1 = m then ch.down.length else 0) + if ch.peer = m ∧ ch.up.isSome = true then 1 else 0
    | none => 0
  else 0

/-- The completions of a node are the messages that are still under way to it, and nodes work on the connections
that are open. -/
structure Completions.Exact (q : Completions) : Prop where
  sessions : Sessions q.state
  count : ∀ m, (q.state.node m).ctl ≠ .crashed → ∀ t, (q.queue m).count t = live q.state q.opened m t
  working : ∀ c ch, q.state.net c = some ch → ch.isOpen = true → (q.state.node ch.peer).ctl ≠ .crashed →
    q.working ch.peer = (c, q.opened c)

inductive Traffic (s : State) (n : NodeId) (x : Ctl) (e : Effect) : Prop where
  | crashed : e.self.ctl = .crashed → e.wire = none → Traffic s n x e
  | silent : x.polling = false → e.wire = none → Traffic s n x e
  | post (ch ch' : Channel) : s.net n = some ch → e.wire = some (n, some ch') → ch.up = none → ch'.up.isSome = true →
      ch'.peer = ch.peer → ch'.isOpen = ch.isOpen →
      ch.down.length = ch'.down.length + (if x.polling then 1 else 0) → Traffic s n x e
  | take (ch ch' : Channel) : s.net n = some ch → e.wire = some (n, some ch') → ch.up = none → ch'.up = none →
      ch'.peer = ch.peer → ch'.isOpen = ch.isOpen → ch.down.length = ch'.down.length + 1 → x.polling = true →
      Traffic s n x e
  | drop (ch : Channel) : s.net n = some ch → e.wire = some (n, none) → ch.up = none → ch.down.length = 1 →
      x.polling = true → Traffic s n x e
  | answer (c : NodeId) (ch ch' : Channel) : c ≠ n → s.net c = some ch → e.wire = some (c, some ch') → ch.peer = n →
      ch'.peer = n → ch'.up = none → (ch'.isOpen = true → ch.isOpen = true) → ch.down.length ≤ ch'.down.length →
      x.polling = ch.up.isSome → Traffic s n x e

section
variable {s : State} {n m c : NodeId} {e : Effect} {env : Env} {x : Ctl} {q q' : Completions} {t : Connection}
    {ch : Channel}

theorem Moves.traffic (hS : Sessions s) (hx : (s.node n).ctl = x) (h : Moves s n env x e) : Traffic s n x e := by
  have hown : ∀ dh, s.net n = some dh → Link n x dh (s.node dh.peer).ctl := fun dh hdh => hx ▸ (hS.link n dh hdh).2
  cases h with
  | lockGrant k locks granted hn hset => exact .silent rfl rfl
  | connect _ y hopen => cases hopen <;> exact .silent rfl rfl
  | readLocal | readCached | writeLocal | memcpy | freeLocal | mallocLocal | discardOwn => exact .silent rfl rfl
  | swept ga b => cases b <;> exact .silent rfl rfl
  | discardFor ga d srcID ch hch =>
    obtain ⟨dh, hdh, hpeer, ho, hl⟩ := hS.client_link hx rfl (by simp)
    obtain rfl : ch = dh := Option.some.inj (hch.symm.trans hdh)
    obtain ⟨y, -, -, -, rfl⟩ := hl.of_handles ho rfl
    have hne : d ≠ n := fun heq => (hS.link d _ hch).1 (hpeer.trans heq.symm)
    exact .answer d _ _ hne hch rfl hpeer hpeer rfl (fun _ => rfl) (by simp [Channel.reply]) rfl
  | sendWrite d ch cache hch ha =>
    obtain ⟨rfl, -⟩ := (hown ch hch).of_connected
    exact .post _ _ hch rfl rfl rfl rfl rfl rfl
  | sendReset d result ch hch =>
    obtain ⟨rfl, -⟩ := (hown ch hch).of_connected
    exact .post _ _ hch rfl rfl rfl rfl rfl rfl
  | send y ch hch hnw hnr =>
    obtain ⟨rfl, -⟩ := (hown ch hch).of_connected
    exact .post _ _ hch rfl rfl rfl rfl rfl rfl
  | fetched ga w rest ch cache hch hd ha =>
    rcases (hown ch hch).of_waiting hd with ⟨rfl, rfl, -⟩ | ⟨d, sga, heq, -⟩
    · exact .post _ _ hch rfl rfl rfl rfl rfl rfl
    · cases heq
  | invalidated d sga rest ch hch hd =>
    rcases (hown ch hch).of_waiting hd with ⟨rfl, rfl, hr, -⟩ | ⟨d', sga', heq, -, ⟨rfl, rfl, -⟩ | ⟨sga'', rfl, rfl⟩⟩
    · cases hr
    · exact .take _ _ hch rfl rfl rfl rfl rfl rfl rfl
    · exact .take _ _ hch rfl rfl rfl rfl rfl rfl rfl
  | received y r rest ch hch hd hplain hnot =>
    rcases (hown ch hch).of_waiting hd with ⟨rfl, rfl, -⟩ | ⟨d, sga, heq, hr, -⟩
    · exact .post _ _ hch rfl rfl rfl rfl rfl rfl
    · exact absurd hr (hnot d sga heq)
  | mallocReturn size sga rest ch hch hd =>
    rcases (hown ch hch).of_waiting hd with ⟨rfl, rfl, -⟩ | ⟨d, sga', heq, -⟩
    · exact .drop _ hch rfl rfl rfl rfl
    · cases heq
  | suspend d sga rest ch hch hd =>
    obtain ⟨-, -, -, -, -, rfl⟩ := (hown ch hch).of_again hd
    exact .drop _ hch rfl rfl rfl rfl
  | sendCrash | fetchCrash | misread => exact .crashed rfl rfl
  | closed y r rest ch hch hd =>
    obtain ⟨rfl, -⟩ := (hown ch hch).of_closing hd
    exact .drop _ hch rfl rfl rfl rfl
  | serve d ch r e hch hpeer hup hs =>
    have hne : d ≠ n := fun heq => (hS.link d ch hch).1 (hpeer.trans heq.symm)
    have hpolls : Ctl.polling (.serving d) = ch.up.isSome := by rw [hup]; rfl
    have hdown : ∀ r', ch.down.length ≤ (ch.reply r').down.length := fun r' => by simp [Channel.reply]
    cases hs with
    | readNull => exact .crashed rfl rfl
    | reset => exact .answer d ch _ hne hch rfl hpeer hpeer rfl (fun ho => by cases ho) (hdown _) hpolls
    | free | forward => exact .answer d ch _ hne hch rfl hpeer hpeer rfl id le_rfl hpolls
    | _ => exact .answer d ch _ hne hch rfl hpeer hpeer rfl id (hdown _) hpolls
  | startInvalidations d data nodes srcID ch b hch hb =>
    obtain ⟨dh, hdh, hpeer, ho, hl⟩ := hS.client_link hx rfl (by simp)
    obtain rfl : ch = dh := Option.some.inj (hch.symm.trans hdh)
    have hne : d ≠ n := fun heq => (hS.link d ch hch).1 (hpeer.trans heq.symm)
    have hup : ch.up = none := by
      obtain ⟨-, ⟨sga, -, rfl⟩ | ⟨-, rfl⟩⟩ := hl.of_startInvalidations ho <;> rfl
    exact .answer d ch _ hne hch rfl hpeer hpeer rfl (fun ho => by cases ho) (by simp [Channel.reply])
      (by rw [hup]; rfl)

theorem live_pos {opened : NodeId → ℕ} (h : 0 < live s opened m t) : ∃ ch, t.2 = opened t.1 ∧ s.net t.1 = some ch ∧
    (t.1 = m ∨ ch.peer = m ∧ ch.up.isSome = true) := by
  unfold live at h
  split at h
  · rename_i hgen
    cases hch : s.net t.1 with
    | none => simp [hch] at h
    | some ch =>
      refine ⟨ch, hgen, rfl, ?_⟩
      by_contra hnot
      rw [not_or] at hnot
      simp [hch, hnot.1, hnot.2] at h
  · exact absurd h (lt_irrefl 0)

theorem Link.of_up_some {own sv : Ctl} (h : Link c own ch sv) (hup : ch.up.isSome = true) (hsv : sv ≠ .crashed) :
    sv = .serving c ∧ ch.isOpen = true := by
  cases h with
  | asked | closing => exact ⟨rfl, rfl⟩
  | serverDown => exact absurd rfl hsv
  | _ => cases hup

theorem Completions.Exact.unmixed (h : q.Exact) : q.Unmixed := by
  intro n hpoll t ht
  have hup : (q.state.node n).ctl ≠ .crashed := by
    intro hcrash
    rw [hcrash] at hpoll
    cases hpoll
  have hlive : 0 < live q.state q.opened n t := by
    rw [← h.count n hup t]
    exact List.count_pos_iff.mpr ht
  obtain ⟨ch, hgen, hch, hcase⟩ := live_pos hlive
  obtain ⟨c, g⟩ := t
  simp only at hgen hch hcase
  subst hgen
  rcases hcase with rfl | ⟨hpeer, hsome⟩
  · rcases (h.sessions.link c ch hch).2.online_or_down with hon | hdown
    · unfold current
      split
      · rename_i d hd
        rw [hd] at hon
        cases hon
      · rfl
    · exact absurd hdown hup
  · have hlink := (h.sessions.link c ch hch).2
    rw [hpeer] at hlink
    obtain ⟨hserving, ho⟩ := hlink.of_up_some hsome hup
    have hworking := h.working c ch hch ho (hpeer ▸ hup)
    rw [current, hserving, ← hworking, hpeer]

theorem Completions.exact_start (hs : Quiet s) : (Completions.start s).Exact := by
  refine ⟨hs.sessions, fun m _ t => ?_, fun c ch hch => ?_⟩
  · have hnone : s.net t.1 = none := hs.net t.1
    simp [Completions.start, live, hnone]
  · have hnone : s.net c = none := hs.net c
    rw [Completions.start] at hch
    cases hnone.symm.trans hch

theorem live_update {opened : NodeId → ℕ} {s' : State} {new : Option Channel}
    (hnet : s'.net = Function.update s.net c new) :
    live s' opened m t = if t = (c, opened c) then
        new.elim 0 fun ch => (if c = m then ch.down.length else 0) + if ch.peer = m ∧ ch.up.isSome = true then 1 else 0
      else live s opened m t := by
  obtain ⟨d, g⟩ := t
  by_cases hd : d = c
  · subst hd
    by_cases hg : g = opened d
    · subst hg
      simp only [live, hnet, Function.update_self, ↓reduceIte]
      cases new <;> rfl
    · simp [live, hg]
  · have hne : (d, g) ≠ (c, opened c) := fun heq => hd (Prod.mk.inj heq).1
    simp [live, hnet, hne, Function.update_of_ne hd]

theorem live_self {opened : NodeId → ℕ} (hch : s.net c = some ch) : live s opened m (c, opened c) =
    (if c = m then ch.down.length else 0) + if ch.peer = m ∧ ch.up.isSome = true then 1 else 0 := by
  simp [live, hch]

theorem Moves.alive (h : Moves s n env x e) : x ≠ .crashed := by
  rintro rfl
  cases h with
  | connect _ y hopen => cases hopen
  | misread _ _ _ _ _ _ hmis => cases hmis

theorem Completions.Exact.current_own (h : q.Exact) (hch : q.state.net n = some ch)
    (hup : (q.state.node n).ctl ≠ .crashed) :
    q.current n = (n, q.opened n) := by
  have hon := (h.sessions.link n ch hch).2.online_or_down.resolve_right hup
  unfold current
  split
  · rename_i d hd
    rw [hd] at hon
    cases hon
  · rfl

theorem Completions.Exact.current_serving (h : q.Exact) (hch : q.state.net c = some ch) (hpeer : ch.peer = n)
    (hup : ch.up.isSome = true) (hn : (q.state.node n).ctl ≠ .crashed) : q.current n = (c, q.opened c) := by
  have hlink := (h.sessions.link c ch hch).2
  rw [hpeer] at hlink
  obtain ⟨hserving, ho⟩ := hlink.of_up_some hup hn
  rw [current, hserving, ← h.working c ch hch ho (hpeer ▸ hn), hpeer]

def Completions.polled (q : Completions) (n : NodeId) (t : Connection) : NodeId → List Connection :=
  if (q.state.node n).ctl.polling then Function.update q.queue n ((q.queue n).erase t) else q.queue

theorem Completions.Exact.count_polled (h : q.Exact) (ht : (q.state.node n).ctl.polling = true → t ∈ q.queue n)
    (u : Connection) :
    (q.polled n t m).count u + (if m = n ∧ u = q.current n ∧ (q.state.node n).ctl.polling = true then 1 else 0) =
      (q.queue m).count u := by
  unfold polled
  by_cases hpoll : (q.state.node n).ctl.polling = true
  · rw [if_pos hpoll]
    by_cases hmn : m = n
    · subst hmn
      have hcur := h.unmixed m hpoll t (ht hpoll)
      rw [Function.update_self, ← hcur]
      by_cases hu : u = t
      · subst hu
        have hpos := List.count_pos_iff.mpr (ht hpoll)
        simp only [List.count_erase_self, hpoll, and_self, ↓reduceIte]
        omega
      · simp [List.count_erase_of_ne hu, hu]
    · simp [hmn]
  · simp [hpoll]

/-- A message between two nodes is one completion more for its receiver, and a poll one less. -/
theorem Completions.Exact.count_exec (h : q.Exact) (hm : Moves q.state n env (q.state.node n).ctl e)
    (ht : (q.state.node n).ctl.polling = true → t ∈ q.queue n) (halive : ((e.apply q.state n).node m).ctl ≠ .crashed)
    (u : Connection) : (q.post n e (q.polled n t) m).count u = live (e.apply q.state n) q.opened m u := by
  have hn := hm.alive
  have hold : (q.state.node m).ctl ≠ .crashed := by
    by_cases hmn : m = n
    · exact hmn ▸ hn
    · rwa [Effect.apply_ne hmn] at halive
  have hcount := h.count_polled (m := m) ht u
  rw [h.count m hold u] at hcount
  unfold post
  cases hm.traffic h.sessions rfl with
  | crashed hself hw =>
    have hmn : m ≠ n := by
      rintro rfl
      rw [Effect.apply_self] at halive
      exact halive hself
    have hnet := Effect.net_local (n := n) (s := q.state) hw
    simp only [hw, live, hnet]
    simpa [hmn, live] using hcount
  | silent hpoll hw =>
    have hnet := Effect.net_local (n := n) (s := q.state) hw
    simp only [hw, live, hnet]
    simpa [hpoll, live] using hcount
  | post ch ch' hch hw hup hup' hpeer ho hdown =>
    have hne := (h.sessions.link n ch hch).1
    rw [h.current_own hch hn] at hcount
    have hrecv : receivers n n (q.state.net n) (some ch') = [ch.peer] := by simp [receivers, hch, hup, hup', hpeer]
    simp only [hw, hrecv, List.count_append, List.count_replicate, live_update (Effect.net_wire hw), Option.elim_some,
      hpeer, hup', and_true]
    by_cases hu : u = (n, q.opened n)
    · rw [hu, live_self hch, hup] at hcount
      by_cases hmn : m = n
      · subst hmn
        have hcp : [ch.peer].count m = 0 := by simp [hne]
        simp only [hcp, hdown, hne] at hcount ⊢
        simp [hu] at hcount ⊢
        omega
      · simp [hu, hmn, Ne.symm hmn] at hcount ⊢
        by_cases hmp : ch.peer = m <;> simp [hmp, hcount]
    · simp [hu, Ne.symm hu] at hcount ⊢
      exact hcount
  | take ch ch' hch hw hup hup' hpeer ho hdown hpoll =>
    rw [h.current_own hch hn] at hcount
    have hrecv : receivers n n (q.state.net n) (some ch') = [] := by simp [receivers, hch, hup']
    simp only [hw, hrecv, List.count_nil, List.replicate_zero, List.append_nil, live_update (Effect.net_wire hw),
      Option.elim_some, hup', hpoll, and_true] at hcount ⊢
    by_cases hu : u = (n, q.opened n)
    · rw [hu, live_self hch, hup] at hcount
      by_cases hmn : m = n
      · subst hmn
        simp [hu] at hcount ⊢
        omega
      · simp [hu, hmn, Ne.symm hmn] at hcount ⊢
        exact hcount
    · simp [hu] at hcount ⊢
      exact hcount
  | drop ch hch hw hup hdown hpoll =>
    rw [h.current_own hch hn] at hcount
    have hrecv : receivers n n (q.state.net n) none = [] := by simp [receivers]
    simp only [hw, hrecv, List.count_nil, List.replicate_zero, List.append_nil, live_update (Effect.net_wire hw),
      Option.elim_none, hpoll, and_true] at hcount ⊢
    by_cases hu : u = (n, q.opened n)
    · rw [hu, live_self hch, hup, hdown] at hcount
      by_cases hmn : m = n
      · subst hmn
        simp [hu] at hcount ⊢
        omega
      · simp [hu, hmn, Ne.symm hmn] at hcount ⊢
        exact hcount
    · simp [hu] at hcount ⊢
      exact hcount
  | answer c ch ch' hcn hch hw hpeer hpeer' hup' ho hdown hpoll =>
    have hrecv : receivers n c (q.state.net c) (some ch') = List.replicate (ch'.down.length - ch.down.length) c := by
      simp [receivers, hch, hcn]
    have hcur : (q.state.node n).ctl.polling = true → q.current n = (c, q.opened c) :=
      fun hp => h.current_serving hch hpeer (hpoll ▸ hp) hn
    simp only [hw, hrecv, List.count_append, List.count_replicate, live_update (Effect.net_wire hw), Option.elim_some,
      hup']
    by_cases hu : u = (c, q.opened c)
    · rw [hu, live_self hch, hpeer] at hcount
      by_cases hmn : m = n
      · subst hmn
        cases hp : (q.state.node m).ctl.polling with
        | true =>
          simp [hu, hcn, hcur hp, ← hpoll, hp] at hcount ⊢
          exact hcount
        | false =>
          simp [hu, hcn, ← hpoll, hp] at hcount ⊢
          exact hcount
      · by_cases hmc : m = c
        · subst hmc
          simp [hu, hmn, Ne.symm hmn] at hcount ⊢
          omega
        · simp [hu, hmn, Ne.symm hmn, Ne.symm hmc] at hcount ⊢
          exact hcount
    · cases hp : (q.state.node n).ctl.polling with
      | true =>
        simp [hu, Ne.symm hu, hcur hp] at hcount ⊢
        exact hcount
      | false =>
        simp [hu, Ne.symm hu, hp] at hcount ⊢
        exact hcount

theorem Traffic.kept {x : Ctl} (h : Traffic s n x e) {dh : Channel} (hdh : (e.apply s n).net c = some dh)
    (ho : dh.isOpen = true) : ∃ ch, s.net c = some ch ∧ ch.peer = dh.peer ∧ ch.isOpen = true := by
  rcases Effect.net_cases hdh with hch | hwire
  · exact ⟨dh, hch, rfl, ho⟩
  · cases h with
    | crashed _ hw => rw [hw] at hwire; cases hwire
    | silent _ hw => rw [hw] at hwire; cases hwire
    | post ch ch' hch hw _ _ hpeer hopen =>
      rw [hw] at hwire
      cases hwire
      exact ⟨ch, hch, hpeer.symm, hopen ▸ ho⟩
    | take ch ch' hch hw _ _ hpeer hopen =>
      rw [hw] at hwire
      cases hwire
      exact ⟨ch, hch, hpeer.symm, hopen ▸ ho⟩
    | drop ch hch hw =>
      rw [hw] at hwire
      cases hwire
    | answer d ch ch' _ hch hw hpeer hpeer' _ hopen =>
      rw [hw] at hwire
      cases hwire
      exact ⟨ch, hch, hpeer.trans hpeer'.symm, hopen ho⟩

theorem Completions.Exact.exec (h : q.Exact) (hsound : env.sound (q.state.node n) = true)
    (hm : Moves q.state n env (q.state.node n).ctl e) (ht : (q.state.node n).ctl.polling = true → t ∈ q.queue n) :
    Exact { q with state := e.apply q.state n, queue := q.post n e (q.polled n t) } := by
  refine ⟨h.sessions.steps (.exec n env e hsound hm), fun m halive u => h.count_exec hm ht halive u, ?_⟩
  intro c dh hdh ho halive
  obtain ⟨ch, hch, hpeer, hopen⟩ := (hm.traffic h.sessions rfl).kept hdh ho
  have hold : (q.state.node ch.peer).ctl ≠ .crashed := by
    by_cases hpn : ch.peer = n
    · exact hpn ▸ hm.alive
    · rwa [← hpeer, Effect.apply_ne hpn] at halive
  rw [← hpeer]
  exact h.working c ch hch hopen hold

theorem Completions.Exact.accept {y : Exchange} (h : q.Exact) (hc : (q.state.node c).ctl = .exchange .connecting y)
    (hy : y.target = m) (hidle : (q.state.node m).ctl = .idle) :
    Exact { q with
      state := q.state.accepted m c y
      opened := Function.update q.opened c (q.opened c + 1)
      working := Function.update q.working m (c, q.opened c + 1) } := by
  have hnone : q.state.net c = none := h.sessions.net_none (by rw [hc]; rfl) (by rw [hc]; simp)
  have hmc := ne_of_idle_connecting hc hidle
  have hcrashed : ∀ p, ((q.state.accepted m c y).node p).ctl ≠ .crashed → (q.state.node p).ctl ≠ .crashed := by
    intro p hp
    by_cases hpc : p = c
    · subst hpc
      rw [hc]
      simp
    · by_cases hpm : p = m
      · subst hpm
        rw [hidle]
        simp
      · rwa [State.accepted_ne hpc hpm] at hp
  refine ⟨h.sessions.steps (.accept m c y hc hy hidle), fun p hp u => ?_, fun d ch hch ho halive => ?_⟩
  · have hcount := h.count p (hcrashed p hp) u
    rw [hcount]
    obtain ⟨d, g⟩ := u
    by_cases hdc : d = c
    · subst hdc
      by_cases hg : g = q.opened d + 1 <;> simp [live, hnone, hg]
    · simp [live, hdc, State.accepted_net_ne hdc]
  · by_cases hdc : d = c
    · subst hdc
      obtain rfl := Option.some.inj (State.accepted_net_client.symm.trans hch)
      simp
    · rw [State.accepted_net_ne hdc] at hch
      have hpm : ch.peer ≠ m := by
        intro heq
        have hlink := (h.sessions.link d ch hch).2
        rw [heq, hidle] at hlink
        rcases hlink.client_of_open ho with hdown | hclient
        · cases hdown
        · cases hclient
      have hwork := h.working d ch hch ho (hcrashed _ halive)
      simp [Function.update_of_ne hpm, Function.update_of_ne hdc, hwork]

theorem Completions.Exact.begin {op : Op UInt64} (h : q.Exact) (hidle : (q.state.node n).ctl = .idle)
    (hsus : (q.state.node n).suspended = []) : Exact { q with state := q.state.begun n (op.stamp q.state.clock) } := by
  have halive : ∀ p, (((q.state.begun n (op.stamp q.state.clock)).node p).ctl ≠ .crashed) →
    (q.state.node p).ctl ≠ .crashed := by
    intro p hp
    by_cases hpn : p = n
    · subst hpn
      rw [hidle]
      simp
    · rwa [State.begun_ne hpn] at hp
  refine ⟨h.sessions.steps (.begin n op hidle hsus), fun p hp u => ?_, fun c ch hch ho hup => ?_⟩
  · exact h.count p (halive p hp) u
  · exact h.working c ch hch ho (halive _ hup)

theorem Completions.step_exec (ha : q.step (.exec n env, t) = some q') :
    ∃ e, env.sound (q.state.node n) = true ∧ exec n (q.state.node n) env q.state = some e ∧
      ((q.state.node n).ctl.polling = true → t ∈ q.queue n) ∧
      q' = { q with state := e.apply q.state n, queue := q.post n e (q.polled n t) } := by
  simp only [Completions.step] at ha
  split at ha
  · rename_i hsound
    obtain ⟨e, he, ha⟩ := Option.bind_eq_some_iff.mp ha
    refine ⟨e, hsound, he, ?_⟩
    split at ha
    · rename_i hpoll
      split at ha
      · rename_i ht
        cases ha
        exact ⟨fun _ => ht, by rw [polled, if_pos hpoll]⟩
      · cases ha
    · rename_i hpoll
      cases ha
      exact ⟨fun hp => absurd hp hpoll, by rw [polled, if_neg hpoll]⟩
  · cases ha

theorem Completions.step_exact (h : q.Exact) {a : Action × Connection} (ha : q.step a = some q') : q'.Exact := by
  obtain ⟨a, t⟩ := a
  cases a with
  | begin n op =>
    obtain ⟨u, hu, rfl⟩ := Option.map_eq_some_iff.mp ha
    cases steps_of_step hu with
    | begin _ _ hidle hsus => exact h.begin hidle hsus
  | accept m c =>
    obtain ⟨u, hu, rfl⟩ := Option.map_eq_some_iff.mp ha
    cases steps_of_step hu with
    | accept _ _ y hc hy hidle => exact h.accept hc hy hidle
  | exec n env =>
    obtain ⟨e, hsound, he, ht, rfl⟩ := step_exec ha
    exact h.exec hsound (moves_of_exec he) ht

theorem Moves.available (h : Moves s n env x e) (hpoll : x.polling = true) :
    ∃ c ch, s.net c = some ch ∧ (c = n ∧ ch.down ≠ [] ∨ ch.peer = n ∧ ch.up.isSome = true) := by
  have hdown : ∀ (ch : Channel) (r : Reply) (rest : List Reply), s.net n = some ch → ch.down = r :: rest →
      ∃ c ch, s.net c = some ch ∧ (c = n ∧ ch.down ≠ [] ∨ ch.peer = n ∧ ch.up.isSome = true) :=
    fun ch r rest hch hd => ⟨n, ch, hch, Or.inl ⟨rfl, by rw [hd]; exact List.cons_ne_nil r rest⟩⟩
  cases h with
  | fetched ga w rest ch _ hch hd | fetchCrash ga w rest ch hch hd => exact hdown ch _ rest hch hd
  | invalidated d sga rest ch hch hd | suspend d sga rest ch hch hd => exact hdown ch _ rest hch hd
  | received y r rest ch hch hd | misread _ r rest ch hch hd => exact hdown ch _ rest hch hd
  | mallocReturn size sga rest ch hch hd => exact hdown ch _ rest hch hd
  | closed y r rest ch hch hd => exact hdown ch _ rest hch hd
  | serve c ch r e hch hpeer hup => exact ⟨c, ch, hch, Or.inr ⟨hpeer, by rw [hup]; rfl⟩⟩
  | connect _ y hopen => cases hopen <;> cases hpoll
  | _ => cases hpoll

theorem Completions.Exact.ready (h : q.Exact) (hm : Moves q.state n env (q.state.node n).ctl e)
    (hpoll : (q.state.node n).ctl.polling = true) : ∃ t, t ∈ q.queue n := by
  obtain ⟨c, ch, hch, hcase⟩ := hm.available hpoll
  refine ⟨(c, q.opened c), List.count_pos_iff.mp ?_⟩
  rw [h.count n hm.alive, live_self hch]
  rcases hcase with ⟨rfl, hdown⟩ | ⟨rfl, hup⟩
  · have hpos := List.length_pos_iff.mpr hdown
    simp only [↓reduceIte]
    omega
  · simp [hup]

theorem Completions.Exact.follows {u : State} {as : List Action} (h : q.Exact)
    (hrun : run Protocol.step q.state as = some u) :
    ∃ bs q', bs.map Prod.fst = as ∧ run Completions.step q bs = some q' ∧ q'.state = u := by
  induction as generalizing q with
  | nil => exact ⟨[], q, rfl, rfl, Option.some.inj hrun⟩
  | cons a as ih =>
    obtain ⟨v, hv, hrun⟩ := run_cons_some hrun
    obtain ⟨t, q', hq', hstate⟩ : ∃ t q', q.step (a, t) = some q' ∧ q'.state = v := by
      cases a with
      | begin n op => exact ⟨(n, 0), _, by rw [Completions.step, hv]; rfl, rfl⟩
      | accept m c => exact ⟨(m, 0), _, by rw [Completions.step, hv]; rfl, rfl⟩
      | exec n env =>
        simp only [Protocol.step] at hv
        split at hv
        · rename_i hsound
          obtain ⟨e, he, rfl⟩ := Option.map_eq_some_iff.mp hv
          by_cases hpoll : (q.state.node n).ctl.polling = true
          · obtain ⟨t, ht⟩ := h.ready (moves_of_exec he) hpoll
            exact ⟨t, _, by simp only [Completions.step, hsound, he, hpoll, ht, ↓reduceIte]; rfl, rfl⟩
          · exact ⟨(n, 0), _, by simp only [Completions.step, hsound, he, hpoll, ↓reduceIte]; rfl, rfl⟩
        · cases hv
    obtain ⟨bs, q'', hbs, hrun', hend⟩ := ih (q := q') (step_exact h hq') (hstate ▸ hrun)
    exact ⟨(a, t) :: bs, q'', by rw [List.map_cons, hbs], by rw [run_cons, hq']; exact hrun', hend⟩

/-- From a quiet start, in every run of any number of nodes and whatever completions the polls take, every completion
that a polling node can take is of the connection that its call works on. -/
theorem completions_unmixed (hs : Quiet s) (as : List (Action × Connection)) :
    Always Completions.step Completions.Unmixed (Completions.start s) as := by
  refine always_iff_passed.mpr fun pre q _ hrun => ?_
  exact (run_invariant (fun q a q' h ha => Completions.step_exact h ha) (Completions.exact_start hs) hrun).unmixed

def lockSession : List (Action × Connection) :=
  (.begin 1000 (.setLock ⟨3000, .exclusive⟩), (1000, 0)) ::
    ((go 1000, (1000, 1)) :: (talk 1000 2000).map fun a => (a, (1000, 1)))

theorem completions_unmixed_lockSession :
    Always Completions.step Completions.Unmixed (Completions.start (State.start homeBlock)) lockSession :=
  completions_unmixed (State.quiet_start homeBlock) lockSession

end
end CacheCoherence.Protocol
