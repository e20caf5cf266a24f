import CacheCoherence.Connection.RemoteCalls
import CacheCoherence.Protocol.Completions

/-! # The connections of the nodes

A connection of the protocol is one channel with a request and its replies; the statements behind it are those of
`Send.cpp` and `Receive.cpp`. Whatever the nodes do on a connection, a run of the statements shows the same.
-/
namespace CacheCoherence.QueuePairs
open TransitionRuns Traces

def waiting (serving : Bool) : ServerCtl := if serving then .writeAddress else .closed

def Session.state (x : Session) : State :=
  match x.phase with
  | .idle => ⟨.ready, waiting x.serving, ⟨0, [], [], 0⟩, ⟨0, [], [], 0⟩, [], []⟩
  | .asked r => ⟨.readAddress r, waiting x.serving, ⟨0, [], [], 0⟩, ⟨0, [], [], 1⟩, [], []⟩
  | .served r i =>
    ⟨.pollRecv r, if i = .invalidate then .postSecond else waiting x.serving, ⟨0, [i], [], 0⟩, ⟨0, [], [], 0⟩, [], []⟩
  | .invalidating => ⟨.postSecond, .postSecond, ⟨0, [], [], 0⟩, ⟨0, [], [], 0⟩, [], []⟩
  | .over => ⟨.closed, waiting x.serving, ⟨0, [], [], 0⟩, ⟨0, [], [], 0⟩, [], []⟩

def handling (shared : Bool) : List Action :=
  [.server shared, .server shared, .server shared, .client, .client, .arrive .server, .client, .client, .server shared,
    .server shared, .arrive .client, .server shared]

def confirming : List Action := [.client, .server false, .arrive .client, .client, .server false]

section
variable {x y : Session} {l : Observed} {log : List Observed}

theorem Session.session_state (hx : x.Settled) : x.state.session = x := by
  obtain ⟨phase, serving⟩ := x
  cases phase with
  | served r i =>
    by_cases hi : i = .invalidate
    · subst hi
      obtain ⟨rfl, rfl⟩ := hx rfl
      rfl
    · cases serving <;> simp [state, State.session, State.phase, State.reply, hi, waiting, ServerCtl.serving]
  | invalidating =>
    obtain rfl : serving = false := hx
    rfl
  | _ => cases serving <;> rfl

theorem run_observed (s : State) (log : List Observed) (as : List Action) :
    run observed (s, log) as = (run observed (s, []) as).map fun p => (p.1, log ++ p.2) := by
  induction as generalizing s log with
  | nil => simp
  | cons a as ih =>
    simp only [run_cons, observed, List.nil_append]
    cases patient s a with
    | none => rfl
    | some t =>
      simp only [Option.map_some, Option.bind_some]
      rw [ih t (log ++ observe s a), ih t (observe s a), Option.map_map]
      simp [Function.comp_def]

theorem Does.shown (hx : x.Settled) (h : Does x l y) : ∃ as, run observed (x.state, []) as = some (y.state, [l]) := by
  cases h with
  | @ask serving r => exact ⟨[.call r], by cases serving <;> rfl⟩
  | handle r shared => exact ⟨handling shared, by cases r <;> cases shared <;> rfl⟩
  | @answer serving r i hi =>
    refine ⟨[.client], ?_⟩
    simp [Session.state, hi, observed, patient, Ready, step, clientStep, observe]
  | invalidate => exact ⟨[.client], rfl⟩
  | confirm => exact ⟨confirming, rfl⟩
  | @close serving => exact ⟨[.close], by cases serving <;> rfl⟩

/-- Calls that are asked, handled and answered in order can be made by the statements of the two sides, with every
write finding a posted receive. -/
theorem trace_shown (hx : x.Settled) (h : Trace Does x log y) :
    ∃ as, run observed (x.state, []) as = some (y.state, log) ∧ y.state.session = y := by
  induction h with
  | nil x => exact ⟨[], rfl, x.session_state hx⟩
  | cons hl _ ih =>
    obtain ⟨as, has⟩ := hl.shown hx
    obtain ⟨bs, hbs, hend⟩ := ih hl.settled
    refine ⟨as ++ bs, ?_, hend⟩
    rw [run_append, has, Option.bind_some, run_observed, hbs]
    rfl

end
end CacheCoherence.QueuePairs

namespace CacheCoherence.Protocol
open TransitionRuns Traces
open QueuePairs (ImmData Observed)

def Request.call : Request → QueuePairs.Call
  | .malloc _ => .malloc
  | .read _ => .read
  | .free _ => .free
  | .write _ => .write
  | .locks _ => .locks
  | .reset => .reset
  | .invalidate _ => .invalidate

def Reply.immData : Reply → ImmData
  | .invalidate _ => .invalidate
  | .reset => .reset
  | _ => .default

/-- What a client does next on its own connection, where `down` are the replies there. The remote branch of `Malloc`
closes without RESET. -/
def Ctl.shows (c : NodeId) : Ctl → List Reply → List Observed
  | .exchange .connected e, _ => [.asked (e.request c).call]
  | .exchange .waiting (.performWrite _), .invalidate _ :: _ => [.answered .write .invalidate]
  | .exchange .waiting (.malloc _), r :: _ => [.answered .malloc r.immData, .closed]
  | .exchange .waiting e, r :: _ => [.answered (e.request c).call r.immData, .asked .reset]
  | .exchange .again _, _ => [.confirmed]
  | .closing _ _, r :: _ => [.answered .reset r.immData, .closed]
  | _, _ => []

def Ctl.asked (c : NodeId) : Ctl → Option QueuePairs.Call
  | .exchange .waiting e => some (e.request c).call
  | .closing _ _ => some .reset
  | _ => none

def Ctl.handled (c : NodeId) (sv own : Ctl) (down : List Reply) : List Observed :=
  match sv, own.asked c, down with
  | .startInvalidations .., _, _ => []
  | _, some r, a :: _ => [.handled r.immData (a.immData = .invalidate)]
  | _, _, _ => []

/-- What a step of node `n` shows on the connection of the client `c`. -/
def Effect.shows (e : Effect) (s : State) (n c : NodeId) : List Observed :=
  match e.wire with
  | some (d, new) =>
    if d ≠ c then []
    else if n = c then (s.node c).ctl.shows c ((s.net c).elim [] Channel.down)
    else (s.node n).ctl.handled c (s.node c).ctl (new.elim [] Channel.down)
  | none => []

def watch (c : NodeId) (p : State × List Observed) (a : Action) : Option (State × List Observed) :=
  (step p.1 a).map fun t => (t, match a with
    | .begin _ _ => p.2
    | .accept _ d => if d = c then [] else p.2
    | .exec n env => p.2 ++ (exec n (p.1.node n) env p.1).elim [] fun e => e.shows p.1 n c)

def Channel.serving (ch : Channel) : Bool := ch.isOpen && ch.down.head?.all fun r => r.immData ≠ .invalidate

/-- The session in which a client and its connection stand. -/
def Ctl.session (c : NodeId) (x : Ctl) (ch : Channel) : QueuePairs.Session :=
  match x with
  | .exchange .connected _ => ⟨.idle, ch.serving⟩
  | .exchange .waiting e =>
    ⟨ch.down.head?.elim (.asked (e.request c).call) fun r => .served (e.request c).call r.immData, ch.serving⟩
  | .exchange .again _ => ⟨.invalidating, false⟩
  | .closing _ _ => ⟨ch.down.head?.elim (.asked .reset) fun r => .served .reset r.immData, ch.serving⟩
  | _ => ⟨.over, ch.serving⟩

section
variable {s : State} {n m c : NodeId} {e : Effect} {env : Env} {x own sv : Ctl} {ch : Channel} {r : Request}
    {y : Exchange} {a : Reply} {rest : List Reply}

theorem Effect.shows_nil (h : ∀ new, e.wire ≠ some (c, new)) : e.shows s n c = [] := by
  unfold shows
  split
  · rename_i d new hw
    rw [if_pos]
    rintro rfl
    exact h new hw
  · rfl

theorem Ctl.handled_none (h : own.asked c = none) {down : List Reply} : sv.handled c own down = [] := by
  unfold handled
  rw [h]
  split <;> first | rfl | contradiction

theorem Effect.shows_crashed (hne : c ≠ n) (h : (s.node c).ctl = .crashed) : e.shows s n c = [] := by
  unfold shows
  split
  · rw [h]
    split
    · rfl
    · rw [if_neg hne.symm, Ctl.handled_none rfl]
  · rfl

theorem Link.answered_default (h : Link n (.exchange .waiting y) ch sv) (hd : ch.down = a :: rest)
    (hinv : ∀ d sga, y = .performWrite d → a ≠ .invalidate sga) :
    ch = ⟨y.target, none, [a], true⟩ ∧ rest = [] ∧ a.immData = .default := by
  rcases h.of_waiting hd with ⟨rfl, rfl, ha, hreq, -⟩ | ⟨d, sga, rfl, rfl, -⟩
  · refine ⟨rfl, rfl, ?_⟩
    generalize y.request n = r at ha hreq
    cases r <;> cases a <;> first | rfl | exact absurd rfl hreq | cases ha
  · exact absurd rfl (hinv d sga rfl)

theorem Ctl.shows_waiting (hm : ∀ size, y ≠ .malloc size) (hinv : ∀ d sga, y = .performWrite d → a ≠ .invalidate sga) :
    Ctl.shows n (.exchange .waiting y) (a :: rest) = [.answered (y.request n).call a.immData, .asked .reset] := by
  cases y with
  | malloc size => exact absurd rfl (hm size)
  | performWrite d =>
    cases a with
    | invalidate sga => exact absurd rfl (hinv d sga rfl)
    | _ => rfl
  | _ => rfl

theorem trace_answered (r : QueuePairs.Call) {i : ImmData} (hi : i = .default) :
    Trace QueuePairs.Does ⟨.served r i, true⟩ [.answered r i, .asked .reset] ⟨.asked .reset, true⟩ :=
  .cons (.answer (by simp [hi])) (.single (.ask .reset))

theorem Moves.shows_client (hS : Sessions s) (hx : (s.node n).ctl = x) (h : Moves s n env x e)
    (hch : s.net n = some ch) :
    ∃ z, Trace QueuePairs.Does (x.session n ch) (e.shows s n n) z ∧
      ∀ ch', (e.apply s n).net n = some ch' → e.self.ctl ≠ .crashed → z = e.self.ctl.session n ch' := by
  have hlink : Link n x ch (s.node ch.peer).ctl := hx ▸ (hS.link n ch hch).2
  have hon : x.online = true := hlink.online_or_down.resolve_right h.alive
  have hshows : ∀ new, e.wire = some (n, new) → e.shows s n n = x.shows n ch.down := by
    intro new hw
    simp [Effect.shows, hw, hch, hx]
  have hnew : ∀ dh, e.wire = some (n, some dh) → ∀ ch', (e.apply s n).net n = some ch' → dh = ch' := by
    intro dh hw ch' hch'
    rw [Effect.net_wire hw, Function.update_self] at hch'
    exact Option.some.inj hch'
  have hgone : e.wire = some (n, none) → ∀ ch', (e.apply s n).net n ≠ some ch' := by
    intro hw ch' hch'
    rw [Effect.net_wire hw, Function.update_self] at hch'
    cases hch'
  cases h with
  | sendWrite d dh cache hdh ha =>
    obtain rfl : dh = ch := Option.some.inj (hdh.symm.trans hch)
    obtain ⟨rfl, -⟩ := hlink.of_connected
    exact ⟨⟨.asked .write, true⟩, hshows _ rfl ▸ .single (.ask _), fun ch' hch' _ => hnew _ rfl ch' hch' ▸ rfl⟩
  | sendReset d result dh hdh =>
    obtain rfl : dh = ch := Option.some.inj (hdh.symm.trans hch)
    obtain ⟨rfl, -⟩ := hlink.of_connected
    exact ⟨⟨.asked .reset, true⟩, hshows _ rfl ▸ .single (.ask _), fun ch' hch' _ => hnew _ rfl ch' hch' ▸ rfl⟩
  | send y dh hdh hnw hnr =>
    obtain rfl : dh = ch := Option.some.inj (hdh.symm.trans hch)
    obtain ⟨rfl, -⟩ := hlink.of_connected
    exact ⟨⟨.asked (y.request n).call, true⟩, hshows _ rfl ▸ .single (.ask _),
      fun ch' hch' _ => hnew _ rfl ch' hch' ▸ rfl⟩
  | fetched ga w rest dh cache hdh hd ha =>
    obtain rfl : dh = ch := Option.some.inj (hdh.symm.trans hch)
    obtain ⟨rfl, rfl, -⟩ := hlink.answered_default hd (by simp)
    exact ⟨⟨.asked .reset, true⟩, hshows _ rfl ▸ trace_answered .read rfl, fun ch' hch' _ => hnew _ rfl ch' hch' ▸ rfl⟩
  | invalidated d sga rest dh hdh hd =>
    obtain rfl : dh = ch := Option.some.inj (hdh.symm.trans hch)
    refine ⟨⟨.invalidating, false⟩, ?_, fun ch' hch' _ => hnew _ rfl ch' hch' ▸ rfl⟩
    rcases hlink.of_waiting hd with ⟨rfl, rfl, hr, -⟩ | ⟨d', sga', heq, -, ⟨rfl, rfl, -⟩ | ⟨sga'', rfl, rfl⟩⟩
    · cases hr
    · exact hshows _ rfl ▸ .single .invalidate
    · exact hshows _ rfl ▸ .single .invalidate
  | received y a rest dh hdh hd hplain hnot =>
    obtain rfl : dh = ch := Option.some.inj (hdh.symm.trans hch)
    obtain ⟨rfl, rfl, ha⟩ := hlink.answered_default hd hnot
    have hm : ∀ size, y ≠ .malloc size := by
      rintro size rfl
      cases hplain
    refine ⟨⟨.asked .reset, true⟩, ?_, fun ch' hch' _ => hnew _ rfl ch' hch' ▸ rfl⟩
    rw [hshows _ rfl, Ctl.shows_waiting hm hnot]
    simpa [Ctl.session, Channel.serving, ha] using trace_answered (y.request n).call ha
  | mallocReturn size sga rest dh hdh hd =>
    obtain rfl : dh = ch := Option.some.inj (hdh.symm.trans hch)
    obtain ⟨rfl, rfl, -⟩ := hlink.answered_default hd (by simp)
    exact ⟨⟨.over, true⟩, hshows _ rfl ▸ .cons (.answer (by simp [Reply.immData])) (.single .close),
      fun ch' hch' => absurd hch' (hgone rfl ch')⟩
  | suspend d sga rest dh hdh hd =>
    obtain rfl : dh = ch := Option.some.inj (hdh.symm.trans hch)
    exact ⟨⟨.over, false⟩, hshows _ rfl ▸ .single .confirm, fun ch' hch' => absurd hch' (hgone rfl ch')⟩
  | closed y a rest dh hdh hd =>
    obtain rfl : dh = ch := Option.some.inj (hdh.symm.trans hch)
    obtain ⟨rfl, -⟩ := hlink.of_closing hd
    exact ⟨⟨.over, false⟩, hshows _ rfl ▸ .cons (.answer (by decide)) (.single .close),
      fun ch' hch' => absurd hch' (hgone rfl ch')⟩
  | sendCrash | fetchCrash | misread => exact ⟨_, .nil _, fun _ _ hcrash => absurd rfl hcrash⟩
  | connect _ y hopen => cases hopen <;> cases hon
  | _ => cases hon

theorem Link.of_request (h : Link c own ch (.serving c)) (hup : ch.up = some r) :
    own.asked c = some r.call ∧ ch.down = [] ∧ ch.isOpen = true ∧ ∀ dh : Channel,
      own.session c dh = ⟨dh.down.head?.elim (.asked r.call) fun a => .served r.call a.immData, dh.serving⟩ := by
  cases h with
  | asked e he =>
    obtain rfl : e.request c = r := Option.some.inj hup
    exact ⟨rfl, rfl, rfl, fun _ => rfl⟩
  | closing e a ha =>
    obtain rfl : Request.reset = r := Option.some.inj hup
    exact ⟨rfl, rfl, rfl, fun _ => rfl⟩
  | _ => cases hup

def Request.firstReply (r : Request) (a : Reply) : Prop :=
  r.answeredBy a = true ∨ ∃ sd sga, r = .write sd ∧ a = .invalidate sga

theorem Request.firstReply.does (h : r.firstReply a) :
    QueuePairs.Does ⟨.asked r.call, true⟩ (.handled r.call.immData (a.immData = .invalidate))
      ⟨.served r.call a.immData, r.call ≠ .reset && a.immData ≠ .invalidate⟩ := by
  rcases h with h | ⟨sd, sga, rfl, rfl⟩
  · cases r <;> cases a <;> first | exact .handle _ false | cases h
  · exact .handle .write true

/-- What `receive` leaves on the connection: nothing if it dereferences a null pointer, no reply if it has to ask other
nodes first, and else the first reply. -/
theorem Serves.replies {ns : NodeState} {t : ℕ} (h : Serves n ns env c ch t r e) :
    e.wire = none ∨ e.wire = some (c, some { ch with up := none }) ∨
      ∃ a, r.firstReply a ∧
        e.wire = some (c, some { ch.reply a with isOpen := if r.call = .reset then false else ch.isOpen }) := by
  cases h with
  | readNull => exact Or.inl rfl
  | free | forward => exact Or.inr (Or.inl rfl)
  | writeShared sd =>
    refine Or.inr (Or.inr ⟨_, ?_, rfl⟩)
    exact Or.inr ⟨sd, _, rfl, rfl⟩
  | _ =>
    refine Or.inr (Or.inr ⟨_, ?_, rfl⟩)
    exact Or.inl rfl

theorem Channel.serving_reply (r : Request) (a : Reply) (hdown : ch.down = []) (ho : ch.isOpen = true) :
    Channel.serving { ch.reply a with isOpen := if r.call = .reset then false else ch.isOpen } =
      (r.call ≠ .reset && a.immData ≠ .invalidate) := by
  by_cases hr : r.call = .reset <;> simp [serving, reply, hdown, ho, hr]

/-- A step of the server shows that it handles the request, or nothing. -/
theorem Moves.shows_server (hS : Sessions s) (hx : (s.node n).ctl = x) (h : Moves s n env x e) (hne : c ≠ n)
    (hch : s.net c = some ch) : ∃ z, Trace QueuePairs.Does ((s.node c).ctl.session c ch) (e.shows s n c) z ∧
      ∀ ch', (e.apply s n).net c = some ch' → z = (s.node c).ctl.session c ch' := by
  have hother : (∀ new, e.wire ≠ some (c, new)) →
      ∃ z, Trace QueuePairs.Does ((s.node c).ctl.session c ch) (e.shows s n c) z ∧
      ∀ ch', (e.apply s n).net c = some ch' → z = (s.node c).ctl.session c ch' := by
    intro hw
    refine ⟨(s.node c).ctl.session c ch, by rw [Effect.shows_nil hw]; exact .nil _, fun ch' hch' => ?_⟩
    rcases Effect.net_cases hch' with hold | hnew
    · rw [hch] at hold
      rw [Option.some.inj hold]
    · exact absurd hnew (hw _)
  have hshows : ∀ dh : Channel, e.wire = some (c, some dh) → e.shows s n c = x.handled c (s.node c).ctl dh.down := by
    intro dh hw
    simp [Effect.shows, hw, hx, hne.symm]
  have hnew : ∀ dh, e.wire = some (c, some dh) → ∀ ch', (e.apply s n).net c = some ch' → dh = ch' := by
    intro dh hw ch' hch'
    rw [Effect.net_wire hw, Function.update_self] at hch'
    exact Option.some.inj hch'
  cases h with
  | discardFor ga d srcID dh hdh =>
    by_cases hd : d = c
    · subst hd
      obtain rfl : dh = ch := Option.some.inj (hdh.symm.trans hch)
      obtain ⟨bh, hbh, hpeer, ho, hl⟩ := hS.client_link hx rfl (by simp)
      obtain rfl : bh = dh := Option.some.inj (hbh.symm.trans hch)
      obtain ⟨y, hy, hreq, -, rfl⟩ := hl.of_handles ho rfl
      have hfirst : (y.request d).firstReply (.address (ga.freed.sendable srcID)) := hreq ▸ Or.inl rfl
      have hcall : (y.request d).call = .free := hreq ▸ rfl
      refine ⟨⟨.served (y.request d).call .default, true⟩, ?_, fun ch' hch' => ?_⟩
      · rw [hshows _ rfl, hy]
        simpa [hcall, Ctl.session, Ctl.handled, Ctl.asked, Channel.serving, Channel.reply, Reply.immData] using
          Trace.single hfirst.does
      · rw [← hnew _ rfl ch' hch', hy]
        rfl
    · exact hother fun new hw => hd (Prod.mk.inj (Option.some.inj hw)).1
  | serve d dh r e hdh hpeer hup hs =>
    by_cases hd : d = c
    · subst hd
      obtain rfl : dh = ch := Option.some.inj (hdh.symm.trans hch)
      have hl := (hS.link d dh hch).2
      rw [hpeer, hx] at hl
      obtain ⟨hasked, hdown, ho, hsession⟩ := hl.of_request hup
      rcases hs.replies with hw | hw | ⟨a, ha, hw⟩
      · exact hother (by simp [hw])
      · refine ⟨⟨.asked r.call, true⟩, ?_, fun ch' hch' => ?_⟩
        · rw [hshows _ hw, hsession]
          simp only [Ctl.handled, hasked, hdown, Channel.serving, ho]
          exact .nil _
        · rw [← hnew _ hw ch' hch', hsession]
          simp [Channel.serving, hdown, ho]
      · refine ⟨⟨.served r.call a.immData, r.call ≠ .reset && a.immData ≠ .invalidate⟩, ?_, fun ch' hch' => ?_⟩
        · rw [hshows _ hw, hsession]
          simp only [Ctl.handled, hasked, hdown, Channel.serving, Channel.reply, ho]
          exact .single ha.does
        · rw [← hnew _ hw ch' hch', hsession, Channel.serving_reply r a hdown ho]
          simp [Channel.reply, hdown]
    · refine hother fun new hw => ?_
      rcases hs.replies with hw' | hw' | ⟨a, -, hw'⟩ <;> rw [hw] at hw'
      · cases hw'
      · exact hd (Prod.mk.inj (Option.some.inj hw')).1.symm
      · exact hd (Prod.mk.inj (Option.some.inj hw')).1.symm
  | startInvalidations d data nodes srcID dh b hdh hb =>
    by_cases hd : d = c
    · subst hd
      obtain rfl : dh = ch := Option.some.inj (hdh.symm.trans hch)
      obtain ⟨bh, hbh, hpeer, ho, hl⟩ := hS.client_link hx rfl (by simp)
      obtain rfl : bh = dh := Option.some.inj (hbh.symm.trans hch)
      obtain ⟨-, ⟨sga, hown, rfl⟩ | ⟨hown, rfl⟩⟩ := hl.of_startInvalidations ho
      · refine ⟨⟨.served .write .invalidate, false⟩, ?_, fun ch' hch' => ?_⟩
        · rw [hshows _ rfl, hown]
          exact .nil _
        · rw [← hnew _ rfl ch' hch', hown]
          rfl
      · refine ⟨⟨.invalidating, false⟩, ?_, fun ch' hch' => ?_⟩
        · rw [hshows _ rfl, hown]
          exact .nil _
        · rw [hown]
          rfl
    · exact hother fun new hw => hd (Prod.mk.inj (Option.some.inj hw)).1
  | swept ga b => exact hother (by cases b <;> simp [stepBroadcast])
  | _ => exact hother (by simp [hne.symm, Protocol.connect])

/-- What has been seen of a connection is a trace of calls, which leads to the session that the connection stands in. -/
structure Watched (c : NodeId) (p : State × List Observed) : Prop where
  sessions : Sessions p.1
  trace : ∃ z, Trace QueuePairs.Does ⟨.idle, true⟩ p.2 z ∧
    ∀ ch, p.1.net c = some ch → (p.1.node c).ctl ≠ .crashed → z = (p.1.node c).ctl.session c ch

theorem Moves.shows_none (hS : Sessions s) (h : Moves s n env (s.node n).ctl e) (hnone : s.net c = none) :
    e.shows s n c = [] ∧ (e.apply s n).net c = none := by
  have hwire : ∀ new, e.wire ≠ some (c, new) := by
    intro new hw
    cases h.traffic hS rfl with
    | crashed _ hw' | silent _ hw' => cases hw.symm.trans hw'
    | post ch ch' hch hw' | take ch ch' hch hw' | drop ch hch hw' =>
      obtain rfl : c = n := (Prod.mk.inj (Option.some.inj (hw.symm.trans hw'))).1
      cases hnone.symm.trans hch
    | answer d ch ch' hne hch hw' =>
      obtain rfl : c = d := (Prod.mk.inj (Option.some.inj (hw.symm.trans hw'))).1
      cases hnone.symm.trans hch
  refine ⟨Effect.shows_nil hwire, ?_⟩
  cases hnet : (e.apply s n).net c with
  | none => rfl
  | some ch =>
    rcases Effect.net_cases hnet with hold | hnew
    · cases hnone.symm.trans hold
    · exact absurd hnew (hwire _)

theorem Watched.begin {log : List Observed} (h : Watched c (s, log)) (op : Op Word) (hidle : (s.node n).ctl = .idle) :
    ∃ z, Trace QueuePairs.Does ⟨.idle, true⟩ log z ∧ ∀ ch, (s.begun n op).net c = some ch →
      ((s.begun n op).node c).ctl ≠ .crashed → z = ((s.begun n op).node c).ctl.session c ch := by
  obtain ⟨z, htrace, hz⟩ := h.trace
  refine ⟨z, htrace, fun ch hch hup => ?_⟩
  rw [State.begun_net] at hch
  by_cases hcn : c = n
  · subst hcn
    have hnone : s.net c = none := h.sessions.net_none (by rw [hidle]; rfl) (by simp [hidle])
    cases hnone.symm.trans hch
  · rw [State.begun_ne hcn] at hup ⊢
    exact hz ch hch hup

theorem Watched.accept {log : List Observed} {d : NodeId} (h : Watched c (s, log))
    (hidle : (s.node m).ctl = .idle) :
    ∃ z, Trace QueuePairs.Does ⟨.idle, true⟩ (if d = c then [] else log) z ∧ ∀ ch, (s.accepted m d y).net c = some ch →
      ((s.accepted m d y).node c).ctl ≠ .crashed → z = ((s.accepted m d y).node c).ctl.session c ch := by
  obtain ⟨z, htrace, hz⟩ := h.trace
  by_cases hdc : d = c
  · subst hdc
    refine ⟨⟨.idle, true⟩, by simpa using .nil _, fun ch hch _ => ?_⟩
    rw [State.accepted_net_client, Option.some.injEq] at hch
    subst hch
    rw [State.accepted_client]
    rfl
  · refine ⟨z, by simpa [hdc] using htrace, fun ch hch hup => ?_⟩
    rw [State.accepted_net_ne (Ne.symm hdc)] at hch
    by_cases hcm : c = m
    · subst hcm
      have hnone : s.net c = none := h.sessions.net_none (by rw [hidle]; rfl) (by simp [hidle])
      cases hnone.symm.trans hch
    · rw [State.accepted_ne (Ne.symm hdc) hcm] at hup ⊢
      exact hz ch hch hup

theorem Watched.exec {log : List Observed} (h : Watched c (s, log)) (hm : Moves s n env (s.node n).ctl e) :
    ∃ z, Trace QueuePairs.Does ⟨.idle, true⟩ (log ++ e.shows s n c) z ∧ ∀ ch, (e.apply s n).net c = some ch →
      ((e.apply s n).node c).ctl ≠ .crashed → z = ((e.apply s n).node c).ctl.session c ch := by
  obtain ⟨z, htrace, hz⟩ := h.trace
  have hS : Sessions s := h.sessions
  cases hch : s.net c with
  | none =>
    obtain ⟨hshows, hnet⟩ := hm.shows_none hS hch
    refine ⟨z, by simpa [hshows] using htrace, fun ch hch' => ?_⟩
    cases hnet.symm.trans hch'
  | some ch =>
    by_cases hcn : c = n
    · subst hcn
      obtain ⟨z', htrace', hz'⟩ := hm.shows_client hS rfl hch
      rw [← hz ch hch hm.alive] at htrace'
      refine ⟨z', htrace.append htrace', fun ch' hch' hup => ?_⟩
      rw [Effect.apply_self] at hup ⊢
      exact hz' ch' hch' hup
    · rw [Effect.apply_ne hcn]
      by_cases hcrash : (s.node c).ctl = .crashed
      · rw [Effect.shows_crashed hcn hcrash, List.append_nil]
        exact ⟨z, htrace, fun _ _ hup => absurd hcrash hup⟩
      · obtain ⟨z', htrace', hz'⟩ := hm.shows_server hS rfl hcn hch
        rw [← hz ch hch hcrash] at htrace'
        exact ⟨z', htrace.append htrace', fun ch' hch' _ => hz' ch' hch'⟩

theorem Watched.step {p q : State × List Observed} {a : Action} (h : Watched c p) (hq : watch c p a = some q) :
    Watched c q := by
  obtain ⟨s, log⟩ := p
  obtain ⟨t, ht, rfl⟩ := Option.map_eq_some_iff.mp hq
  have hS : Sessions s := h.sessions
  refine ⟨hS.steps (steps_of_step ht), ?_⟩
  cases a with
  | begin n op =>
    cases steps_of_step ht with
    | begin _ _ hidle hsus => exact h.begin _ hidle
  | accept m d =>
    cases steps_of_step ht with
    | accept _ _ y _ _ hidle => exact h.accept hidle
  | exec n env =>
    simp only [Protocol.step] at ht
    split at ht
    · obtain ⟨e, he, rfl⟩ := Option.map_eq_some_iff.mp ht
      simp only [he]
      exact h.exec (moves_of_exec he)
    · cases ht

/-- In every run of the nodes, what a client and its server do on their connection is what a run of the statements
behind it shows, and the connection stands in the session in which that run ends. -/
theorem connections_shown {s₀ : State} {as : List Action} {log : List Observed} (hs : Quiet s₀) (c : NodeId)
    (h : run (watch c) (s₀, []) as = some (s, log)) :
    ∃ bs t, run QueuePairs.observed (QueuePairs.connected, []) bs = some (t, log) ∧
      ∀ ch, s.net c = some ch → (s.node c).ctl ≠ .crashed → t.session = (s.node c).ctl.session c ch := by
  have hstart : Watched c (s₀, []) :=
    ⟨hs.sessions, ⟨.idle, true⟩, .nil _, fun ch hch => by cases (hs.net c).symm.trans hch⟩
  obtain ⟨-, z, htrace, hz⟩ := run_invariant (fun _ _ _ h hq => h.step hq) hstart h
  obtain ⟨bs, hbs, hend⟩ := QueuePairs.trace_shown (x := ⟨.idle, true⟩) trivial htrace
  exact ⟨bs, z.state, hbs, fun ch hch hup => hend.trans (hz ch hch hup)⟩

/-- Node 1000 sets a lock at the lock node, which takes a request and the RESET. -/
theorem lockSession_shown : ∃ t bs u, run (watch 1000) (.start homeBlock, []) (lockSession.map Prod.fst) = some (t,
      [.asked .locks, .handled .locks false, .answered .locks .default, .asked .reset, .handled .reset false,
        .answered .reset .reset, .closed]) ∧
    run QueuePairs.observed (QueuePairs.connected, []) bs = some (u,
      [.asked .locks, .handled .locks false, .answered .locks .default, .asked .reset, .handled .reset false,
        .answered .reset .reset, .closed]) := by
  have hrun : (run (watch 1000) (.start homeBlock, []) (lockSession.map Prod.fst)).map Prod.snd =
      some [.asked .locks, .handled .locks false, .answered .locks .default, .asked .reset, .handled .reset false,
        .answered .reset .reset, .closed] := by decide
  obtain ⟨⟨t, log⟩, ht, rfl⟩ := Option.map_eq_some_iff.mp hrun
  obtain ⟨bs, u, hbs, -⟩ := connections_shown (State.quiet_start homeBlock) 1000 ht
  exact ⟨t, bs, u, ht, hbs⟩

end
end CacheCoherence.Protocol
