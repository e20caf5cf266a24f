import CacheCoherence.Foundation.TransitionRuns
import CacheCoherence.Locking.AtomicTable
import CacheCoherence.Protocol.Sessions

/-! # The lock service

The lock node answers for all nodes, through `Node::setLock` and through `handleLocks`. The
decisions of a run form the history of one table, and every node learns those on its own
requests in order.
-/
namespace CacheCoherence.Protocol
open TransitionRuns

def Event.decision : Event → Option Decision
  | .lock n l granted => some ⟨n, l, granted⟩
  | _ => none

def Event.answer (n : NodeId) : Event → Option (Lock × Bool)
  | .answered m l granted => if m = n then some (l, granted) else none
  | _ => none

def decisions (log : List Event) : List Decision := log.filterMap Event.decision

def decisionsOf (n : NodeId) (log : List Event) : List (Lock × Bool) :=
  (decisions log).filterMap fun d => if d.client = n then some (d.lock, d.granted) else none

def answers (n : NodeId) (log : List Event) : List (Lock × Bool) := log.filterMap (Event.answer n)

/-- An answer that is on its way to the node, or in `closeClientSocket` of `setLock`. -/
def pending (x : Ctl) (ch : Option Channel) : Option (Lock × Bool) :=
  match x, ch with
  | .exchange .waiting (.setLock k), some ⟨_, _, [.lock granted], _⟩ => some (k.lock, granted)
  | .closing (.setLock k) (.lock granted), _ => some (k.lock, granted)
  | _, _ => none

section
variable {s : State} {n p : NodeId} {e : Effect} {env : Env} {x : Ctl} {es fs : List Event}

@[simp] theorem decisions_append : decisions (es ++ fs) = decisions es ++ decisions fs :=
  List.filterMap_append ..

@[simp] theorem decisionsOf_append : decisionsOf n (es ++ fs) = decisionsOf n es ++ decisionsOf n fs := by
  simp [decisionsOf]

@[simp] theorem answers_append : answers n (es ++ fs) = answers n es ++ answers n fs :=
  List.filterMap_append ..

theorem pending_of_offline (h : x.online = false) (ch : Option Channel) : pending x ch = none := by
  unfold pending
  split
  · cases h
  · cases h
  · rfl

theorem pending_congr (h : ∀ k, x ≠ .exchange .waiting (.setLock k)) (ch ch' : Option Channel) :
    pending x ch = pending x ch' := by
  cases x with
  | exchange ph y =>
    cases ph with
    | waiting =>
      cases y with
      | setLock k => exact absurd rfl (h k)
      | _ => rfl
    | _ => rfl
  | closing y r => cases y <;> cases r <;> rfl
  | _ => rfl

theorem Moves.decides (h : Moves s n env x e) :
    (e.self.locks = (s.node n).locks ∧ decisions e.events = []) ∨
    ∃ c l, ((∃ k, x = .setLock k ∧ c = n ∧ l = k.lock) ∨
        x = .serving c ∧ ∃ ch, s.net c = some ch ∧ ch.peer = n ∧ ch.up = some (.locks l)) ∧
      n = locknode ∧ e.self.locks = ((s.node n).locks.setLock l.id l.state).1 ∧
      decisions e.events = [⟨c, l, ((s.node n).locks.setLock l.id l.state).2⟩] := by
  cases h with
  | lockGrant k locks granted hn hset =>
    refine Or.inr ⟨n, k.lock, Or.inl ⟨k, rfl, rfl, rfl⟩, hn, ?_, ?_⟩
    · rw [hset, NodeState.lockAnswer_fst]
      rfl
    · rw [hset]
      rcases NodeState.lockAnswer_snd n { s.node n with locks := locks } granted k with hev | ⟨o, hev⟩ <;>
        simp [hev, decisions, Event.decision]
  | swept ga b => cases b <;> exact Or.inl ⟨by simp [stepBroadcast], rfl⟩
  | closed y r rest ch hch hd =>
    refine Or.inl ⟨by rw [NodeState.closed_fst]; rfl, ?_⟩
    unfold NodeState.closed
    split
    · rename_i k granted
      rcases NodeState.lockAnswer_snd n (s.node n) granted k with
        hev | ⟨o, hev⟩ <;> simp [hev, decisions, Event.decision]
    all_goals simp [decisions, Event.decision]
  | serve c ch r e hch hpeer hr hs =>
    cases hs with
    | locks l hn => exact Or.inr ⟨c, l, Or.inr ⟨rfl, ch, hch, hpeer, hr⟩, hn, rfl, rfl⟩
    | reset => exact Or.inl ⟨by simp, rfl⟩
    | _ => exact Or.inl ⟨rfl, rfl⟩
  | _ => exact Or.inl ⟨rfl, rfl⟩

theorem Moves.answers_ne (h : Moves s n env x e) (hp : p ≠ n) : answers p e.events = [] := by
  have hnp : n ≠ p := Ne.symm hp
  cases h with
  | lockGrant k locks granted hn hset =>
    rcases NodeState.lockAnswer_snd n { s.node n with locks := locks } granted k with hev | ⟨o, hev⟩ <;>
      simp [hev, answers, Event.answer, hnp]
  | swept ga b => cases b <;> rfl
  | closed y r rest ch hch hd =>
    unfold NodeState.closed
    split
    · rename_i k granted
      rcases NodeState.lockAnswer_snd n (s.node n) granted k with
        hev | ⟨o, hev⟩ <;> simp [hev, answers, Event.answer, hnp]
    all_goals simp [answers, Event.answer]
  | serve c ch r e hch hpeer hr hs => cases hs <;> rfl
  | _ => rfl

theorem Moves.decisionsOf_ne (h : Moves s n env x e) (hp : p ≠ n) (hc : x.answers ≠ some p) :
    decisionsOf p e.events = [] := by
  rcases h.decides with ⟨-, hd⟩ | ⟨c, l, hcase, -, -, hd⟩
  · simp [decisionsOf, hd]
  · have hcp : c ≠ p := by
      rintro rfl
      rcases hcase with ⟨k, -, hcn, -⟩ | ⟨rfl, -⟩
      · exact hp hcn
      · exact hc rfl
    simp [decisionsOf, hd, hcp]

theorem Moves.balance_client (hS : Sessions s) (hx : (s.node n).ctl = x) (h : Moves s n env x e)
    (hc : x.answers = some p) (hp : p ≠ n) :
    (pending (s.node p).ctl (s.net p)).toList ++ decisionsOf p e.events =
      answers p e.events ++ (pending (s.node p).ctl ((e.apply s n).net p)).toList := by
  rw [h.answers_ne hp, List.nil_append]
  by_cases hw : ∃ k, (s.node p).ctl = .exchange .waiting (.setLock k)
  · obtain ⟨k, hk⟩ := hw
    cases h with
    | serve c ch r e hch hpeer hup hs =>
      obtain rfl := Option.some.inj hc
      rcases (hS.serving_link hx hch hpeer).of_up hup with ⟨y, hown, rfl, -, rfl⟩ | ⟨y, a, hown, -⟩
      · obtain rfl : Exchange.setLock k = y := by
          rw [hk] at hown
          cases hown
          rfl
        simp only [hch, hk]
        cases hs with
        | locks l hn => simp [Effect.apply, Channel.reply, pending, decisionsOf, decisions, Event.decision]
        | forward _ hf => simp [Effect.apply, forward, pending, decisionsOf, decisions]
      · rw [hk] at hown
        cases hown
    | discardFor ga c srcID ch hch =>
      obtain rfl := Option.some.inj hc
      obtain ⟨dh, -, -, ho, hl⟩ := hS.client_link hx rfl (by simp)
      obtain ⟨y, hown, hreq, -⟩ := hl.of_handles ho rfl
      rw [hk] at hown
      cases hown
      cases hreq
    | startInvalidations c d nodes srcID ch b hch hb =>
      obtain rfl := Option.some.inj hc
      obtain ⟨dh, -, -, ho, hl⟩ := hS.client_link hx rfl (by simp)
      rcases (hl.of_startInvalidations ho).2 with ⟨sga, hown, -⟩ | ⟨hown, -⟩
      · rw [hk] at hown
        cases hown
      · rw [hk] at hown
        cases hown
    | connect x y hopen => cases hopen <;> cases hc
    | misread x r rest ch _ _ hmis => cases hmis <;> cases hc
    | _ => cases hc
  · have hcongr := pending_congr (fun k hk => hw ⟨k, hk⟩) (s.net p) ((e.apply s n).net p)
    rw [← hcongr]
    rcases h.decides with ⟨-, hd⟩ | ⟨c, l, hcase, -, -, hd⟩
    · simp [decisionsOf, hd]
    · rcases hcase with ⟨k, rfl, -⟩ | ⟨rfl, ch, hch, hpeer, hup⟩
      · cases hc
      · obtain rfl := Option.some.inj hc
        exfalso
        rcases (hS.serving_link hx hch hpeer).of_up hup with ⟨y, hown, hy, -⟩ | ⟨y, a, -, hy, -⟩
        · cases y with
          | setLock k => exact hw ⟨k, hown⟩
          | forward d r => exact ((hS.stuck c).ne_forward (by rw [hown]; rfl) d r).1 _ hown
          | _ => cases hy
        · cases hy

theorem Moves.balance_self (hS : Sessions s) (hx : (s.node n).ctl = x) (h : Moves s n env x e) :
    (pending x (s.net n)).toList ++ decisionsOf n e.events =
      answers n e.events ++ (pending e.self.ctl ((e.apply s n).net n)).toList := by
  have hlink : ∀ ch, s.net n = some ch → Link n x ch (s.node ch.peer).ctl := by
    intro ch hch
    exact hx ▸ (hS.link n ch hch).2
  cases h with
  | lockGrant k locks granted hn hset =>
    have hoff : (({ s.node n with locks := locks } : NodeState).lockAnswer n granted k).1.ctl.online = false :=
      (settles_lockAnswer _ granted k).offline
    rw [pending_of_offline rfl, pending_of_offline hoff]
    rcases NodeState.lockAnswer_snd n { s.node n with locks := locks } granted k with hev | ⟨o, hev⟩ <;>
      simp [hev, decisionsOf, decisions, answers, List.filterMap_cons, Event.decision, Event.answer]
  | closed y r rest ch hch hd =>
    obtain ⟨rfl, ha⟩ := (hlink ch hch).of_closing hd
    have hoff : ((s.node n).closed n y r).1.ctl.online = false := (settles_closed _ y r).offline
    rw [pending_of_offline hoff]
    cases y with
    | setLock k =>
      cases r with
      | lock granted =>
        rcases NodeState.lockAnswer_snd n (s.node n) granted k with
          hev | ⟨o, hev⟩ <;>
          simp [NodeState.closed, hev, pending, decisionsOf, decisions, answers, List.filterMap_cons,
            Event.decision, Event.answer]
      | _ => cases ha
    | _ => cases r <;> rfl
  | received y r rest ch hch hd hplain hninv =>
    rcases (hlink ch hch).of_waiting hd with ⟨rfl, rfl, ha, -⟩ | ⟨d, sga, he, hr, -⟩
    · rw [hch]
      cases y with
      | setLock k =>
        cases r with
        | lock granted => rfl
        | _ => cases ha
      | _ => cases r <;> rfl
    · exact absurd hr (hninv d sga he)
  | send y ch hch hnw hnr =>
    obtain ⟨rfl, -⟩ := (hlink ch hch).of_connected
    cases y <;> simp [Effect.apply, pending, decisionsOf, decisions, answers]
  | serve c ch r e hch hpeer hup hs =>
    have hcn : c ≠ n := fun heq => (hS.link c ch hch).1 (hpeer.trans heq.symm)
    rw [pending_of_offline rfl]
    cases hs with
    | locks l hn =>
      rw [pending_of_offline (by rw [hx]; rfl)]
      simp [decisionsOf, decisions, Event.decision, answers, Event.answer, hcn]
    | reset =>
      rw [pending_of_offline (settles_endSession _).offline]
      rfl
    | free sga b =>
      rw [pending_of_offline (by cases b.record.freeInvalidates <;> rfl)]
      rfl
    | malloc | read | readCached | write | invalidate =>
      rw [pending_of_offline (by simp [hx, Ctl.online])]
      rfl
    | _ => rfl
  | swept ga b =>
    have hoff := (settles_swept (s.node n) ga b).offline
    rw [pending_of_offline rfl, pending_of_offline hoff]
    cases b <;> rfl
  | connect x y hopen => cases hopen <;> rfl
  | misread x r rest ch hch hd hmis => cases hmis <;> rfl
  | writeLocal d b =>
    cases b.record.writeInvalidates <;> rfl
  | freeLocal ga b =>
    cases b.record.freeInvalidates <;> rfl
  | _ => rfl

/-- One move balances the account of every node: an answer is pending from the decision to the
return of the node's `setLock`. -/
theorem Moves.balance (hS : Sessions s) (hx : (s.node n).ctl = x) (h : Moves s n env x e) (p : NodeId) :
    (pending (s.node p).ctl (s.net p)).toList ++ decisionsOf p e.events =
      answers p e.events ++ (pending ((e.apply s n).node p).ctl ((e.apply s n).net p)).toList := by
  by_cases hp : p = n
  · subst hp
    rw [Effect.apply_self, hx]
    exact h.balance_self hS hx
  · rw [Effect.apply_ne hp]
    by_cases hc : x.answers = some p
    · exact h.balance_client hS hx hc hp
    · rw [h.net_ne hp hc, h.decisionsOf_ne hp hc, h.answers_ne hp, List.append_nil, List.nil_append]

structure LockService (s : State) : Prop where
  sessions : Sessions s
  table : (s.node locknode).locks = LockTable.empty.replay ((decisions s.log).map Decision.lock)
  oneTable : OneTable (decisions s.log)
  account : ∀ p, decisionsOf p s.log = answers p s.log ++ (pending (s.node p).ctl (s.net p)).toList

theorem Moves.lockService (h : LockService s) (hm : Moves s n env (s.node n).ctl e) :
    LockService (e.apply s n) := by
  have hlocks : n ≠ locknode → ((e.apply s n).node locknode).locks = (s.node locknode).locks := by
    intro hn
    rw [Effect.apply_ne (Ne.symm hn)]
  have haccount : ∀ p, decisionsOf p (e.apply s n).log =
      answers p (e.apply s n).log ++ (pending ((e.apply s n).node p).ctl ((e.apply s n).net p)).toList := by
    intro p
    rw [Effect.apply_log, decisionsOf_append, answers_append, h.account p, List.append_assoc,
      hm.balance h.sessions rfl p, ← List.append_assoc]
  refine ⟨h.sessions.moves rfl hm, ?_, ?_, haccount⟩
  · rw [Effect.apply_log, decisions_append]
    rcases hm.decides with ⟨hl, hd⟩ | ⟨c, l, -, hn, hl, hd⟩
    · rw [hd, List.append_nil, ← h.table]
      by_cases hn : n = locknode
      · subst hn
        rw [Effect.apply_self, hl]
      · exact hlocks hn
    · subst hn
      rw [hd, Effect.apply_self, hl, List.map_append, LockTable.replay_append, ← h.table]
      rfl
  · rw [Effect.apply_log, decisions_append]
    rcases hm.decides with ⟨-, hd⟩ | ⟨c, l, -, hn, -, hd⟩
    · rw [hd, List.append_nil]
      exact h.oneTable
    · rw [hd, oneTable_concat, ← h.table, ← hn]
      exact ⟨h.oneTable, rfl⟩

theorem LockService.steps {s' : State} {a : Action} (h : LockService s) (hs : Steps s a s') :
    LockService s' := by
  have hS := h.sessions.steps hs
  cases hs with
  | begin n op hidle hsus =>
    have hd : decisions [Event.call n (op.stamp s.clock)] = [] := rfl
    refine ⟨hS, ?_, ?_, fun p => ?_⟩
    · rw [State.begun_node, State.begun_log, decisions_append, hd, List.append_nil]
      exact h.table
    · rw [State.begun_log, decisions_append, hd, List.append_nil]
      exact h.oneTable
    · have hof : decisionsOf p [Event.call n (op.stamp s.clock)] = [] := rfl
      have hans : answers p [Event.call n (op.stamp s.clock)] = [] := rfl
      rw [State.begun_log, decisionsOf_append, answers_append, hof, hans, List.append_nil, List.append_nil,
        h.account p, State.begun_net]
      by_cases hpn : p = n
      · rw [hpn, State.begun_self, hidle, pending_of_offline rfl,
          pending_of_offline (by cases op <;> rfl)]
      · rw [State.begun_ne hpn]
  | accept m c y hc hm hidle =>
    have hmc : m ≠ c := ne_of_idle_connecting hc hidle
    refine ⟨hS, ?_, h.oneTable, fun p => ?_⟩
    · rw [State.accepted_node]
      exact h.table
    · rw [State.accepted_log, h.account p]
      by_cases hpc : p = c
      · subst hpc
        rw [hc, State.accepted_client]
        rfl
      · rw [State.accepted_net_ne hpc]
        by_cases hpm : p = m
        · rw [hpm, State.accepted_server hmc, hidle, pending_of_offline rfl, pending_of_offline rfl]
        · rw [State.accepted_ne hpc hpm]
  | exec n env e _ hm => exact hm.lockService h

theorem Quiet.lockService (h : Quiet s) (hempty : (s.node locknode).locks = LockTable.empty) :
    LockService s := by
  refine ⟨h.sessions, by rw [h.log]; exact hempty, by rw [h.log]; rfl, fun p => ?_⟩
  rw [h.log, h.idle p, pending_of_offline rfl]
  rfl

theorem Moves.locks_ne (h : Moves s n env x e) (hn : n ≠ locknode) : e.self.locks = (s.node n).locks := by
  rcases h.decides with ⟨hl, -⟩ | ⟨c, l, -, hn', -⟩
  · exact hl
  · exact absurd hn' hn

theorem Steps.locks_ne {s' : State} {a : Action} (h : Steps s a s') (hp : p ≠ locknode) :
    (s'.node p).locks = (s.node p).locks := by
  cases h with
  | begin n op hidle hsus =>
    rw [State.begun_node]
    rfl
  | accept m c y hc hm hidle =>
    rw [State.accepted_node]
    rfl
  | exec n env e _ hm =>
    by_cases hpn : p = n
    · subst hpn
      rw [Effect.apply_self]
      exact hm.locks_ne hp
    · rw [Effect.apply_ne hpn]

end

/-- The calls of `setLock` of all nodes are answered as one sequence of requests to one table that is
empty at first: the decisions of the run form that sequence, each is made by the grant rule on the
requests before it, and every node gets the answers to its own requests in their order. A denied
request changes nothing, and a request changes no entry but its own. -/
theorem setLock_atomic {s t : State} {as : List Action} (hs : Quiet s)
    (hempty : (s.node locknode).locks = LockTable.empty) (h : run step s as = some t) :
    (t.node locknode).locks = LockTable.empty.replay ((decisions t.log).map Decision.lock) ∧
    (∀ n, n ≠ locknode → (t.node n).locks = (s.node n).locks) ∧
    OneTable (decisions t.log) ∧
    (∀ n, answers n t.log <+: decisionsOf n t.log ∧
      (decisionsOf n t.log).length ≤ (answers n t.log).length + 1 ∧
      ((t.node n).ctl = .idle → answers n t.log = decisionsOf n t.log)) ∧
    ∀ p d q, decisions t.log = p ++ d :: q → GrantRule p d ∧
      (d.granted = false → LockTable.empty.replay ((p ++ [d]).map Decision.lock) =
        LockTable.empty.replay (p.map Decision.lock)) ∧
      (∀ i, i ≠ d.lock.id → LockTable.empty.replay ((p ++ [d]).map Decision.lock) i =
        LockTable.empty.replay (p.map Decision.lock) i) ∧
      ∀ d' q', q = d' :: q' → d.lock.id ≠ d'.lock.id → OneTable (p ++ [d', d]) ∧
        LockTable.empty.replay ((p ++ [d', d]).map Decision.lock) =
          LockTable.empty.replay ((p ++ [d, d']).map Decision.lock) := by
  have hI : LockService t := run_invariant (I := LockService)
    (fun u a v hu huv => hu.steps (steps_of_step huv)) (hs.lockService hempty) h
  have hlocks : ∀ n, n ≠ locknode → (t.node n).locks = (s.node n).locks := by
    intro n hn
    refine run_invariant (I := fun u => (u.node n).locks = (s.node n).locks) ?_ rfl h
    intro u a v hu huv
    rw [(steps_of_step huv).locks_ne hn, hu]
  refine ⟨hI.table, hlocks, hI.oneTable, fun n => ⟨⟨_, (hI.account n).symm⟩, ?_, ?_⟩, ?_⟩
  · rw [hI.account n, List.length_append]
    cases pending (t.node n).ctl (t.net n) <;> simp
  · intro hidle
    rw [hI.account n, hidle, pending_of_offline rfl]
    simp
  · intro p d q hd
    have hone := hI.oneTable
    rw [hd] at hone
    have hpd : OneTable (p ++ [d]) := by
      rw [List.append_cons] at hone
      exact hone.of_append
    refine ⟨hone.grantRule, hpd.denied, fun i hi => ?_, ?_⟩
    · rw [replay_concat]
      exact LockTable.setLock_other _ _ hi
    · rintro d' q' rfl hne
      have hfirst : OneTable ((p ++ [d, d']) ++ q') := by simpa using hone
      exact hfirst.of_append.swap hne

theorem setLock_atomic_refused : ∃ t,
    run step (.start fun _ _ => none) ([.begin 2000 (.setLock ⟨7, .exclusive⟩), go 2000,
      .begin 4000 (.setLock ⟨7, .sharedlock⟩), go 4000] ++ talk 4000 2000) = some t ∧
    decisions t.log = [⟨2000, ⟨7, .exclusive⟩, true⟩, ⟨4000, ⟨7, .sharedlock⟩, false⟩] ∧
    answers 4000 t.log = [(⟨7, .sharedlock⟩, false)] ∧
    (t.node locknode).locks = LockTable.empty.replay [⟨7, .exclusive⟩, ⟨7, .sharedlock⟩] := by
  have hrun : (run step (.start fun _ _ => none) ([.begin 2000 (.setLock ⟨7, .exclusive⟩), go 2000,
      .begin 4000 (.setLock ⟨7, .sharedlock⟩), go 4000] ++ talk 4000 2000)).map
        (fun t => (decisions t.log, answers 4000 t.log)) =
      some ([⟨2000, ⟨7, .exclusive⟩, true⟩, ⟨4000, ⟨7, .sharedlock⟩, false⟩],
        [(⟨7, .sharedlock⟩, false)]) := by decide
  obtain ⟨t, ht, hlog⟩ := Option.map_eq_some_iff.mp hrun
  obtain ⟨hd, ha⟩ := Prod.mk.inj hlog
  have htable := (setLock_atomic (State.quiet_start _) rfl ht).1
  rw [hd] at htable
  exact ⟨t, ht, hd, ha, htable⟩

end CacheCoherence.Protocol
