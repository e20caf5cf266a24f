import CacheCoherence.Foundation.TransitionRuns
import CacheCoherence.Foundation.WaitChains
import CacheCoherence.Protocol.Sessions

/-! # Nodes that wait for each other

A thread waits in `connectClientSocket` while the other node is not in `accept`, and while it polls
for a reply. All memory is asked for at one node, all locks at another, and only the home of the
memory opens connections to its sharers.
-/
namespace CacheCoherence.Protocol
open TransitionRuns WaitChains

def Ctl.polls : Ctl → Bool
  | .exchange .waiting _ | .exchange .again _ | .closing _ _ => true
  | _ => false

inductive Waits (s : State) (n m : NodeId) : Prop where
  | connecting (e : Exchange) : (s.node n).ctl = .exchange .connecting e → e.target = m →
      (s.node m).ctl ≠ .idle → Waits s n m
  | reply (ch : Channel) : (s.node n).ctl.polls = true → s.net n = some ch → ch.peer = m →
      ch.isOpen = true → ch.down = [] → Waits s n m

def NoCycle (s : State) : Prop := ¬ Cyclic (Waits s)

/-- Node `a` waits for `n`, and not only for the answer to the RESET that `n` is about to send. -/
def StillWaits (s : State) (a n : NodeId) : Prop :=
  Waits s a n ∧ ∀ ch, s.net a = some ch → ch.up ≠ some .reset

/-- The step brings node `n` into `connectClientSocket(m)`. -/
def Enters (s : State) (a : Action) (n m : NodeId) : Prop :=
  ∃ env e t, a = .exec n env ∧ step s a = some t ∧ (t.node n).ctl = .exchange .connecting e ∧ e.target = m

/-- A node that enters `connectClientSocket(m)` is not `m`, and neither does `m` wait for it nor
anybody that `m` waits for. -/
def EntersClear (s : State) (a : Action) : Prop :=
  ∀ n m, Enters s a n m → m ≠ n ∧ ¬ StillWaits s m n ∧ ∀ k, Waits s m k → ¬ StillWaits s k n

def Action.noMalloc : Action → Prop
  | .begin _ (.malloc _) => False
  | _ => True

def Ctl.opened : Ctl → Option Exchange
  | .exchange _ e => some e
  | .closing e _ => some e
  | _ => none

/-- Sharers are recorded at the node 3000 alone, so that it alone opens connections to others than
itself and the lock node. -/
structure HomeShares (s : State) : Prop where
  records : ∀ n ptr b, n ≠ port → (s.node n).mem ptr = some b → b.record.sharerNodes = []
  broadcasts : ∀ n nodes ga b, n ≠ port → (s.node n).ctl = .broadcast nodes ga b → nodes = []
  invalidations : ∀ n c d nodes srcID, (s.node n).ctl = .startInvalidations c d nodes srcID → n = port
  exchanges : ∀ n e, (s.node n).ctl.opened = some e → n = port ∨
    (∀ m rest ga b, e ≠ .invalidate m rest ga b) ∧ (e.target = port ∨ (e.target = locknode ∧ n ≠ locknode))
  noMalloc : ∀ n size, (s.node n).ctl ≠ .malloc size

section
variable {s : State} {n m p : NodeId} {e : Effect} {env : Env} {x : Ctl}

theorem Link.peer {own sv : Ctl} {ch : Channel} {y : Exchange} (h : Link n own ch sv)
    (hy : own.opened = some y) : ch.peer = y.target := by
  cases h <;> cases hy <;> rfl

theorem opened_of_polls (h : x.polls = true) : ∃ y, x.opened = some y := by
  cases x with
  | exchange ph y => exact ⟨y, rfl⟩
  | closing y r => exact ⟨y, rfl⟩
  | _ => cases h

theorem online_of_polls (h : x.polls = true) : x.online = true := by
  cases x with
  | exchange ph y =>
    cases ph with
    | connecting => cases h
    | _ => rfl
  | closing y r => rfl
  | _ => cases h

theorem answers_of_polls (h : x.polls = true) : x.answers = none := by
  cases x with
  | exchange ph y => rfl
  | closing y r => rfl
  | _ => cases h

theorem Waits.target (hS : Sessions s) (h : Waits s n m) :
    ∃ y, (s.node n).ctl.opened = some y ∧ y.target = m := by
  cases h with
  | connecting y hy hm => exact ⟨y, by rw [hy]; rfl, hm⟩
  | reply ch hp hch hpeer =>
    obtain ⟨y, hy⟩ := opened_of_polls hp
    exact ⟨y, hy, ((hS.link n ch hch).2.peer hy).symm.trans hpeer⟩

theorem Waits.functional (hS : Sessions s) {k : NodeId} (h : Waits s n m) (h' : Waits s n k) : m = k := by
  obtain ⟨y, hy, hm⟩ := h.target hS
  obtain ⟨z, hz, hk⟩ := h'.target hS
  obtain rfl : y = z := Option.some.inj (hy.symm.trans hz)
  exact hm.symm.trans hk

theorem HomeShares.hub (hS : Sessions s) (h : HomeShares s) : Hub (Waits s) port locknode := by
  refine ⟨fun a b c => Waits.functional hS, fun a b hab => ?_⟩
  obtain ⟨y, hy, hb⟩ := hab.target hS
  rw [← hb]
  exact (h.exchanges a y hy).imp id And.right

theorem waits_not_idle (h : Waits s n m) : (s.node n).ctl ≠ .idle := by
  intro hidle
  cases h with
  | connecting y hy => rw [hidle] at hy; cases hy
  | reply ch hp => rw [hidle] at hp; cases hp

theorem Moves.reply (h : Moves s n env x e) (hp : x.polls = true) :
    ∃ ch, s.net n = some ch ∧ ch.down ≠ [] := by
  cases h with
  | connect _ z hopen => cases hopen <;> cases hp
  | fetched ga w rest ch cache hch hd => exact ⟨ch, hch, by simp [hd]⟩
  | invalidated d sga rest ch hch hd => exact ⟨ch, hch, by simp [hd]⟩
  | received y r rest ch hch hd => exact ⟨ch, hch, by simp [hd]⟩
  | mallocReturn size sga rest ch hch hd => exact ⟨ch, hch, by simp [hd]⟩
  | suspend d sga rest ch hch hd => exact ⟨ch, hch, by simp [hd]⟩
  | fetchCrash ga w rest ch hch hd => exact ⟨ch, hch, by simp [hd]⟩
  | misread _ r rest ch hch hd => exact ⟨ch, hch, by simp [hd]⟩
  | closed y r rest ch hch hd => exact ⟨ch, hch, by simp [hd]⟩
  | _ => cases hp

theorem Moves.not_waits (h : Moves s n env (s.node n).ctl e) : ¬ Waits s n m := by
  intro hw
  cases hw with
  | connecting y hy =>
    rw [hy] at h
    cases h with
    | connect _ z hopen => cases hopen
    | misread _ _ _ _ _ _ hmis => cases hmis
  | reply ch hp hch hpeer ho hdown =>
    obtain ⟨dh, hdh, hne⟩ := h.reply hp
    obtain rfl : ch = dh := Option.some.inj (hch.symm.trans hdh)
    exact hne hdown

/-- When a thread begins to poll, its server is at work for it and waits for nobody. -/
theorem Moves.server_awake (hS : Sessions s) (hx : (s.node n).ctl = x) (h : Moves s n env x e)
    (hp : e.self.ctl.polls = true) {ch : Channel} (hch : (e.apply s n).net n = some ch)
    (ho : ch.isOpen = true) : (s.node ch.peer).ctl.answers = some n := by
  have hlink : ∀ dh, s.net n = some dh → Link n x dh (s.node dh.peer).ctl := by
    intro dh hdh
    exact hx ▸ (hS.link n dh hdh).2
  have hself : ∀ dh, e.wire = some (n, some dh) → ch = dh := by
    intro dh hw
    rw [Effect.net_wire hw, Function.update_self] at hch
    exact (Option.some.inj hch).symm
  cases h with
  | sendWrite d dh cache hdh ha =>
    obtain ⟨-, hsv⟩ := (hlink dh hdh).of_connected
    rw [hself _ rfl, hsv]
    rfl
  | sendReset d result dh hdh =>
    obtain ⟨-, hsv⟩ := (hlink dh hdh).of_connected
    rw [hself _ rfl, hsv]
    rfl
  | send y dh hdh hnw hnr =>
    obtain ⟨-, hsv⟩ := (hlink dh hdh).of_connected
    rw [hself _ rfl, hsv]
    rfl
  | fetched ga w rest dh cache hdh hd hadd =>
    rcases (hlink dh hdh).of_waiting hd with ⟨-, -, -, -, hsv⟩ | ⟨d, sga, he, -⟩
    · rw [hself _ rfl, hsv]
      rfl
    · cases he
  | invalidated d sga rest dh hdh hd =>
    have hdo : dh.isOpen = true := by
      rw [hself _ rfl] at ho
      exact ho
    rcases (hlink dh hdh).of_waiting hd with ⟨-, -, ha, -⟩ | ⟨d', sga', he, -, hcase⟩
    · cases ha
    · rcases hcase with ⟨-, -, nodes, hsv⟩ | ⟨sga'', rfl, -⟩
      · rw [hself _ rfl, hsv]
        rfl
      · cases hdo
  | received y r rest dh hdh hd hplain hninv =>
    rcases (hlink dh hdh).of_waiting hd with ⟨-, -, -, -, hsv⟩ | ⟨d, sga, he, hr, -⟩
    · rw [hself _ rfl, hsv]
      rfl
    · exact absurd hr (hninv d sga he)
  | lockGrant k locks granted hn hset =>
    have hon := online_of_polls hp
    rw [(settles_lockAnswer _ granted k).offline] at hon
    cases hon
  | closed y r rest dh hdh hd =>
    have hon := online_of_polls hp
    rw [(settles_closed _ y r).offline] at hon
    cases hon
  | swept ga b =>
    have hon := online_of_polls hp
    rw [(settles_swept _ ga b).offline] at hon
    cases hon
  | writeLocal d b => cases hb : b.record.writeInvalidates <;> simp only [hb] at hp <;> cases hp
  | freeLocal ga b => cases hb : b.record.freeInvalidates <;> simp only [hb] at hp <;> cases hp
  | serve c dh r e hdh hpeer hup hs =>
    cases hs with
    | reset =>
      have hon := online_of_polls hp
      rw [(settles_endSession _).offline] at hon
      cases hon
    | free sga b => cases hb : b.record.freeInvalidates <;> simp only [hb] at hp <;> cases hp
    | malloc | read | readCached | write | locks | invalidate =>
      simp only [NodeState.copyRecord_ctl, hx] at hp
      cases hp
    | _ => cases hp
  | _ => cases hp

theorem Moves.still_open (hx : (s.node n).ctl = x) (h : Moves s n env x e) (hp : p ≠ n) {ch : Channel}
    (hch : (e.apply s n).net p = some ch) (ho : ch.isOpen = true) (hd : ch.down = []) :
    ∃ dh, s.net p = some dh ∧ dh.peer = ch.peer ∧ dh.isOpen = true ∧ dh.down = [] ∧
      (x = .serving p → dh.up ≠ some .reset) := by
  rcases Effect.net_cases hch with hold | hw
  · refine ⟨ch, hold, rfl, ho, hd, ?_⟩
    rintro rfl hup
    cases h with
    | connect _ y hopen => cases hopen
    | misread _ _ _ _ _ _ hmis => cases hmis
    | serve _ dh r e hdh hpeer hup' hs =>
      obtain rfl : ch = dh := Option.some.inj (hold.symm.trans hdh)
      obtain rfl : Request.reset = r := Option.some.inj (hup.symm.trans hup')
      cases hs with
      | reset =>
        rw [Effect.net_wire rfl, Function.update_self] at hch
        rw [← Option.some.inj hch] at ho
        cases ho
      | forward _ hf => cases hf
  cases h with
  | serve c dh r e hdh hpeer hup hs =>
    cases hs with
    | forward r hf =>
      cases hw
      refine ⟨dh, hdh, rfl, ho, hd, fun _ => ?_⟩
      rw [hup]
      rintro ⟨⟩
      cases hf
    | free sga b =>
      cases hw
      refine ⟨dh, hdh, rfl, ho, hd, fun _ => ?_⟩
      rw [hup]
      rintro ⟨⟩
    | readNull => cases hw
    | _ =>
      cases hw
      simp [Channel.reply] at hd
  | discardFor ga c srcID dh hdh =>
    cases hw
    simp [Channel.reply] at hd
  | startInvalidations c d nodes srcID dh b hdh hb =>
    cases hw
    simp [Channel.reply] at hd
  | swept ga b => cases b <;> cases hw
  | sendWrite | sendReset | send | fetched | invalidated | received =>
    cases hw
    exact absurd rfl hp
  | _ => cases hw

theorem Moves.awake (h : Moves s n env x e) : x ≠ .idle ∧ x ≠ .crashed := by
  constructor
  · rintro rfl
    cases h with
    | connect _ y hopen => cases hopen
    | misread _ _ _ _ _ _ hmis => cases hmis
  · rintro rfl
    cases h with
    | connect _ y hopen => cases hopen
    | misread _ _ _ _ _ _ hmis => cases hmis

theorem Link.of_reset {own sv : Ctl} {ch : Channel} (h : Link n own ch sv) (hup : ch.up = some .reset) :
    sv = .serving n ∨ sv = .crashed := by
  cases h with
  | asked y hy => exact absurd (Option.some.inj hup) hy
  | closing => exact Or.inl rfl
  | serverDown => exact Or.inr rfl
  | _ => cases hup

theorem Moves.waits_old (hS : Sessions s) (h : Moves s n env (s.node n).ctl e) {a b : NodeId} (ha : a ≠ n)
    (hw : Waits (e.apply s n) a b) : Waits s a b ∧
      (b = n → ∀ ch, s.net a = some ch → ch.up ≠ some .reset) := by
  obtain ⟨hidle, hcrash⟩ := h.awake
  cases hw with
  | connecting y hy hb hne =>
    rw [Effect.apply_ne ha] at hy
    refine ⟨.connecting y hy hb ?_, ?_⟩
    · by_cases hbn : b = n
      · rw [hbn]
        exact hidle
      · rw [Effect.apply_ne hbn] at hne
        exact hne
    · intro _ ch hch
      rw [hS.net_none (by rw [hy]; rfl) (by rw [hy]; simp)] at hch
      cases hch
  | reply ch hp hch hpeer ho hd =>
    rw [Effect.apply_ne ha] at hp
    obtain ⟨dh, hdh, hdpeer, hdo, hdd, hup⟩ := h.still_open rfl ha hch ho hd
    refine ⟨.reply dh hp hdh (hdpeer.trans hpeer) hdo hdd, ?_⟩
    intro hbn ch' hch' hreset
    obtain rfl : dh = ch' := Option.some.inj (hdh.symm.trans hch')
    have hl := (hS.link a dh hdh).2
    rw [hdpeer.trans (hpeer.trans hbn)] at hl
    rcases hl.of_reset hreset with hsv | hsv
    · exact hup hsv hreset
    · exact hcrash hsv

theorem Moves.waits_new (h : Moves s n env (s.node n).ctl e) {y : Exchange}
    (hy : e.self.ctl = .exchange .connecting y) {a b : NodeId} (ha : a ≠ n) (hw : Waits s a b)
    (hup : b = n → ∀ ch, s.net a = some ch → ch.up ≠ some .reset) : Waits (e.apply s n) a b := by
  cases hw with
  | connecting z hz hb hne =>
    refine .connecting z (by rw [Effect.apply_ne ha, hz]) hb ?_
    by_cases hbn : b = n
    · rw [hbn, Effect.apply_self, hy]
      simp
    · rw [Effect.apply_ne hbn]
      exact hne
  | reply ch hp hch hpeer ho hd =>
    have hstay : (e.apply s n).net a = s.net a → Waits (e.apply s n) a b := by
      intro hsame
      exact .reply ch (by rw [Effect.apply_ne ha, hp]) (hsame.trans hch) hpeer ho hd
    by_cases hans : (s.node n).ctl.answers = some a
    · generalize hx : (s.node n).ctl = x at h hans
      cases h with
      | serve c dh r e hdh hdpeer hdup hs =>
        obtain rfl := Option.some.inj hans
        obtain rfl : ch = dh := Option.some.inj (hch.symm.trans hdh)
        cases hs with
        | forward r hf =>
          refine .reply { ch with up := none } (by rw [Effect.apply_ne ha, hp]) ?_ hpeer ho hd
          rw [Effect.net_wire rfl, Function.update_self]
        | reset => exact absurd hdup (hup (hpeer.symm.trans hdpeer) ch hch)
        | free sga b => cases hb : b.record.freeInvalidates <;> simp only [hb] at hy <;> cases hy
        | malloc | read | readCached | write | locks | invalidate =>
          simp only [NodeState.copyRecord_ctl, hx] at hy
          cases hy
        | _ => cases hy
      | discardFor => cases hy
      | startInvalidations => cases hy
      | connect _ z hopen => cases hopen <;> cases hans
      | misread _ _ _ _ _ _ hmis => cases hmis <;> cases hans
      | _ => cases hans
    · exact hstay (h.net_ne ha hans)

/-- A step of another kind closes no cycle: whoever is newly waited for waits for nobody. -/
theorem NoCycle.of_sinks {t : State} (h : NoCycle s)
    (hst : ∀ a b, Waits t a b → Waits s a b ∨ ∀ c, ¬ Waits t b c) : NoCycle t :=
  fun hc => h (cyclic_of_sinks hst hc)

theorem not_waits_of_answers (h : (s.node n).ctl.answers = some p) : ¬ Waits s n m := by
  intro hw
  cases hw with
  | connecting y hy =>
    rw [hy] at h
    cases h
  | reply ch hp =>
    rw [answers_of_polls hp] at h
    cases h

/-- A move closes a cycle exactly if it enters `connectClientSocket` of a node that waits for it, itself
or through one other node. -/
theorem NoCycle.moves (hS : Sessions s) (hH : Hub (Waits (e.apply s n)) port locknode) (h : NoCycle s)
    (hm : Moves s n env (s.node n).ctl e) : NoCycle (e.apply s n) ↔
      ∀ y, e.self.ctl = .exchange .connecting y →
        y.target ≠ n ∧ ¬ StillWaits s y.target n ∧ ∀ k, Waits s y.target k → ¬ StillWaits s k n := by
  have hS' := hS.moves rfl hm
  by_cases hy : ∃ y, e.self.ctl = .exchange .connecting y
  · obtain ⟨y, hy⟩ := hy
    have hall : (∀ z, e.self.ctl = .exchange .connecting z →
        z.target ≠ n ∧ ¬ StillWaits s z.target n ∧ ∀ k, Waits s z.target k → ¬ StillWaits s k n) ↔
        (y.target ≠ n ∧ ¬ StillWaits s y.target n ∧ ∀ k, Waits s y.target k → ¬ StillWaits s k n) := by
      constructor
      · intro hall
        exact hall y hy
      · intro hc z hz
        rw [hy] at hz
        cases hz
        exact hc
    rw [hall]
    by_cases hidle : ((e.apply s n).node y.target).ctl = .idle
    · have hne : y.target ≠ n := by
        intro htn
        rw [htn, Effect.apply_self, hy] at hidle
        cases hidle
      rw [Effect.apply_ne hne] at hidle
      have hnone : ∀ k, ¬ Waits s y.target k := fun k hk => waits_not_idle hk hidle
      refine iff_of_true (h.of_sinks fun a b hab => Or.inl ?_) ⟨hne, fun hw => hnone n hw.1,
        fun k hk => absurd hk (hnone k)⟩
      by_cases ha : a = n
      · exfalso
        subst ha
        cases hab with
        | connecting z hz hb hbn =>
          rw [Effect.apply_self, hy] at hz
          cases hz
          rw [← hb, Effect.apply_ne hne] at hbn
          exact hbn hidle
        | reply ch hp =>
          rw [Effect.apply_self, hy] at hp
          cases hp
      · exact (hm.waits_old hS ha hab).1
    · let V : NodeId → NodeId → Prop := fun a b =>
        Waits s a b ∧ (b = n → ∀ ch, s.net a = some ch → ch.up ≠ some .reset)
      have hVold : ¬ Cyclic V := fun hc => h (cyclic_of_sinks (fun a b hab => Or.inl hab.1) hc)
      have hold : ∀ a b, a ≠ n → (Waits (e.apply s n) a b ↔ V a b) := by
        intro a b ha
        exact ⟨hm.waits_old hS ha, fun hv => hm.waits_new hy ha hv.1 hv.2⟩
      have hedge : Waits (e.apply s n) n y.target := .connecting y (by rw [Effect.apply_self, hy]) rfl hidle
      have hstill : ∀ a, V a n ↔ StillWaits s a n := by
        intro a
        exact ⟨fun hv => ⟨hv.1, hv.2 rfl⟩, fun hv => ⟨hv.1, fun _ => hv.2⟩⟩
      have hvia : (∃ k, V y.target k ∧ V k n) ↔ ∃ k, Waits s y.target k ∧ StillWaits s k n := by
        constructor
        · rintro ⟨k, hk, hkn⟩
          exact ⟨k, hk.1, (hstill k).mp hkn⟩
        · rintro ⟨k, hk, hkn⟩
          refine ⟨k, ⟨hk, ?_⟩, (hstill k).mpr hkn⟩
          rintro rfl
          exact absurd hkn.1 hm.not_waits
      unfold NoCycle
      rw [hH.cyclic_iff hedge hold hVold, hstill, hvia]
      push Not
      rfl
  · refine iff_of_true (h.of_sinks fun a b hab => ?_) fun y hy' => absurd ⟨y, hy'⟩ hy
    by_cases ha : a = n
    · subst ha
      cases hab with
      | connecting z hz =>
        rw [Effect.apply_self] at hz
        exact absurd ⟨z, hz⟩ hy
      | reply ch hp hch hpeer ho hd =>
        right
        intro c
        have hne : b ≠ a := hpeer ▸ (hS'.link a ch hch).1
        rw [Effect.apply_self] at hp
        refine not_waits_of_answers (p := a) ?_
        rw [Effect.apply_ne hne, ← hpeer]
        exact hm.server_awake hS rfl hp hch ho
    · exact Or.inl (hm.waits_old hS ha hab).1

theorem Sessions.serving_port {c : NodeId} {ch : Channel} {r : Request} (hS : Sessions s)
    (hx : (s.node n).ctl = .serving c) (hch : s.net c = some ch) (hpeer : ch.peer = n) (hup : ch.up = some r)
    (hr : ∀ l, r ≠ .locks l) (hr' : ∀ sga, r ≠ .invalidate sga) (hr'' : r ≠ .reset) : n = port := by
  rcases (hS.serving_link hx hch hpeer).of_up hup with ⟨y, hown, rfl, -, rfl⟩ | ⟨y, a, -, hreset, -⟩
  · rw [← hpeer]
    cases y with
    | setLock k => exact absurd rfl (hr _)
    | invalidate m rest ga b => exact absurd rfl (hr' _)
    | reconnect d result => exact absurd rfl hr''
    | forward d q => exact absurd hown (((hS.stuck c).ne_forward (by rw [hown]; rfl) d q).1 _)
    | _ => rfl
  · exact absurd hreset hr''

theorem Forwards.port_or (hS : Sessions s) {c : NodeId} {ch : Channel} {r : Request}
    (hx : (s.node n).ctl = .serving c) (hch : s.net c = some ch) (hpeer : ch.peer = n) (hup : ch.up = some r)
    (hf : Forwards n env r) : n = port := by
  cases hf with
  | locks l hne =>
    rcases (hS.serving_link hx hch hpeer).of_up hup with ⟨y, hown, hy, -, rfl⟩ | ⟨y, a, -, hreset, -⟩
    · cases y with
      | setLock k => exact absurd hpeer.symm hne
      | forward d q => exact absurd hown (((hS.stuck c).ne_forward (by rw [hown]; rfl) d q).1 _)
      | _ => cases hy
    · cases hreset
  | _ => exact hS.serving_port hx hch hpeer hup (by simp) (by simp) (by simp)

theorem Moves.records (hS : Sessions s) (hx : (s.node n).ctl = x) (h : Moves s n env x e) (hn : n ≠ port)
    (hmalloc : ∀ size, x ≠ .malloc size)
    (hrec : ∀ ptr b, (s.node n).mem ptr = some b → b.record.sharerNodes = []) (ptr : UInt64) (b : Block)
    (hb : e.self.mem ptr = some b) : b.record.sharerNodes = [] := by
  have hcopy : ∀ q (d : SaveData Word), d.sharerNodes = [] →
      ((s.node n).copyRecord q d).mem ptr = some b → b.record.sharerNodes = [] := by
    intro q d hd hq
    by_cases hpq : ptr = q
    · subst hpq
      rw [NodeState.copyRecord_mem_self] at hq
      obtain ⟨b', -, rfl⟩ := Option.map_eq_some_iff.mp hq
      exact hd
    · rw [NodeState.copyRecord_mem_ne hpq] at hq
      exact hrec ptr b hq
  have herase : ∀ q, Function.update (s.node n).mem q none ptr = some b → b.record.sharerNodes = [] := by
    intro q hq
    by_cases hpq : ptr = q
    · subst hpq
      rw [Function.update_self] at hq
      cases hq
    · rw [Function.update_of_ne hpq] at hq
      exact hrec ptr b hq
  cases h with
  | lockGrant k locks granted _ hset =>
    rw [NodeState.lockAnswer_fst] at hb
    exact hrec ptr b hb
  | closed y r rest ch hch hd =>
    rw [NodeState.closed_fst] at hb
    exact hrec ptr b hb
  | memcpy d b' hb' => exact hcopy _ _ rfl hb
  | startInvalidations c d nodes srcID ch b' hch hb' => exact hcopy _ _ rfl hb
  | mallocLocal size => exact absurd rfl (hmalloc size)
  | discardOwn ga => exact herase _ hb
  | discardFor ga c srcID ch hch => exact herase _ hb
  | swept ga br =>
    cases br with
    | startInvalidations d srcID =>
      rw [stepBroadcast, NodeState.endSession_mem] at hb
      exact hrec ptr b hb
    | _ => exact hrec ptr b hb
  | serve c ch r e hch hpeer hup hs =>
    cases hs with
    | malloc => exact absurd (hS.serving_port hx hch hpeer hup (by simp) (by simp) (by simp)) hn
    | read => exact absurd (hS.serving_port hx hch hpeer hup (by simp) (by simp) (by simp)) hn
    | write => exact hcopy _ _ rfl hb
    | reset =>
      rw [NodeState.endSession_mem] at hb
      exact hrec ptr b hb
    | _ => exact hrec ptr b hb
  | _ => exact hrec ptr b hb

theorem closed_opened (ns : NodeState) (y : Exchange) (r : Reply) :
    (ns.closed n y r).1.ctl.opened = none := by
  unfold NodeState.closed
  split
  · rename_i k granted
    rcases lockAnswer_ctl (n := n) ns granted k with hc | hc | ⟨a, hc⟩
    all_goals
      simp only [hc]
      rfl
  all_goals rfl

theorem Moves.opened (hS : Sessions s) (hH : HomeShares s) (h : Moves s n env (s.node n).ctl e)
    {y : Exchange} (hy : e.self.ctl.opened = some y) : n = port ∨
      (∀ m rest ga b, y ≠ .invalidate m rest ga b) ∧ (y.target = port ∨ (y.target = locknode ∧ n ≠ locknode)) := by
  have hsession : e.self.ctl = (s.node n).endSession.ctl →
      (∀ m rest ga b, y ≠ .invalidate m rest ga b) ∧ (y.target = port ∨ (y.target = locknode ∧ n ≠ locknode)) := by
    intro hctl
    rcases endSession_ctl (s.node n) with hc | ⟨d, result, hc⟩
    · rw [hctl, hc] at hy
      cases hy
    · rw [hctl, hc] at hy
      cases hy
      exact ⟨by simp, Or.inl rfl⟩
  have hold := hH.exchanges n y
  have hbroad := hH.broadcasts n
  generalize hx : (s.node n).ctl = x at h hold hbroad
  cases h with
  | connect _ z hopen =>
    cases hy
    cases hopen with
    | setLock k hne => exact Or.inr ⟨by simp, Or.inr ⟨rfl, hne⟩⟩
    | invalidate m rest ga b =>
      refine Or.inl (by_contra fun hn => ?_)
      have hnil := hbroad _ ga b hn rfl
      cases hnil
    | _ => exact Or.inr ⟨by simp, Or.inl rfl⟩
  | lockGrant k locks granted hn hset =>
    rcases lockAnswer_ctl (n := n) { s.node n with locks := locks } granted k with hc | hc | ⟨a, hc⟩
    all_goals
      rw [hc] at hy
      cases hy
  | swept ga b =>
    cases b with
    | startInvalidations d srcID => exact Or.inr (hsession rfl)
    | _ => cases hy
  | writeLocal d b => cases hb : b.record.writeInvalidates <;> simp only [hb] at hy <;> cases hy
  | freeLocal ga b => cases hb : b.record.freeInvalidates <;> simp only [hb] at hy <;> cases hy
  | closed z r rest ch hch hd =>
    rw [closed_opened] at hy
    cases hy
  | serve c ch r e hch hpeer hup hs =>
    cases hs with
    | reset => exact Or.inr (hsession rfl)
    | forward r hf => exact Or.inl (hf.port_or hS hx hch hpeer hup)
    | free sga b => cases hb : b.record.freeInvalidates <;> simp only [hb] at hy <;> cases hy
    | malloc | read | readCached | write | locks | invalidate =>
      simp only [NodeState.copyRecord_ctl, hx] at hy
      cases hy
    | _ => cases hy
  | send z ch hch hnw hnr => exact hold hy
  | sendWrite d ch cache hch ha => exact hold hy
  | sendReset d result ch hch => exact hold hy
  | fetched ga w rest ch cache hch hd hadd => exact hold hy
  | invalidated d sga rest ch hch hd => exact hold hy
  | received z r rest ch hch hd => exact hold hy
  | _ => cases hy

theorem Moves.broadcasts (hS : Sessions s) (hH : HomeShares s) (h : Moves s n env (s.node n).ctl e) :
    (∀ nodes ga b, n ≠ port → e.self.ctl = .broadcast nodes ga b → nodes = []) ∧
    (∀ c d nodes srcID, e.self.ctl = .startInvalidations c d nodes srcID → n = port) ∧
    ∀ size, e.self.ctl ≠ .malloc size := by
  have hrec := hH.records n
  have hinv := hH.invalidations n
  have hexch := hH.exchanges n
  have hmal := hH.noMalloc n
  have hsession : e.self.ctl = (s.node n).endSession.ctl →
      (∀ nodes ga b, n ≠ port → e.self.ctl = .broadcast nodes ga b → nodes = []) ∧
      (∀ c d nodes srcID, e.self.ctl = .startInvalidations c d nodes srcID → n = port) ∧
      ∀ size, e.self.ctl ≠ .malloc size := by
    intro hctl
    rcases endSession_ctl (s.node n) with hc | ⟨d, result, hc⟩
    all_goals
      rw [hctl, hc]
      simp
  generalize hx : (s.node n).ctl = x at h hinv hexch hmal
  cases h with
  | writeLocal d b hl hb =>
    cases b.record.writeInvalidates with
    | false => simp
    | true =>
      refine ⟨fun nodes ga br hn hctl => ?_, by simp, by simp⟩
      simp only [if_true, NodeState.goto_ctl, Ctl.broadcast.injEq] at hctl
      rw [← hctl.1]
      exact hrec _ b hn hb
  | freeLocal ga b hl hb =>
    cases b.record.freeInvalidates with
    | false => simp
    | true =>
      refine ⟨fun nodes ga' br hn hctl => ?_, by simp, by simp⟩
      simp only [if_true, NodeState.goto_ctl, Ctl.broadcast.injEq] at hctl
      rw [← hctl.1]
      exact hrec _ b hn hb
  | lockGrant k locks granted hn hset =>
    rcases lockAnswer_ctl (n := n) { s.node n with locks := locks } granted k with hc | hc | ⟨a, hc⟩
    all_goals
      rw [hc]
      simp
  | swept ga b =>
    cases b with
    | startInvalidations d srcID => exact hsession rfl
    | _ => simp [stepBroadcast]
  | closed y r rest ch hch hd =>
    cases y with
    | invalidate m rest' ga b =>
      refine ⟨fun nodes ga' br hn hctl => ?_, by simp [NodeState.closed], by simp [NodeState.closed]⟩
      rcases hexch _ rfl with hp | ⟨hni, -⟩
      · exact absurd hp hn
      · exact absurd rfl (hni m rest' ga b)
    | setLock k =>
      cases r with
      | lock granted =>
        rcases lockAnswer_ctl (n := n) (s.node n) granted k with hc | hc | ⟨a, hc⟩
        all_goals
          simp only [NodeState.closed, hc]
          simp
      | _ => simp [NodeState.closed]
    | _ => cases r <;> simp [NodeState.closed]
  | serve c ch r e hch hpeer hup hs =>
    cases hs with
    | reset => exact hsession rfl
    | writeShared =>
      exact ⟨by simp, fun _ _ _ _ _ => hS.serving_port hx hch hpeer hup (by simp) (by simp) (by simp), by simp⟩
    | free sga b =>
      have hp : n = port := hS.serving_port hx hch hpeer hup (by simp) (by simp) (by simp)
      refine ⟨fun _ _ _ hn _ => absurd hp hn, fun _ _ _ _ _ => hp, ?_⟩
      cases b.record.freeInvalidates <;> simp
    | malloc | read | readCached | write | locks | invalidate => simp [hx]
    | _ => simp [forward]
  | startInvalidations c d nodes srcID ch b hch hb =>
    exact ⟨fun _ _ _ hn _ => absurd (hinv c d nodes srcID rfl) hn, by simp, by simp⟩
  | _ => simp [Protocol.connect]

theorem HomeShares.steps {s' : State} {a : Action} (hS : Sessions s) (h : HomeShares s) (ha : a.noMalloc)
    (hs : Steps s a s') : HomeShares s' := by
  cases hs with
  | begin n op hidle hsus =>
    have hctl : ∀ p, p ≠ n → ((s.begun n (op.stamp s.clock)).node p).ctl = (s.node p).ctl := by
      intro p hp
      rw [State.begun_ne hp]
    refine ⟨fun p ptr b hp hb => ?_, fun p nodes ga b hp hc => ?_, fun p c d nodes srcID hc => ?_,
      fun p y hc => ?_, fun p size hc => ?_⟩
    · rw [State.begun_node] at hb
      exact h.records p ptr b hp hb
    all_goals
      by_cases hpn : p = n
      · subst hpn
        rw [State.begun_self] at hc
        cases op <;> first | exact absurd ha id | cases hc
      · rw [hctl p hpn] at hc
        first
        | exact h.broadcasts p nodes ga b hp hc
        | exact h.invalidations p c d nodes srcID hc
        | exact h.exchanges p y hc
        | exact h.noMalloc p size hc
  | accept m c y hc hm hidle =>
    have hmc := ne_of_idle_connecting hc hidle
    refine ⟨fun p ptr b hp hb => ?_, fun p nodes ga b hp hp' => ?_, fun p d w nodes srcID hp' => ?_,
      fun p z hp' => ?_, fun p size hp' => ?_⟩
    · rw [State.accepted_node] at hb
      exact h.records p ptr b hp hb
    all_goals
      by_cases hpc : p = c
      · subst hpc
        rw [State.accepted_client] at hp'
        first
        | exact h.exchanges p z (by rw [hc]; exact hp')
        | cases hp'
      · by_cases hpm : p = m
        · subst hpm
          rw [State.accepted_server hmc] at hp'
          cases hp'
        · rw [State.accepted_ne hpc hpm] at hp'
          first
          | exact h.broadcasts p nodes ga b hp hp'
          | exact h.invalidations p d w nodes srcID hp'
          | exact h.exchanges p z hp'
          | exact h.noMalloc p size hp'
  | exec n env e _ hm =>
    obtain ⟨hbr, hinv, hmal⟩ := hm.broadcasts hS h
    refine ⟨fun p ptr b hp hb => ?_, fun p nodes ga b hp hc => ?_, fun p c d nodes srcID hc => ?_,
      fun p y hc => ?_, fun p size hc => ?_⟩
    all_goals by_cases hpn : p = n
    · subst hpn
      rw [Effect.apply_self] at hb
      exact hm.records hS rfl hp (h.noMalloc p) (fun q b' => h.records p q b' hp) ptr b hb
    · rw [Effect.apply_ne hpn] at hb
      exact h.records p ptr b hp hb
    · subst hpn
      rw [Effect.apply_self] at hc
      exact hbr nodes ga b hp hc
    · rw [Effect.apply_ne hpn] at hc
      exact h.broadcasts p nodes ga b hp hc
    · subst hpn
      rw [Effect.apply_self] at hc
      exact hinv c d nodes srcID hc
    · rw [Effect.apply_ne hpn] at hc
      exact h.invalidations p c d nodes srcID hc
    · subst hpn
      rw [Effect.apply_self] at hc
      exact hm.opened hS h hc
    · rw [Effect.apply_ne hpn] at hc
      exact h.exchanges p y hc
    · subst hpn
      rw [Effect.apply_self] at hc
      exact hmal size hc
    · rw [Effect.apply_ne hpn] at hc
      exact h.noMalloc p size hc

theorem NoCycle.steps {s' : State} {a : Action} (hS : Sessions s) (hH : HomeShares s) (ha : a.noMalloc)
    (h : NoCycle s) (hstep : step s a = some s') : NoCycle s' ↔ EntersClear s a := by
  have hs := steps_of_step hstep
  have hS' := hS.steps hs
  have hH' := hH.steps hS ha hs
  cases hs with
  | begin n op hidle hsus =>
    refine iff_of_true (h.of_sinks fun a b hab => ?_) (by rintro _ _ ⟨_, _, _, ⟨⟩, _⟩)
    have hstart : ∀ d, ¬ Waits (s.begun n (op.stamp s.clock)) n d := by
      intro d hw
      cases hw with
      | connecting y hy =>
        rw [State.begun_self] at hy
        cases op <;> cases hy
      | reply ch hp =>
        rw [State.begun_self] at hp
        cases op <;> cases hp
    by_cases hbn : b = n
    · exact Or.inr (hbn ▸ hstart)
    · have han : a ≠ n := by
        rintro rfl
        exact hstart b hab
      left
      cases hab with
      | connecting y hy hb hne =>
        rw [State.begun_ne han] at hy
        rw [State.begun_ne hbn] at hne
        exact .connecting y hy hb hne
      | reply ch hp hch hpeer ho hd =>
        rw [State.begun_ne han] at hp
        exact .reply ch hp hch hpeer ho hd
  | accept m c y hc hm hidle =>
    have hmc := ne_of_idle_connecting hc hidle
    refine iff_of_true (h.of_sinks fun a b hab => ?_) (by rintro _ _ ⟨_, _, _, ⟨⟩, _⟩)
    have hserver : ∀ d, ¬ Waits (s.accepted m c y) m d := by
      intro d
      exact not_waits_of_answers (p := c) (by rw [State.accepted_server hmc]; rfl)
    have hclient : ∀ d, ¬ Waits (s.accepted m c y) c d := by
      intro d hw
      cases hw with
      | connecting z hz =>
        rw [State.accepted_client] at hz
        cases hz
      | reply ch hp =>
        rw [State.accepted_client] at hp
        cases hp
    by_cases hbm : b = m
    · exact Or.inr (hbm ▸ hserver)
    · have ham : a ≠ m := by
        rintro rfl
        exact hserver b hab
      have hac : a ≠ c := by
        rintro rfl
        exact hclient b hab
      left
      cases hab with
      | connecting z hz hb hne =>
        rw [State.accepted_ne hac ham] at hz
        refine .connecting z hz hb ?_
        by_cases hbc : b = c
        · rw [hbc, hc]
          simp
        · rw [State.accepted_ne hbc hbm] at hne
          exact hne
      | reply ch hp hch hpeer ho hd =>
        rw [State.accepted_ne hac ham] at hp
        rw [State.accepted_net_ne hac] at hch
        exact .reply ch hp hch hpeer ho hd
  | exec n env e _ hm =>
    rw [h.moves hS (hH'.hub hS') hm]
    constructor
    · rintro hall n' m ⟨env', y, t, heq, ht, hy, rfl⟩
      cases heq
      obtain rfl := Option.some.inj (hstep.symm.trans ht)
      rw [Effect.apply_self] at hy
      exact hall y hy
    · intro hC y hy
      exact hC n y.target ⟨env, y, _, rfl, hstep, by rw [Effect.apply_self, hy], rfl⟩

end

/-- In a run of reads, writes, `Free` and `setLock` no state has a cycle of waiting nodes, if and only if
no node of the run enters `connectClientSocket` of a node that waits for it, itself or through one more
node. -/
theorem noCycle_iff {s : State} (hs : Quiet s)
    (hrec : ∀ n ptr b, n ≠ port → (s.node n).mem ptr = some b → b.record.sharerNodes = [])
    {as : List Action} (ha : ∀ a ∈ as, a.noMalloc) :
    Always step NoCycle s as ↔ Meets step EntersClear s as := by
  have hH : HomeShares s := by
    refine ⟨hrec, ?_, ?_, ?_, ?_⟩
    all_goals
      intro n
      rw [hs.idle n]
    · rintro _ _ _ _ ⟨⟩
    · rintro _ _ _ _ ⟨⟩
    · rintro _ ⟨⟩
    · rintro _ ⟨⟩
  have hP : NoCycle s := by
    rintro ⟨n, hn⟩
    obtain ⟨m, hm, -⟩ := Relation.TransGen.head'_iff.mp hn
    exact waits_not_idle hm (hs.idle n)
  exact always_iff_meets_of (p := Action.noMalloc) (J := fun u => Sessions u ∧ HomeShares u)
    (fun u a v ha hJ _ huv _ => ⟨hJ.1.steps (steps_of_step huv), hJ.2.steps hJ.1 ha (steps_of_step huv)⟩)
    (fun u a v ha hJ hu huv => hu.steps hJ.1 hJ.2 ha huv) ha ⟨hs.sessions, hH⟩ hP

/-- The node 2000 reads a block of 3000 and frees it. -/
def sharerFrees : List Action :=
  [.begin 2000 (.read ⟨8, 4096, 3000⟩), go 2000, go 2000] ++ talk 2000 3000 ++
  [go 2000, .begin 2000 (.free ⟨8, 4096, 3000⟩), go 2000, .accept 3000 2000, go 2000, go 3000, go 3000]

theorem run_sharerFrees : ∃ t, run step (.start homeBlock) sharerFrees = some t ∧
    (t.node 2000).ctl = .exchange .waiting (.free ⟨8, 4096, 3000⟩) ∧
    (t.node 3000).ctl = .exchange .connecting (.invalidate 2000 [] ⟨8, 4096, 3000⟩ (.handleFree 2000 2000)) ∧
    t.net 2000 = some ⟨3000, none, [], true⟩ := by
  have hrun : (run step (.start homeBlock) sharerFrees).map
      (fun t => ((t.node 2000).ctl, (t.node 3000).ctl, t.net 2000)) =
      some (.exchange .waiting (.free ⟨8, 4096, 3000⟩),
        .exchange .connecting (.invalidate 2000 [] ⟨8, 4096, 3000⟩ (.handleFree 2000 2000)),
        some ⟨3000, none, [], true⟩) := by decide
  obtain ⟨t, ht, hall⟩ := Option.map_eq_some_iff.mp hrun
  obtain ⟨hc, hrest⟩ := Prod.mk.inj hall
  obtain ⟨hh, hn⟩ := Prod.mk.inj hrest
  exact ⟨t, ht, hc, hh, hn⟩

theorem waits_sharerFrees {s : State} (hc : (s.node 2000).ctl = .exchange .waiting (.free ⟨8, 4096, 3000⟩))
    (hh : (s.node 3000).ctl =
      .exchange .connecting (.invalidate 2000 [] ⟨8, 4096, 3000⟩ (.handleFree 2000 2000)))
    (hn : s.net 2000 = some ⟨3000, none, [], true⟩) : Waits s 2000 3000 ∧ Waits s 3000 2000 :=
  ⟨.reply _ (by rw [hc]; rfl) hn rfl rfl rfl, .connecting _ hh rfl (by rw [hc]; simp)⟩

/-- The node 2000 waits for the reply to its FREE, and 3000 for 2000 to accept the INVALIDATE. -/
theorem sharer_free_deadlock : ∃ t, run step (.start homeBlock) sharerFrees = some t ∧
    Waits t 2000 3000 ∧ Waits t 3000 2000 ∧ ¬ NoCycle t := by
  obtain ⟨t, ht, hc, hh, hn⟩ := run_sharerFrees
  obtain ⟨h1, h2⟩ := waits_sharerFrees hc hh hn
  exact ⟨t, ht, h1, h2, fun h => h (cyclic_pair h1 h2)⟩

theorem noCycle_iff_sharerFrees : ¬ Meets step EntersClear (.start homeBlock) sharerFrees := by
  intro hC
  obtain ⟨t, ht, hc, hh, hn⟩ := run_sharerFrees
  obtain ⟨h1, h2⟩ := waits_sharerFrees hc hh hn
  have hrec : ∀ n ptr b, n ≠ port → ((State.start homeBlock).node n).mem ptr = some b →
      b.record.sharerNodes = [] := by
    intro n ptr b hn hb
    simp [State.start, homeBlock, show n ≠ 3000 from hn] at hb
  have has : ∀ a ∈ sharerFrees, a.noMalloc := by simp [sharerFrees, talk, go, Action.noMalloc]
  have hA := (noCycle_iff (State.quiet_start homeBlock) hrec has).mpr hC
  exact always_iff_passed.mp hA _ t (List.prefix_refl _) ht (cyclic_pair h1 h2)

end CacheCoherence.Protocol
