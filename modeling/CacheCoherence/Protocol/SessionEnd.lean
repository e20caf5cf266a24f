import CacheCoherence.Foundation.TransitionRuns
import CacheCoherence.Protocol.Sessions

/-! # The end of a connection

A server leaves `connectAndReceive` on RESET, or when it closes the connection itself in
`startInvalidations`. A client that closes its socket otherwise leaves its server in `receive`.
-/
namespace CacheCoherence.Protocol
open TransitionRuns

/-- A node whose call has returned has no connection, and no server stays with it. Every server in a
session has an open connection to its client. -/
structure Released (s : State) : Prop where
  ended : ∀ n, (s.node n).ctl = .idle → (s.node n).suspended = [] →
    s.net n = none ∧ ∀ m, (s.node m).ctl.client ≠ some n
  attended : ∀ m c, (s.node m).ctl.client = some c →
    ∃ ch, s.net c = some ch ∧ ch.peer = m ∧ ch.isOpen = true

/-- The step is the return of a `Malloc` that had to ask another node. -/
def ReturnsMalloc (s : State) (a : Action) : Prop :=
  ∃ n env size ch, a = .exec n env ∧ (s.node n).ctl = .exchange .waiting (.malloc size) ∧
    s.net n = some ch ∧ ch.down ≠ []

section
variable {s : State} {n : NodeId} {e : Effect} {env : Env} {x : Ctl}

theorem Released.of_serving (hS : Sessions s)
    (h : ∀ m c, (s.node m).ctl = .serving c → ∃ ch, s.net c = some ch ∧ ch.peer = m ∧ ch.isOpen = true) :
    Released s := by
  have hatt : ∀ m c, (s.node m).ctl.client = some c →
      ∃ ch, s.net c = some ch ∧ ch.peer = m ∧ ch.isOpen = true := by
    intro m c hc
    rcases hS.busy m c hc with hs | hch
    · exact h m c hs
    · exact hch
  refine ⟨fun n hidle _ => ?_, hatt⟩
  have hnone : s.net n = none := hS.net_none (by rw [hidle]; rfl) (by rw [hidle]; simp)
  refine ⟨hnone, fun m hm => ?_⟩
  obtain ⟨ch, hch, -⟩ := hatt m n hm
  rw [hnone] at hch
  cases hch

/-- An open connection stays open in a move, unless its server ends the session with this move or its
client returns from a remote `Malloc`. -/
theorem Moves.keeps_open (hS : Sessions s) (hx : (s.node n).ctl = x) (h : Moves s n env x e) {c : NodeId}
    {ch : Channel} (hch : s.net c = some ch) (ho : ch.isOpen = true)
    (hm : ¬ ReturnsMalloc s (.exec n env)) :
    (∃ ch', (e.apply s n).net c = some ch' ∧ ch'.peer = ch.peer ∧ ch'.isOpen = true) ∨
    n = ch.peer ∧ e.self.ctl.client ≠ some c := by
  have hlink : ∀ dh, s.net n = some dh → Link n x dh (s.node dh.peer).ctl := by
    intro dh hdh
    exact hx ▸ (hS.link n dh hdh).2
  have hother : ∀ w dh, e.wire = some (w, dh) → c ≠ w → (e.apply s n).net c = some ch := by
    intro w dh hw hc
    rw [Effect.net_wire hw, Function.update_of_ne hc, hch]
  have hkept : ∀ w dh dh', e.wire = some (w, some dh') → s.net w = some dh → dh'.peer = dh.peer →
      dh'.isOpen = dh.isOpen →
      ∃ ch', (e.apply s n).net c = some ch' ∧ ch'.peer = ch.peer ∧ ch'.isOpen = true := by
    intro w dh dh' hw hdh hp hop
    by_cases hc : c = w
    · subst hc
      obtain rfl : ch = dh := Option.some.inj (hch.symm.trans hdh)
      exact ⟨dh', by rw [Effect.net_wire hw, Function.update_self], hp, hop.trans ho⟩
    · exact ⟨ch, hother w _ hw hc, rfl, ho⟩
  have hlocal : e.wire = none →
      ∃ ch', (e.apply s n).net c = some ch' ∧ ch'.peer = ch.peer ∧ ch'.isOpen = true := by
    intro hw
    exact ⟨ch, by rw [Effect.net_local hw, hch], rfl, ho⟩
  cases h with
  | discardFor ga d srcID dh hdh => exact Or.inl (hkept d dh _ rfl hdh rfl rfl)
  | sendWrite d dh cache hdh ha => exact Or.inl (hkept n dh _ rfl hdh rfl rfl)
  | sendReset d result dh hdh => exact Or.inl (hkept n dh _ rfl hdh rfl rfl)
  | send y dh hdh => exact Or.inl (hkept n dh _ rfl hdh rfl rfl)
  | fetched ga w rest dh cache hdh => exact Or.inl (hkept n dh _ rfl hdh rfl rfl)
  | invalidated d sga rest dh hdh => exact Or.inl (hkept n dh _ rfl hdh rfl rfl)
  | received y r rest dh hdh => exact Or.inl (hkept n dh _ rfl hdh rfl rfl)
  | mallocReturn size sga rest dh hdh hd =>
    exact absurd ⟨n, env, size, dh, rfl, hx, hdh, by simp [hd]⟩ hm
  | suspend d sga rest dh hdh hd =>
    obtain ⟨-, -, -, -, -, rfl⟩ := (hlink dh hdh).of_again hd
    refine Or.inl ⟨ch, hother n none rfl ?_, rfl, ho⟩
    rintro rfl
    rw [hch] at hdh
    cases hdh
    cases ho
  | closed y r rest dh hdh hd =>
    obtain ⟨rfl, -⟩ := (hlink dh hdh).of_closing hd
    refine Or.inl ⟨ch, hother n none rfl ?_, rfl, ho⟩
    rintro rfl
    rw [hch] at hdh
    cases hdh
    cases ho
  | startInvalidations d w nodes srcID dh b hdh hb =>
    by_cases hc : c = d
    · subst hc
      obtain ⟨ch', hch', hpeer, -⟩ := hS.client_link hx rfl (by simp)
      obtain rfl : ch = ch' := Option.some.inj (hch.symm.trans hch')
      exact Or.inr ⟨hpeer.symm, by simp [Ctl.client, Ctl.handles, Broadcaster.handles]⟩
    · exact Or.inl ⟨ch, hother d _ rfl hc, rfl, ho⟩
  | serve d dh r e hdh hpeer hup hs =>
    cases hs with
    | reset =>
      by_cases hc : c = d
      · subst hc
        obtain rfl : ch = dh := Option.some.inj (hch.symm.trans hdh)
        refine Or.inr ⟨hpeer.symm, ?_⟩
        rcases endSession_ctl (s.node n) with hctl | ⟨d', result, hctl⟩ <;>
          simp [hctl, Ctl.client, Ctl.handles, Exchange.handles]
      · exact Or.inl ⟨ch, hother d _ rfl hc, rfl, ho⟩
    | readNull => exact Or.inl (hlocal rfl)
    | _ => exact Or.inl (hkept d dh _ rfl hdh rfl rfl)
  | swept ga b => exact Or.inl (hlocal (by cases b <;> rfl))
  | _ => exact Or.inl (hlocal rfl)

theorem Moves.serving (h : Moves s n env x e) (hx : (s.node n).ctl = x) {c : NodeId}
    (hc : e.self.ctl = .serving c) : x.answers = some c := by
  cases h with
  | lockGrant k locks granted hn hset =>
    rcases lockAnswer_ctl (n := n) ({ s.node n with locks := locks }) granted k with h | h | ⟨a, h⟩
    all_goals
      rw [h] at hc
      cases hc
  | closed y r rest dh hdh hd =>
    rcases settles_closed (n := n) (s.node n) y r with h | ⟨hdet, -⟩
    · rw [h] at hc
      cases hc
    · rw [hc] at hdet
      cases hdet
  | swept ga b =>
    rcases settles_swept (s.node n) ga b with h | ⟨hdet, -⟩
    · rw [h] at hc
      cases hc
    · rw [hc] at hdet
      cases hdet
  | writeLocal d b => cases hb : b.record.writeInvalidates <;> simp [hb] at hc
  | freeLocal ga b => cases hb : b.record.freeInvalidates <;> simp [hb] at hc
  | discardFor ga d srcID ch hch =>
    cases hc
    rfl
  | serve d ch r e hch hpeer hup hs =>
    cases hs with
    | reset =>
      rcases endSession_ctl (s.node n) with h | ⟨w, result, h⟩
      all_goals
        rw [h] at hc
        cases hc
    | free sga b => cases hb : b.record.freeInvalidates <;> simp [hb] at hc
    | malloc | read | readCached | write | locks | invalidate =>
      simp only [NodeState.copyRecord_ctl, hx, Ctl.serving.injEq] at hc
      rw [hc]
      rfl
    | _ => cases hc
  | _ => cases hc

theorem Released.exec (hS : Sessions s) (h : Released s) (hm : Moves s n env (s.node n).ctl e) :
    Released (e.apply s n) ↔ ¬ ReturnsMalloc s (.exec n env) := by
  have hS' := hS.moves rfl hm
  constructor
  · rintro h' ⟨m, env', size, ch, ha, hctl, hch, hd⟩
    cases ha
    obtain ⟨r, rest, hd⟩ := List.exists_cons_of_ne_nil hd
    have hl := (hS.link n ch hch).2
    rw [hctl] at hl hm
    rcases hl.of_waiting hd with ⟨rfl, rfl, ha, -, hsv⟩ | ⟨d, sga, he, -⟩
    · cases hm with
      | mallocReturn size sga rest dh hdh hd =>
        have hne := (hS.link n _ hch).1
        obtain ⟨ch', hch', -⟩ := h'.attended _ n (by rw [Effect.apply_ne hne, hsv]; rfl)
        rw [Effect.net_wire rfl, Function.update_self] at hch'
        cases hch'
      | misread _ r rest dh hdh hd' hmis =>
        rw [hch] at hdh
        cases hdh
        cases hd'
        cases hmis with
        | malloc _ _ hne =>
          cases r with
          | address sga => exact hne sga rfl
          | _ => cases ha
      | received _ _ _ _ _ _ hplain => cases hplain
      | connect _ _ hopen => cases hopen
    · cases he
  · intro hret
    refine Released.of_serving hS' fun m c hc => ?_
    have hatt : ∃ ch, s.net c = some ch ∧ ch.peer = m ∧ ch.isOpen = true := by
      by_cases hmn : m = n
      · subst hmn
        rw [Effect.apply_self] at hc
        have hans := hm.serving rfl hc
        refine h.attended m c ?_
        revert hans
        cases (s.node m).ctl with
        | discard ga client =>
          cases client with
          | none => intro hans; cases hans
          | some p => intro hans; exact hans
        | serving d => intro hans; exact hans
        | startInvalidations d w nodes srcID => intro hans; exact hans
        | _ => intro hans; cases hans
      · rw [Effect.apply_ne hmn] at hc
        exact h.attended m c (by rw [hc]; rfl)
    obtain ⟨ch, hch, hpeer, ho⟩ := hatt
    rcases hm.keeps_open hS rfl hch ho hret with ⟨ch', hch', hpeer', ho'⟩ | ⟨hn, hne⟩
    · exact ⟨ch', hch', hpeer'.trans hpeer, ho'⟩
    · obtain rfl : n = m := hn.trans hpeer
      rw [Effect.apply_self] at hc
      exact absurd (by rw [hc]; rfl) hne

theorem Released.steps {s' : State} {a : Action} (hS : Sessions s) (h : Released s) (hs : Steps s a s') :
    Released s' ↔ ¬ ReturnsMalloc s a := by
  have hS' := hS.steps hs
  cases hs with
  | begin n op hidle hsus =>
    refine iff_of_true (Released.of_serving hS' fun m c hm => ?_) (by rintro ⟨_, _, _, _, ⟨⟩, _⟩)
    by_cases hmn : m = n
    · subst hmn
      rw [State.begun_self] at hm
      cases op <;> cases hm
    · rw [State.begun_ne hmn] at hm
      exact h.attended m c (by rw [hm]; rfl)
  | accept m c y hc hm hidle =>
    refine iff_of_true (Released.of_serving hS' fun p d hp => ?_) (by rintro ⟨_, _, _, _, ⟨⟩, _⟩)
    have hmc := ne_of_idle_connecting hc hidle
    by_cases hpc : p = c
    · subst hpc
      rw [State.accepted_client] at hp
      cases hp
    · by_cases hpm : p = m
      · subst hpm
        rw [State.accepted_server hmc] at hp
        cases hp
        exact ⟨_, State.accepted_net_client, rfl, rfl⟩
      · rw [State.accepted_ne hpc hpm] at hp
        obtain ⟨ch, hch, hpeer, ho⟩ := h.attended p d (by rw [hp]; rfl)
        have hdc : d ≠ c := by
          rintro rfl
          rw [hS.net_none (by rw [hc]; rfl) (by rw [hc]; simp)] at hch
          cases hch
        exact ⟨ch, (State.accepted_net_ne hdc).trans hch, hpeer, ho⟩
  | exec n env e _ hm => exact h.exec hS hm

end

/-- In every state of a run the connections of all returned calls are ended at both ends, if and only
if in that run no `Malloc` returns from its remote branch. -/
theorem released_iff {s : State} (hs : Quiet s) (as : List Action) :
    Always step Released s as ↔ Meets step (fun u a => ¬ ReturnsMalloc u a) s as := by
  have hR : Released s := by
    refine Released.of_serving hs.sessions fun m c hm => ?_
    rw [hs.idle m] at hm
    cases hm
  exact always_iff_meets (J := Sessions) (fun u a v hS _ huv _ => hS.steps (steps_of_step huv))
    (fun u a v hS hu huv => hu.steps hS (steps_of_step huv)) hs.sessions hR

/-- The node 2000 is out of memory and gets a block from 3000. -/
def mallocRemote : List Action :=
  [.begin 2000 (.malloc 8), go 2000, .accept 3000 2000, go 2000,
    .exec 3000 ⟨0, some (4096, .written 0 0)⟩, go 2000]

theorem run_mallocRemote : ∃ t, run step (.start fun _ _ => none) mallocRemote = some t ∧
    (t.node 2000).ctl = .idle ∧ (t.node 3000).ctl = .serving 2000 ∧
    t.log.getLast? = some (.ret 2000 (.malloc ⟨8, 4096, 3000⟩)) ∧
    ((t.node 2000).suspended = [] ∧ t.net 2000 = none) := by
  have hrun : (run step (.start fun _ _ => none) mallocRemote).map (fun t => ((t.node 2000).ctl,
      (t.node 3000).ctl, t.log.getLast?, decide ((t.node 2000).suspended = [] ∧ t.net 2000 = none))) =
      some (.idle, .serving 2000, some (.ret 2000 (.malloc ⟨8, 4096, 3000⟩)), true) := by decide
  obtain ⟨t, ht, hall⟩ := Option.map_eq_some_iff.mp hrun
  simp only [Prod.mk.injEq, decide_eq_true_eq] at hall
  exact ⟨t, ht, hall⟩

theorem not_released {s : State} {m c : NodeId} (hidle : (s.node c).ctl = .idle)
    (hsus : (s.node c).suspended = []) (hm : (s.node m).ctl = .serving c) : ¬ Released s := by
  intro h
  exact (h.ended c hidle hsus).2 m (by rw [hm]; rfl)

/-- `Malloc` has returned at 2000, and 3000 is left in `receive` on the closed connection. -/
theorem malloc_leaves_server : ∃ t, run step (.start fun _ _ => none) mallocRemote = some t ∧
    t.log.getLast? = some (.ret 2000 (.malloc ⟨8, 4096, 3000⟩)) ∧ t.net 2000 = none ∧
    (t.node 3000).ctl = .serving 2000 ∧ ¬ Released t := by
  obtain ⟨t, ht, hidle, hsv, hlast, hsus, hnet⟩ := run_mallocRemote
  exact ⟨t, ht, hlast, hnet, hsv, not_released hidle hsus hsv⟩

theorem released_iff_mallocRemote :
    ¬ Meets step (fun u a => ¬ ReturnsMalloc u a) (.start fun _ _ => none) mallocRemote := by
  intro hC
  obtain ⟨t, ht, hidle, hsv, -, hsus, -⟩ := run_mallocRemote
  have hA := (released_iff (State.quiet_start _) mallocRemote).mpr hC
  exact not_released hidle hsus hsv (always_iff_passed.mp hA _ t (List.prefix_refl _) ht)

end CacheCoherence.Protocol
