import CacheCoherence.Coherence.Copies

/-! # Replies to READ requests

From the moment home has registered a reader until the reader has inserted the reply, home does nothing
else. Home itself caches nothing, since it would have to connect to itself.
-/
namespace CacheCoherence.Protocol

/-- The reply to a READ of `n` has arrived, and `n` has not taken it. -/
def Arriving (s : State) (n : NodeId) (ga : GlobalAddress) (w : Word) : Prop :=
  (s.node n).ctl = .exchange .waiting (.performRead ga) ∧
    ∃ ch rest, s.net n = some ch ∧ ch.down = .data w :: rest

/-- The node that all memory requests go to has no items in its cache. -/
def HomeUncached (s : State) : Prop := ∀ k ga v, ¬ (s.node port).cache.Stores k ga v

section
variable {s t : State} {n p : NodeId} {e : Effect} {env : Env} {x : Ctl} {k : UInt64} {ga : GlobalAddress}
variable {v : Copy} {w : Word}

theorem Arriving.serving (hS : Sessions s) (h : Arriving s n ga w) : (s.node port).ctl = .serving n ∧ port ≠ n ∧
    s.net n = some ⟨port, none, [.data w], true⟩ := by
  obtain ⟨hctl, ch, rest, hch, hd⟩ := h
  obtain ⟨hne, hl⟩ := hS.link n ch hch
  rw [hctl] at hl
  rcases hl.of_waiting hd with ⟨rfl, -, -, -, hsv⟩ | ⟨d, sga, heq, -⟩
  · exact ⟨hsv, hne, hch⟩
  · cases heq

theorem Arriving.home_waits (hS : Sessions s) (h : Arriving s n ga w) : ¬ Moves s port env (s.node port).ctl e := by
  obtain ⟨hsv, -, hch⟩ := h.serving hS
  intro hm
  rw [hsv] at hm
  cases hm with
  | serve _ dh r e hdh hpeer hup hs =>
    rw [hch] at hdh
    cases hdh
    cases hup
  | connect _ y hopen => cases hopen
  | misread _ _ _ _ _ _ hmis => cases hmis

theorem Moves.asks (hS : Sessions s) (hx : (s.node n).ctl = x) (h : Moves s n env x e) {y : Exchange}
    (hctl : e.self.ctl = .exchange .waiting y) {ch : Channel} (hch : (e.apply s n).net n = some ch) : ch.down = [] := by
  cases h with
  | lockGrant k locks granted hn hset =>
    rcases lockAnswer_ctl (n := n) { s.node n with locks := locks } granted k with hc | hc | ⟨a, hc⟩
    all_goals
      rw [hc] at hctl
      cases hctl
  | writeLocal d b => cases hb : b.record.writeInvalidates <;> simp [hb] at hctl
  | freeLocal ga b => cases hb : b.record.freeInvalidates <;> simp [hb] at hctl
  | swept ga b =>
    cases b with
    | startInvalidations d srcID =>
      rcases endSession_ctl (s.node n) with hc | ⟨d', result, hc⟩
      all_goals
        rw [stepBroadcast, hc] at hctl
        cases hctl
    | _ => cases hctl
  | sendWrite d dh cache hdh | send z dh hdh =>
    have hl := (hS.link n dh hdh).2
    rw [hx] at hl
    obtain ⟨rfl, -⟩ := hl.of_connected
    rw [Effect.net_wire rfl, Function.update_self] at hch
    cases hch
    rfl
  | closed z r rest dh hdh hdown =>
    rcases settles_closed (n := n) (s.node n) z r with hc | ⟨-, -, hoff, -⟩
    · rw [hc] at hctl
      cases hctl
    · rw [hctl] at hoff
      cases hoff
  | serve c dh r e hdh hpeer hup hs =>
    cases hs with
    | reset =>
      rcases endSession_ctl (s.node n) with hc | ⟨d', result, hc⟩
      all_goals
        rw [hc] at hctl
        cases hctl
    | free sga b => cases hb : b.record.freeInvalidates <;> simp [hb] at hctl
    | malloc | read | readCached | write | locks | invalidate =>
      simp only [NodeState.copyRecord_ctl, hx] at hctl
      cases hctl
    | _ => cases hctl
  | _ => cases hctl

theorem Moves.replied (hS : Sessions s) (hx : (s.node p).ctl = x) (h : Moves s p env x e) {y : Exchange} {ch : Channel}
    (hctl : ((e.apply s p).node n).ctl = .exchange .waiting y) (hch : (e.apply s p).net n = some ch)
    (hdown : ch.down ≠ []) : (s.node n).ctl = .exchange .waiting y ∧ (s.net n = some ch ∨
      (∃ d, y = .performWrite d) ∨
      (∃ ga srcID, y.request n = .free (ga.sendable srcID) ∧ .freed ga ∈ e.events) ∨
      y.target = p ∧ e.wire = some (n, some ch) ∧
        Serves p (s.node p) env n ⟨p, some (y.request n), [], true⟩ s.clock (y.request n) e) := by
  have hnp : n ≠ p := by
    rintro rfl
    rw [Effect.apply_self] at hctl
    exact hdown (h.asks hS hx hctl hch)
  rw [Effect.apply_ne hnp] at hctl
  refine ⟨hctl, ?_⟩
  by_cases hans : x.answers = some n
  · rcases Effect.net_cases hch with hold | hwire
    · exact Or.inl hold
    · right
      cases h with
      | discardFor ga c srcID dh hdh =>
        obtain rfl : c = n := Option.some.inj hans
        obtain ⟨dh', hdh', -, ho, hl⟩ := hS.client_link hx rfl (by simp)
        obtain ⟨y', hown, hreq, -⟩ := hl.of_handles ho rfl
        rw [hctl] at hown
        cases hown
        exact Or.inr (Or.inl ⟨ga, srcID, hreq.symm, List.mem_cons_self⟩)
      | startInvalidations c d nodes srcID dh b hdh hb =>
        obtain rfl : c = n := Option.some.inj hans
        obtain ⟨dh', hdh', -, ho, hl⟩ := hS.client_link hx rfl (by simp)
        obtain ⟨-, ⟨sga, hown, -⟩ | ⟨hown, -⟩⟩ := hl.of_startInvalidations ho
        all_goals
          rw [hctl] at hown
          cases hown
        exact Or.inl ⟨d, rfl⟩
      | serve c dh r e hdh hpeer hup hs =>
        obtain rfl : c = n := Option.some.inj hans
        rcases (hS.serving_link hx hdh hpeer).of_up hup with ⟨y', hown, rfl, -, rfl⟩ | ⟨y', a, hown, -⟩
        · rw [hctl] at hown
          cases hown
          obtain rfl : y.target = p := hpeer
          exact Or.inr (Or.inr ⟨rfl, hwire, hs⟩)
        · rw [hctl] at hown
          cases hown
      | misread _ _ _ _ _ _ hmis => cases hmis <;> cases hans
      | connect _ y hopen => cases hopen <;> cases hans
      | _ => cases hans
  · exact Or.inl (by rw [← h.net_ne hnp hans, hch])

theorem Moves.arriving (hS : Sessions s) (hU : HomeUncached s) (hx : (s.node p).ctl = x) (h : Moves s p env x e)
    (ha : Arriving (e.apply s p) n ga w) : Arriving s n ga w ∨
    p = port ∧ ga.id = port ∧ ∃ b, (s.node port).mem ga.ptr = some b ∧ b.record.data = w ∧
      e.self = (s.node p).copyRecord ga.ptr (b.record.register n) := by
  obtain ⟨hctl, ch, rest, hch, hd⟩ := ha
  obtain ⟨hctl, hold | ⟨d, hy⟩ | ⟨ga', srcID, hreq, -⟩ | ⟨rfl, hwire, hs⟩⟩ :=
    h.replied hS hx hctl hch (by simp [hd])
  · exact Or.inl ⟨hctl, ch, rest, hold, hd⟩
  · cases hy
  · cases hreq
  · cases hs with
    | read sga b hl hb hr =>
      cases hwire
      cases hd
      exact Or.inr ⟨rfl, hl, b, hb, rfl, rfl⟩
    | readNull sga b hl hb hr => cases hwire
    | readCached sga it hne hit => exact absurd (Cache.stores_of_hit hit) (hU _ _ _)
    | forward _ hf =>
      cases hwire
      cases hd

/-- A reply that has arrived after a step had arrived before and home's memory is as it was, or home has just
registered its reader. -/
theorem Steps.arriving {a : Action} (hS : Sessions s) (hU : HomeUncached s) (hs : Steps s a t)
    (ha : Arriving t n ga w) : Arriving s n ga w ∧ (t.node port).mem = (s.node port).mem ∨
    ga.id = port ∧ ∃ b, (s.node port).mem ga.ptr = some b ∧ b.record.data = w ∧
      (t.node port).mem = ((s.node port).copyRecord ga.ptr (b.record.register n)).mem := by
  cases hs with
  | begin p op hidle hsus =>
    left
    refine ⟨?_, by rw [State.begun_node]; rfl⟩
    obtain ⟨hctl, hch⟩ := ha
    by_cases hnp : n = p
    · subst hnp
      rw [State.begun_self] at hctl
      cases op <;> cases hctl
    · rw [State.begun_ne hnp] at hctl
      exact ⟨hctl, hch⟩
  | accept m c y hc hm hidle =>
    left
    refine ⟨?_, by rw [State.accepted_node]; rfl⟩
    obtain ⟨hctl, hch⟩ := ha
    by_cases hnc : n = c
    · subst hnc
      rw [State.accepted_client] at hctl
      cases hctl
    · by_cases hnm : n = m
      · subst hnm
        rw [State.accepted_server hnc] at hctl
        cases hctl
      · rw [State.accepted_ne hnc hnm] at hctl
        rw [State.accepted_net_ne hnc] at hch
        exact ⟨hctl, hch⟩
  | exec p env e _ hm =>
    rcases hm.arriving hS hU rfl ha with hold | ⟨rfl, hga, b, hb, hw, hself⟩
    · have hp : port ≠ p := by
        rintro rfl
        exact hold.home_waits hS hm
      exact Or.inl ⟨hold, by rw [Effect.apply_ne hp]⟩
    · refine Or.inr ⟨hga, b, hb, hw, ?_⟩
      rw [Effect.apply_self, hself]

theorem Comes.kept_or_served (hS : Sessions s) (h : Comes s t n k ga v) :
    (s.node n).cache.Stores k ga v ∨ (s.node port).ctl = .serving n ∧ port ≠ n := by
  cases h with
  | kept hold => exact Or.inl hold
  | fetched w ch rest hctl hch hd =>
    have harr : Arriving s n ga w := ⟨hctl, ch, rest, hch, hd⟩
    obtain ⟨hsv, hne, -⟩ := harr.serving hS
    exact Or.inr ⟨hsv, hne⟩
  | written d ch hctl hch =>
    obtain ⟨hne, hl⟩ := hS.link n ch hch
    rw [hctl] at hl
    obtain ⟨rfl, hsv⟩ := hl.of_connected
    exact Or.inr ⟨hsv, hne⟩

theorem Comes.kept_of_busy (hS : Sessions s) (h : Comes s t n k ga v) (hbusy : (s.node port).ctl ≠ .serving n) :
    (s.node n).cache.Stores k ga v := by
  rcases h.kept_or_served hS with hold | ⟨hsv, -⟩
  · exact hold
  · exact absurd hsv hbusy

theorem HomeUncached.steps {a : Action} (hS : Sessions s) (h : HomeUncached s) (hs : Steps s a t) : HomeUncached t := by
  intro k ga v hst
  rcases (hs.comes hst).kept_or_served hS with hold | ⟨-, hne⟩
  · exact h k ga v hold
  · exact hne rfl

end
end CacheCoherence.Protocol
