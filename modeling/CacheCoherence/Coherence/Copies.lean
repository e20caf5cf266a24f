import CacheCoherence.Protocol.Sessions

/-! # Copies

Where the items of a cache come from, and how a broadcast removes them.
-/
namespace CacheCoherence.Protocol

inductive Comes (s t : State) (p : NodeId) (k : UInt64) (ga : GlobalAddress) (v : Copy) : Prop where
  | kept : (s.node p).cache.Stores k ga v → Comes s t p k ga v
  | fetched (w : Word) (ch : Channel) (rest : List Reply) :
      (s.node p).ctl = .exchange .waiting (.performRead ga) → s.net p = some ch → ch.down = .data w :: rest →
      (t.node p).ctl = .closing (.performRead ga) (.data w) → k = ga.hash → v = ⟨w, true⟩ → Comes s t p k ga v
  | written (d : Data Word) (ch : Channel) : (s.node p).ctl = .exchange .connected (.performWrite d) →
      s.net p = some ch → (t.node p).ctl = .exchange .waiting (.performWrite d) →
      t.net p = some { ch with up := some (.write (d.sendable p)) } → d.ga = ga → k = ga.hash →
      v = ⟨d.data, false⟩ → Comes s t p k ga v

/-- The broadcast of a thread with the connection `ch` has still to invalidate `ga` at `n`. -/
def Ctl.ahead (x : Ctl) (ch : Option Channel) (n : NodeId) (ga : GlobalAddress) : Prop :=
  match x with
  | .broadcast nodes ga' _ => ga' = ga ∧ n ∈ nodes
  | .exchange _ (.invalidate m rest ga' _) => ga' = ga ∧ (n ∈ rest ∨ n = m ∧ ∀ c, ch = some c → c.down = [])
  | .closing (.invalidate _ rest ga' _) _ => ga' = ga ∧ n ∈ rest
  | _ => False

/-- Node `n` is still ahead in the list of a broadcast for `ga` at the home of `ga`. -/
def Ahead (s : State) (n : NodeId) (ga : GlobalAddress) : Prop :=
  (s.node ga.id).ctl.ahead (s.net ga.id) n ga

def Ctl.sent : Ctl → Option (Data Word)
  | .exchange .waiting (.performWrite d) | .exchange .again (.performWrite d) => some d
  | _ => none

/-- A writer that waits for home has nothing but its own copy under the key of the address. -/
def SentOwn (s : State) : Prop :=
  ∀ n d, (s.node n).ctl.sent = some d →
    ∀ ga v, (s.node n).cache.Stores d.ga.hash ga v → ga = d.ga ∧ v = ⟨d.data, false⟩

section
variable {s t : State} {n p : NodeId} {e : Effect} {env : Env} {x : Ctl} {k : UInt64} {ga : GlobalAddress} {v : Copy}

theorem Moves.comes (hx : (s.node n).ctl = x) (h : Moves s n env x e) (hst : e.self.cache.Stores k ga v) :
    Comes s (e.apply s n) n k ga v := by
  cases h with
  | lockGrant y locks granted hn hset =>
    rw [NodeState.lockAnswer_fst] at hst
    exact .kept hst
  | readCached ga' it hne hit => exact .kept (Cache.stores_getCacheItem.mp hst)
  | swept ga' b =>
    cases b with
    | startInvalidations d srcID =>
      rw [stepBroadcast, NodeState.endSession_cache] at hst
      exact .kept hst
    | _ => exact .kept hst
  | sendWrite d ch cache hch ha =>
    rcases Cache.Stores.alterCacheItem ha hst with ⟨-, hold⟩ | ⟨rfl, rfl, rfl⟩
    · exact .kept hold
    · refine .written d ch hx hch (by rw [Effect.apply_self]; rfl) ?_ rfl rfl rfl
      rw [Effect.net_wire rfl, Function.update_self]
  | fetched ga' w rest ch cache hch hd ha =>
    rcases Cache.Stores.addCacheItem ha hst with hold | ⟨rfl, -, rfl, rfl⟩
    · exact .kept hold
    · exact .fetched w ch rest hx hch hd (by rw [Effect.apply_self]; rfl) rfl rfl
  | closed y r rest ch hch hd =>
    rw [NodeState.closed_fst] at hst
    exact .kept hst
  | serve c ch r e hch hpeer hup hs =>
    cases hs with
    | readCached sga it hne hit => exact .kept (Cache.stores_getCacheItem.mp hst)
    | reset =>
      rw [NodeState.endSession_cache] at hst
      exact .kept hst
    | invalidate sga => exact .kept (Cache.Stores.removeCacheItem hst).2
    | _ => exact .kept hst
  | _ => exact .kept hst

theorem Steps.comes {a : Action} (h : Steps s a t) (hst : (t.node p).cache.Stores k ga v) : Comes s t p k ga v := by
  cases h with
  | begin n op hidle hsus =>
    rw [State.begun_node] at hst
    exact .kept hst
  | accept m c y hc hm hidle =>
    rw [State.accepted_node] at hst
    exact .kept hst
  | exec n env e _ hm =>
    by_cases hpn : p = n
    · subst hpn
      rw [Effect.apply_self] at hst
      exact hm.comes rfl hst
    · rw [Effect.apply_ne hpn] at hst
      exact .kept hst

theorem ahead_port (hga : ga.id = port) : Ahead s n ga ↔ (s.node port).ctl.ahead (s.net port) n ga := by
  rw [Ahead, hga]

theorem Ahead.congr (h : Ahead s n ga) (hctl : (t.node ga.id).ctl = (s.node ga.id).ctl)
    (hnet : t.net ga.id = s.net ga.id) : Ahead t n ga := by
  rwa [Ahead, hctl, hnet]

theorem Ahead.aside_free (h : Ahead s n ga) : (∃ nodes b, (s.node ga.id).ctl = .broadcast nodes ga b) ∨
    (∃ ph m rest b, (s.node ga.id).ctl = .exchange ph (.invalidate m rest ga b)) ∨
    ∃ m rest b r, (s.node ga.id).ctl = .closing (.invalidate m rest ga b) r := by
  unfold Ahead Ctl.ahead at h
  split at h
  · rename_i nodes ga' b hctl
    obtain ⟨rfl, -⟩ := h
    exact Or.inl ⟨nodes, b, hctl⟩
  · rename_i ph m rest ga' b hctl
    obtain ⟨rfl, -⟩ := h
    exact Or.inr (Or.inl ⟨ph, m, rest, b, hctl⟩)
  · rename_i m rest ga' b r hctl
    obtain ⟨rfl, -⟩ := h
    exact Or.inr (Or.inr ⟨m, rest, b, r, hctl⟩)
  · exact absurd h id

theorem Ahead.moves_home (hS : Sessions s) (hx : (s.node ga.id).ctl = x) (h : Ahead s n ga)
    (hm : Moves s ga.id env x e) : Ahead (e.apply s ga.id) n ga := by
  rw [Ahead, hx] at h
  rw [Ahead, Effect.apply_self]
  cases hm with
  | connect y z hopen =>
    cases hopen with
    | invalidate m rest ga' b =>
      obtain ⟨rfl, hmem⟩ := h
      have hnone : s.net ga'.id = none := hS.net_none (by rw [hx]; rfl) (by rw [hx]; simp)
      rw [Effect.net_local rfl]
      refine ⟨rfl, ?_⟩
      rcases List.mem_cons.mp hmem with rfl | hrest
      · exact Or.inr ⟨rfl, by simp [hnone]⟩
      · exact Or.inl hrest
    | _ => exact absurd h id
  | swept ga' b => exact absurd h.2 List.not_mem_nil
  | send y ch hch hnw hnr =>
    cases y with
    | invalidate m rest ga' b =>
      obtain ⟨rfl, hmem⟩ := h
      refine ⟨rfl, hmem.imp id fun hn => ⟨hn.1, ?_⟩⟩
      rw [Effect.net_wire rfl, Function.update_self]
      rintro c ⟨⟩
      exact hn.2 ch hch
    | _ => exact absurd h id
  | received y r rest ch hch hd hp hni =>
    cases y with
    | invalidate m nodes ga' b =>
      obtain ⟨rfl, hmem⟩ := h
      rcases hmem with hmem | ⟨-, hdown⟩
      · exact ⟨rfl, hmem⟩
      · have hnil := hdown ch hch
        rw [hd] at hnil
        cases hnil
    | _ => exact absurd h id
  | closed y r rest ch hch hd =>
    cases y with
    | invalidate m nodes ga' b => exact h
    | _ => exact absurd h id
  | misread _ r rest ch hch hd hmis => cases hmis <;> exact absurd h id
  | _ => exact absurd h id

theorem Ahead.moves_ne (hS : Sessions s) (hx : (s.node p).ctl = x) (hp : p ≠ ga.id) (h : Ahead s n ga)
    (hm : Moves s p env x e) : Ahead (e.apply s p) n ga ∨ p = n ∧ ∀ ga' v, ¬ e.self.cache.Stores ga.hash ga' v := by
  have hctl : ((e.apply s p).node ga.id).ctl = (s.node ga.id).ctl := by rw [Effect.apply_ne (Ne.symm hp)]
  by_cases hans : x.answers = some ga.id
  · cases hm with
    | startInvalidations c d nodes srcID ch b hch hb =>
      obtain rfl : c = ga.id := Option.some.inj hans
      obtain ⟨dh, hdh, -, ho, hl⟩ := hS.client_link hx rfl (by simp)
      rw [Ahead] at h
      rcases (hl.of_startInvalidations ho).2 with ⟨sga, hown, -⟩ | ⟨hown, -⟩ <;>
      · rw [hown] at h
        exact absurd h id
    | discardFor ga' c srcID ch hch =>
      obtain rfl : c = ga.id := Option.some.inj hans
      obtain ⟨dh, hdh, -, ho, hl⟩ := hS.client_link hx rfl (by simp)
      obtain ⟨y, hown, hreq, -⟩ := hl.of_handles ho rfl
      rw [Ahead, hown] at h
      cases y with
      | invalidate m rest ga'' b => cases hreq
      | _ => exact absurd h id
    | serve c ch r e hch hpeer hup hs =>
      obtain rfl : c = ga.id := Option.some.inj hans
      rcases (hS.serving_link hx hch hpeer).of_up hup with ⟨y, hown, rfl, -, rfl⟩ | ⟨y, a, hown, rfl, -, rfl⟩
      · rw [Ahead, hown] at h
        cases y with
        | invalidate m rest ga' b =>
          obtain ⟨rfl, hmem⟩ := h
          rcases hmem with hmem | ⟨rfl, -⟩
          · left
            rw [Ahead, hctl, hown]
            exact ⟨rfl, Or.inl hmem⟩
          · refine Or.inr ⟨hpeer.symm, ?_⟩
            cases hs with
            | invalidate sga => exact fun ga'' v hst => (Cache.Stores.removeCacheItem hst).1 rfl
            | forward _ hf => cases hf
        | _ => exact absurd h id
      · left
        rw [Ahead, hown] at h
        rw [Ahead, hctl, hown]
        cases y with
        | invalidate m rest ga' b => exact h
        | _ => exact absurd h id
    | misread _ r rest ch hch hd hmis => cases hmis <;> cases hans
    | connect _ y hopen => cases hopen <;> cases hans
    | _ => cases hans
  · exact Or.inl (h.congr hctl (hm.net_ne (Ne.symm hp) hans))

/-- A node stays ahead in a broadcast until its cache has lost the item. -/
theorem Ahead.steps {a : Action} (hS : Sessions s) (h : Ahead s n ga) (hs : Steps s a t) :
    Ahead t n ga ∨ ∀ ga' v, ¬ (t.node n).cache.Stores ga.hash ga' v := by
  have hbusy : (s.node ga.id).ctl ≠ .idle := by
    intro hidle
    rw [Ahead, hidle] at h
    exact h
  cases hs with
  | begin p op hidle hsus =>
    have hp : ga.id ≠ p := fun hp => hbusy (hp ▸ hidle)
    exact Or.inl (h.congr (by rw [State.begun_ne hp]) rfl)
  | accept m c y hc hm hidle =>
    have hp : ga.id ≠ m := fun hp => hbusy (hp ▸ hidle)
    left
    by_cases hpc : ga.id = c
    · rw [Ahead, hpc, hc] at h
      rw [Ahead, hpc, State.accepted_client]
      cases y with
      | invalidate m' rest ga' b =>
        refine ⟨h.1, h.2.imp id fun hn => ⟨hn.1, ?_⟩⟩
        rw [State.accepted_net_client]
        rintro ch ⟨⟩
        rfl
      | _ => exact absurd h id
    · exact h.congr (by rw [State.accepted_ne hpc hp]) (State.accepted_net_ne hpc)
  | exec p env e _ hm =>
    by_cases hp : p = ga.id
    · subst hp
      exact Or.inl (h.moves_home hS rfl hm)
    · rcases h.moves_ne hS rfl hp hm with h | ⟨rfl, hno⟩
      · exact Or.inl h
      · rw [Effect.apply_self]
        exact Or.inr hno

theorem online_of_sent {d : Data Word} (h : x.sent = some d) : x.online = true := by
  unfold Ctl.sent at h
  split at h
  · rfl
  · rfl
  · cases h

theorem Moves.sent (hx : (s.node n).ctl = x) (h : Moves s n env x e) {d : Data Word}
    (hd : e.self.ctl.sent = some d) : (x.sent = some d ∧ e.self.cache = (s.node n).cache) ∨
    x = .exchange .connected (.performWrite d) ∧ ∃ c, e.self.cache = c ∧
      (s.node n).cache.alterCacheItem ⟨d.ga, ⟨d.data, false⟩, env.now, env.now⟩ d.ga = some c := by
  cases h with
  | lockGrant k locks granted hn hset =>
    rcases lockAnswer_ctl (n := n) { s.node n with locks := locks } granted k with hc | hc | ⟨a, hc⟩
    all_goals
      rw [hc] at hd
      cases hd
  | writeLocal d' b => cases hb : b.record.writeInvalidates <;> simp only [hb] at hd <;> cases hd
  | freeLocal ga b => cases hb : b.record.freeInvalidates <;> simp only [hb] at hd <;> cases hd
  | swept ga b =>
    cases b with
    | startInvalidations d' srcID =>
      rcases endSession_ctl (s.node n) with hc | ⟨d'', result, hc⟩
      all_goals
        rw [stepBroadcast, hc] at hd
        cases hd
    | _ => cases hd
  | sendWrite d' ch cache hch ha =>
    cases hd
    exact Or.inr ⟨rfl, cache, rfl, ha⟩
  | send y ch hch hnw hnr =>
    cases y with
    | performWrite d' => exact absurd rfl (hnw d')
    | _ => cases hd
  | invalidated d' sga rest ch hch hdown =>
    cases hd
    exact Or.inl ⟨rfl, rfl⟩
  | closed y r rest ch hch hdown =>
    rcases settles_closed (n := n) (s.node n) y r with hc | ⟨-, -, hoff, -⟩
    · rw [hc] at hd
      cases hd
    · rw [online_of_sent hd] at hoff
      cases hoff
  | serve c ch r e hch hpeer hup hs =>
    cases hs with
    | reset =>
      rcases endSession_ctl (s.node n) with hc | ⟨d'', result, hc⟩
      all_goals
        rw [hc] at hd
        cases hd
    | free sga b => cases hb : b.record.freeInvalidates <;> simp only [hb] at hd <;> cases hd
    | malloc | read | readCached | write | locks | invalidate =>
      simp only [NodeState.copyRecord_ctl, hx] at hd
      cases hd
    | _ => cases hd
  | _ => cases hd

theorem SentOwn.steps {a : Action} (h : SentOwn s) (hs : Steps s a t) : SentOwn t := by
  intro p d hd ga v hst
  have hkeep : (s.node p).ctl.sent = some d → (s.node p).cache.Stores d.ga.hash ga v →
      ga = d.ga ∧ v = ⟨d.data, false⟩ := fun hd hst => h p d hd ga v hst
  cases hs with
  | begin n op hidle hsus =>
    by_cases hpn : p = n
    · subst hpn
      rw [State.begun_self] at hd
      cases op <;> cases hd
    · rw [State.begun_ne hpn] at hd hst
      exact hkeep hd hst
  | accept m c y hc hm hidle =>
    by_cases hpc : p = c
    · subst hpc
      rw [State.accepted_client] at hd
      cases hd
    · by_cases hpm : p = m
      · subst hpm
        rw [State.accepted_server hpc] at hd
        cases hd
      · rw [State.accepted_ne hpc hpm] at hd hst
        exact hkeep hd hst
  | exec n env e _ hm =>
    by_cases hpn : p = n
    · subst hpn
      rw [Effect.apply_self] at hd hst
      rcases hm.sent rfl hd with ⟨hold, hcache⟩ | ⟨-, c, hcache, ha⟩
      · rw [hcache] at hst
        exact hkeep hold hst
      · rw [hcache] at hst
        rcases Cache.Stores.alterCacheItem ha hst with ⟨hne, -⟩ | ⟨-, rfl, rfl⟩
        · exact absurd rfl hne
        · exact ⟨rfl, rfl⟩
    · rw [Effect.apply_ne hpn] at hd hst
      exact hkeep hd hst

theorem Quiet.sentOwn (h : Quiet s) : SentOwn s := by
  intro n d hd
  rw [h.idle n] at hd
  cases hd

end
end CacheCoherence.Protocol
