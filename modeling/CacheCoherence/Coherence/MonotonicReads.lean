import CacheCoherence.Coherence.Results

/-! # Monotonic reads

Whatever a node has seen of an address, in its reads and its own writes, its cache and its later reads
are not older.
-/
namespace CacheCoherence.Protocol
open TransitionRuns VersionOrder

def Event.shows (n : NodeId) (ga : GlobalAddress) : Event → Option Word
  | .ret m (.read ga' (some w)) => if m = n ∧ ga' = ga then some w else none
  | .ret m (.write d (some _)) => if m = n ∧ d.ga = ga then some d.data else none
  | _ => none

/-- Node `n` knows the version `v` of `ga`: from a call that has returned, or the one it is in. -/
def Seen (s : State) (n : NodeId) (ga : GlobalAddress) (v : Word) : Prop :=
  (∃ ev ∈ s.log, ev.shows n ga = some v) ∨ (s.node n).ctl.found = some (ga, .copy v) ∨
  ∃ d, (s.node n).calling = some (.write d) ∧ .store n d.ga d.data ∈ s.log ∧ d.ga = ga ∧ d.data = v

/-- Node `n` has sent the write `d` home, where it is not applied yet. -/
def Unapplied (s : State) (n : NodeId) (d : Data Word) : Prop :=
  (s.node n).ctl.sent = some d ∧ ∀ ch sga, s.net n = some ch → .address sga ∉ ch.down

structure Views (G : GlobalAddress → Prop) (s₀ s : State) : Prop where
  keyed : ∀ n k ga c, (s.node n).cache.Stores k ga c → G ga ∧ k = ga.hash ∧ n ≠ port
  missing : ∀ n ph ga, (s.node n).ctl = .exchange ph (.performRead ga) →
    ∀ ga' c, ¬ (s.node n).cache.Stores ga.hash ga' c
  seen : ∀ n ga v, Seen s n ga v → v ∈ versions s₀ ga s.log
  items : ∀ n k ga c, (s.node n).cache.Stores k ga c →
    (c.word ∈ versions s₀ ga s.log ∧ ∀ v, Seen s n ga v → NoNewer (versions s₀ ga s.log) v c.word) ∨
    ∃ d, Unapplied s n d ∧ d.ga = ga ∧ d.data = c.word
  found : ∀ n ga w, (s.node n).ctl.found = some (ga, .copy w) →
    ∀ v, Seen s n ga v → NoNewer (versions s₀ ga s.log) v w
  ordered : ∀ n ga, s.log.Pairwise fun ev ev' => ∀ v w, ev.shows n ga = some v →
    ev' = .ret n (.read ga (some w)) → NoNewer (versions s₀ ga s.log) v w

section
variable {G : GlobalAddress → Prop} {s t s₀ : State} {n m p : NodeId} {e : Effect} {env : Env} {x : Ctl}
variable {ga ga' : GlobalAddress} {k : UInt64} {v w : Word} {c : Copy} {d : Data Word} {a : Action} {ev : Event}

theorem shows_cases (h : ev.shows n ga = some v) : ev = .ret n (.read ga (some v)) ∨
    ∃ d r, ev = .ret n (.write d (some r)) ∧ d.ga = ga ∧ d.data = v := by
  unfold Event.shows at h
  split at h
  · split at h
    · rename_i heq
      obtain ⟨rfl, rfl⟩ := heq
      cases h
      exact Or.inl rfl
    · cases h
  · split at h
    · rename_i heq
      obtain ⟨rfl, rfl⟩ := heq
      cases h
      exact Or.inr ⟨_, _, rfl, rfl, rfl⟩
    · cases h
  · cases h

theorem Event.shows_inner (h : ev.inner = true) : ev.shows n ga = none := by
  cases ev with
  | call m op => cases h
  | ret m o => cases h
  | _ => rfl

theorem Steps.versions_append (hs : Steps s a t) (s₀ : State) (ga : GlobalAddress) :
    ∃ ws, versions s₀ ga t.log = versions s₀ ga s.log ++ ws := by
  obtain ⟨es, hes⟩ := hs.log_append
  exact ⟨_, by rw [hes, Protocol.versions_append]⟩

theorem Arriving.versions_same (hH : History G s₀ s) (hs : Steps s a t) (h : Arriving s n ga w)
    (ga' : GlobalAddress) : versions s₀ ga' t.log = versions s₀ ga' s.log := by
  cases hs with
  | begin p op hidle hsus =>
    have hnil : stored ga' [.call p (op.stamp s.clock)] = [] := rfl
    rw [State.begun_log, Protocol.versions_append, hnil, List.append_nil]
  | accept q c y hc hm hidle => rfl
  | exec p env e _ hm =>
    have hp : p ≠ port := by
      rintro rfl
      exact h.home_waits hH.sessions hm
    have hquiet := (hm.home hH.sessions hH.workload rfl).quiet hp
    have hnil : stored ga' e.events = [] := stored_nil hquiet
    rw [Effect.apply_log, Protocol.versions_append, hnil, List.append_nil]

/-- What a node comes to see in a step: home's value in a read at home, the result that its read has
just found, or its own write that was just applied. -/
theorem Seen.steps (hH : History G s₀ s) (hT : History G s₀ t) (hs : Steps s a t) (h : Seen t n ga v) :
    Seen s n ga v ∨ (n = port ∧ G ga ∧ s.homeWord ga = some v) ∨
    (Finds s n ga (.copy v) ∧ (t.node n).ctl.found = some (ga, .copy v)) ∨
    ∃ d, Pends s n d ∧ (n = port ∨ (s.node n).ctl.sent = some d) ∧ d.ga = ga ∧ d.data = v ∧ .store n ga v ∈ t.log := by
  rcases h with ⟨ev, hev, hshow⟩ | hfound | ⟨d, hcall, hstore, hga, hv⟩
  · cases hs with
    | begin p op hidle hsus =>
      rcases List.mem_append.mp hev with hev | hev
      · exact Or.inl (Or.inl ⟨ev, hev, hshow⟩)
      · rw [List.mem_singleton.mp hev] at hshow
        cases hshow
    | accept q c y hc hm hidle => exact Or.inl (Or.inl ⟨ev, hev, hshow⟩)
    | exec p env e _ hm =>
      rcases List.mem_append.mp hev with hev | hev
      · exact Or.inl (Or.inl ⟨ev, hev, hshow⟩)
      · rcases shows_cases hshow with rfl | ⟨d, r, rfl, hga, hv⟩
        · obtain ⟨rfl, hga, ⟨hn, hw⟩ | ⟨-, hf⟩⟩ := hm.returns_read hH.workload hev
          · exact Or.inr (Or.inl ⟨hn, hga, hw⟩)
          · exact Or.inl (Or.inr (Or.inl hf))
        · obtain ⟨rfl, hcall, hnp⟩ := hm.returns_write hH.suspends hev
          rcases hH.stores.applied n d hcall with hp | hst
          · exact absurd hp hnp
          · exact Or.inl (Or.inr (Or.inr ⟨d, hcall, hst, hga, hv⟩))
  · rcases hs.found hH.workload hfound with hold | hnew
    · exact Or.inl (Or.inr (Or.inl hold))
    · exact Or.inr (Or.inr (Or.inl ⟨hnew, hfound⟩))
  · subst hga hv
    cases hs with
    | begin p op hidle hsus =>
      have hold : .store n d.ga d.data ∈ s.log := by simpa using hstore
      by_cases hn : n = p
      · subst hn
        rw [State.begun_calling _ hsus] at hcall
        have hpend : Pends (s.begun n (op.stamp s.clock)) n d := by
          left
          rw [State.begun_self]
          cases op with
          | write d' =>
            cases hcall
            rfl
          | _ => cases hcall
        exact absurd (List.mem_append_left _ hold) (hT.stores.pending n d hpend n d.ga)
      · rw [State.begun_ne hn] at hcall
        exact Or.inl (Or.inr (Or.inr ⟨d, hcall, hold, rfl, rfl⟩))
    | accept q c y hc hm hidle =>
      rw [State.accepted_calling hc hidle] at hcall
      exact Or.inl (Or.inr (Or.inr ⟨d, hcall, hstore, rfl, rfl⟩))
    | exec p env e _ hm =>
      have hold : (s.node n).calling = some (.write d) := by
        by_cases hn : n = p
        · subst hn
          rw [Effect.apply_self] at hcall
          rcases hm.proceeds hH.suspends rfl with ⟨hc | hc, -⟩ | ⟨-, -, -, -, -, -, -, hc⟩
          · rw [← hc, hcall]
          · rw [hc] at hcall
            cases hcall
          · rw [hc] at hcall
            cases hcall
        · rwa [Effect.apply_ne hn] at hcall
      rcases List.mem_append.mp hstore with hst | hst
      · exact Or.inl (Or.inr (Or.inr ⟨d, hold, hst, rfl, rfl⟩))
      · rcases hm.stores hH.sessions rfl with hno | ⟨c, d', hp, -, hev, hwho⟩
        · exact absurd hst (hno _ _ _)
        · rw [hev, List.mem_singleton, Event.store.injEq] at hst
          obtain ⟨rfl, hga, hw⟩ := hst
          have hat : n = port ∨ (s.node n).ctl.sent = some d' := by
            refine hwho.imp (fun ⟨hctl, hn⟩ => ?_) id
            have hin := hH.workload.within p
            rw [hctl] at hin
            exact hn.trans hin.1
          exact Or.inr (Or.inr (Or.inr ⟨d', hp, hat, hga.symm, hw.symm, hstore⟩))

theorem Moves.reads (hx : (s.node n).ctl = x) (h : Moves s n env x e) {ph : Phase}
    (hctl : e.self.ctl = .exchange ph (.performRead ga)) : e.self.cache = (s.node n).cache ∧
    ((∃ ph', x = .exchange ph' (.performRead ga)) ∨ ∀ ga' c, ¬ (s.node n).cache.Stores ga.hash ga' c) := by
  cases h with
  | lockGrant k locks granted hn hset =>
    rcases lockAnswer_ctl (n := n) { s.node n with locks := locks } granted k with hc | hc | ⟨b, hc⟩
    all_goals
      rw [hc] at hctl
      cases hctl
  | connect x y hopen =>
    cases hctl
    cases hopen with
    | miss _ hne hmiss => exact ⟨rfl, Or.inr fun ga' c => Cache.not_stores_of_miss hmiss⟩
  | writeLocal d b => cases hb : b.record.writeInvalidates <;> simp [hb] at hctl
  | freeLocal ga' b => cases hb : b.record.freeInvalidates <;> simp [hb] at hctl
  | swept ga' b =>
    cases b with
    | startInvalidations d srcID =>
      rcases endSession_ctl (s.node n) with hc | ⟨d', result, hc⟩
      all_goals
        rw [stepBroadcast, hc] at hctl
        cases hctl
    | _ => cases hctl
  | send y ch hch hnw hnr =>
    cases hctl
    exact ⟨rfl, Or.inl ⟨_, rfl⟩⟩
  | closed y r rest ch hch hd =>
    rcases settles_closed (n := n) (s.node n) y r with hc | ⟨-, -, hoff, -⟩
    · rw [hc] at hctl
      cases hctl
    · cases y with
      | setLock k =>
        cases r with
        | lock granted =>
          rcases lockAnswer_ctl (n := n) (s.node n) granted k with hc | hc | ⟨b, hc⟩
          all_goals
            simp only [NodeState.closed, hc] at hctl
            cases hctl
        | _ => cases hctl
      | _ => cases r <;> cases hctl
  | serve c ch r e hch hpeer hup hs =>
    cases hs with
    | reset =>
      rcases endSession_ctl (s.node n) with hc | ⟨d', result, hc⟩
      all_goals
        rw [hc] at hctl
        cases hctl
    | free sga b => cases hb : b.record.freeInvalidates <;> simp [hb] at hctl
    | malloc | read | readCached | write | locks | invalidate =>
      simp only [NodeState.copyRecord_ctl, hx] at hctl
      cases hctl
    | _ => cases hctl
  | _ => cases hctl

theorem unapplied_of_sent {ch : Channel} {r : Request} (hS : Sessions s)
    (hctl : (s.node n).ctl = .exchange .connected (.performWrite d)) (hch : s.net n = some ch)
    (hctl' : (t.node n).ctl = .exchange .waiting (.performWrite d)) (hch' : t.net n = some { ch with up := some r }) :
    Unapplied t n d := by
  have hl := (hS.link n ch hch).2
  rw [hctl] at hl
  obtain ⟨rfl, -⟩ := hl.of_connected
  refine ⟨by rw [hctl']; rfl, fun dh sga hdh => ?_⟩
  rw [hch'] at hdh
  cases hdh
  exact List.not_mem_nil

theorem History.homeWord_of_stored (h : History G s₀ t) (hga : G ga) {old : List Word}
    (hst : stored ga t.log = old ++ [w]) : t.homeWord ga = some w := by
  rw [← h.newest ga hga, versions, hst, ← List.append_assoc]
  exact List.getLast?_append_of_ne_nil _ (by simp)

theorem Unapplied.steps (hS : Sessions s) (hs : Steps s a t) (h : Unapplied s n d) :
    Unapplied t n d ∨ stored d.ga t.log = stored d.ga s.log ++ [d.data] := by
  obtain ⟨hsent, hdown⟩ := h
  cases hs with
  | begin p op hidle hsus =>
    have hn : n ≠ p := by
      rintro rfl
      rw [hidle] at hsent
      cases hsent
    left
    rw [Unapplied, State.begun_ne hn]
    exact ⟨hsent, hdown⟩
  | accept q c y hc hm hidle =>
    have hnc : n ≠ c := by
      rintro rfl
      rw [hc] at hsent
      cases hsent
    have hnq : n ≠ q := by
      rintro rfl
      rw [hidle] at hsent
      cases hsent
    left
    rw [Unapplied, State.accepted_ne hnc hnq, State.accepted_net_ne hnc]
    exact ⟨hsent, hdown⟩
  | exec p env e _ hm =>
    by_cases hn : n = p
    · subst hn
      left
      unfold Ctl.sent at hsent
      split at hsent
      · rename_i d' hctl
        cases hsent
        rw [hctl] at hm
        cases hm with
        | invalidated _ sga rest ch hch hd =>
          refine ⟨by rw [Effect.apply_self]; rfl, fun ch' sga' hch' hmem => ?_⟩
          rw [Effect.net_wire rfl, Function.update_self] at hch'
          cases hch'
          exact hdown ch sga' hch (by rw [hd]; exact List.mem_cons_of_mem _ hmem)
        | received _ r rest ch hch hd hplain hni =>
          have hl := (hS.link n ch hch).2
          rw [hctl] at hl
          rcases hl.of_waiting hd with ⟨-, -, hr, -, -⟩ | ⟨d'', sga, heq, rfl, -⟩
          · cases r with
            | address sga => exact absurd (by rw [hd]; exact List.mem_cons_self) (hdown ch sga hch)
            | _ => cases hr
          · exact absurd rfl (hni _ sga heq)
        | misread _ _ _ _ _ _ hmis => cases hmis
        | connect _ y hopen => cases hopen
      · rename_i d' hctl
        cases hsent
        rw [hctl] at hm
        cases hm with
        | suspend _ sga rest ch hch hd =>
          exact absurd (by rw [hd]; exact List.mem_cons_self) (hdown ch sga hch)
        | misread _ r rest ch hch hd hmis =>
          have hl := (hS.link n ch hch).2
          rw [hctl] at hl
          obtain ⟨d'', sga, -, rfl, -⟩ := hl.of_again hd
          exact absurd (by rw [hd]; exact List.mem_cons_self) (hdown ch sga hch)
        | connect _ y hopen => cases hopen
      · cases hsent
    · rcases hm.pends_ne hS rfl hn (Or.inr ⟨hsent, hdown⟩) with hp | hev
      · rw [Pends, Effect.apply_ne hn, early_of_sent hsent] at hp
        rcases hp with hp | hp
        · cases hp
        · left
          rw [Unapplied, Effect.apply_ne hn]
          exact hp
      · right
        rw [Effect.apply_log, stored_append, hev, stored_self]

section
variable {size : UInt64}

theorem Views.keyed_steps (h : Views G s₀ s) (hW : Workload G s) (hs : Steps s a t)
    (hst : (t.node n).cache.Stores k ga c) : G ga ∧ k = ga.hash ∧ n ≠ port := by
  have hin := hW.within n
  cases hs.comes hst with
  | kept hold => exact h.keyed n k ga c hold
  | fetched w ch rest hctl _ _ _ hk =>
    rw [hctl] at hin
    exact ⟨hin.1, hk, hin.2⟩
  | written d ch hctl _ _ _ hga hk =>
    rw [hctl] at hin
    exact ⟨hga ▸ hin.1, hk, hin.2⟩

theorem Views.missing_steps (h : Views G s₀ s) (hs : Steps s a t) {ph : Phase}
    (hctl : (t.node n).ctl = .exchange ph (.performRead ga)) (hst : (t.node n).cache.Stores ga.hash ga' c) : False := by
  cases hs with
  | begin p op hidle hsus =>
    rw [State.begun_node] at hst
    by_cases hn : n = p
    · subst hn
      rw [State.begun_self] at hctl
      cases op <;> cases hctl
    · rw [State.begun_ne hn] at hctl
      exact h.missing n ph ga hctl ga' c hst
  | accept q c' y hc hm hidle =>
    rw [State.accepted_node] at hst
    by_cases hnc : n = c'
    · subst hnc
      rw [State.accepted_client] at hctl
      cases hctl
      exact h.missing n _ ga hc ga' c hst
    · by_cases hnq : n = q
      · subst hnq
        rw [State.accepted_server hnc] at hctl
        cases hctl
      · rw [State.accepted_ne hnc hnq] at hctl
        exact h.missing n ph ga hctl ga' c hst
  | exec p env e _ hm =>
    by_cases hn : n = p
    · subst hn
      rw [Effect.apply_self] at hctl hst
      obtain ⟨hcache, hcase⟩ := hm.reads rfl hctl
      rw [hcache] at hst
      rcases hcase with ⟨ph', hx⟩ | hno
      · exact h.missing n ph' ga hx ga' c hst
      · exact hno ga' c hst
    · rw [Effect.apply_ne hn] at hctl hst
      exact h.missing n ph ga hctl ga' c hst

theorem Views.hit (h : Views G s₀ s) (hW : Workload G s) (hsize : ∀ ga, G ga → ga.size = size)
    (hctl : (s.node n).ctl = .access (.read ga)) (hst : (s.node n).cache.Stores ga.hash ga' c) :
    ga' = ga ∧ c.word ∈ versions s₀ ga s.log ∧ ∀ v, Seen s n ga v → NoNewer (versions s₀ ga s.log) v c.word := by
  have hin := hW.within n
  rw [hctl] at hin
  obtain ⟨hga', hk, -⟩ := h.keyed n ga.hash ga' c hst
  obtain rfl := hW.same_key hsize hin hga' hk
  rcases h.items n ga.hash ga c hst with hitem | ⟨d, ⟨hsent, -⟩, -⟩
  · exact ⟨rfl, hitem⟩
  · rw [hctl] at hsent
    cases hsent

theorem Views.seen_steps (hH : History G s₀ s) (hT : History G s₀ t) (h : Views G s₀ s)
    (hsize : ∀ ga, G ga → ga.size = size) (hs : Steps s a t) (hv : Seen t n ga v) : v ∈ versions s₀ ga t.log := by
  obtain ⟨ws, hws⟩ := hs.versions_append s₀ ga
  have hold : v ∈ versions s₀ ga s.log → v ∈ versions s₀ ga t.log := by
    intro hmem
    rw [hws]
    exact List.mem_append_left _ hmem
  rcases hv.steps hH hT hs with hv | ⟨-, hga, hw⟩ | ⟨hfind, -⟩ | ⟨d, -, -, -, -, hst⟩
  · exact hold (h.seen n ga v hv)
  · exact hold (hH.home_mem hga hw)
  · cases hfind with
    | hit ga' c hctl hst => exact hold (h.hit hH.workload hsize hctl hst).2.1
    | fetch _ harr =>
      exact hold (hH.home_mem (harr.address hH.workload).1 (hH.arriving n ga v harr).homeWord)
  · exact List.mem_append_right _ (mem_stored.mpr ⟨n, hst⟩)

/-- The result of a read is not older than anything its node has seen. -/
theorem Views.found_steps (hH : History G s₀ s) (hT : History G s₀ t) (h : Views G s₀ s)
    (hsize : ∀ ga, G ga → ga.size = size) (hs : Steps s a t)
    (hf : (t.node n).ctl.found = some (ga, .copy w)) (hv : Seen t n ga v) :
    NoNewer (versions s₀ ga t.log) v w := by
  obtain ⟨ws, hws⟩ := hs.versions_append s₀ ga
  have hn := (copy_within hT.workload hf).2
  have hmem := h.seen_steps hH hT hsize hs hv
  have hself : w ∈ versions s₀ ga t.log := h.seen_steps hH hT hsize hs (Or.inr (Or.inl hf))
  -- what was seen before the step is enough, for the step shows nothing but the result itself
  have hpast : (∀ d, ¬ Pends s n d) → (∀ u, Seen s n ga u → NoNewer (versions s₀ ga s.log) u w) →
      NoNewer (versions s₀ ga t.log) v w := by
    intro hnp hle
    rcases hv.steps hH hT hs with hv | ⟨hp, -⟩ | ⟨-, hf'⟩ | ⟨d, hp, -⟩
    · rw [hws]
      exact (hle v hv).append ws
    · exact absurd hp hn
    · rw [hf] at hf'
      cases hf'
      exact NoNewer.refl hself
    · exact absurd hp (hnp d)
  have hread : (s.node n).ctl.op = some (.read ga) → ∀ d, ¬ Pends s n d := by
    intro hop d hp
    rw [hp.op] at hop
    cases hop
  rcases hs.found hH.workload hf with hold | hfind
  · exact hpast (hread (op_of_found hold)) (h.found n ga w hold)
  · cases hfind with
    | hit ga' c hctl hst =>
      exact hpast (hread (by rw [hctl]; rfl)) (h.hit hH.workload hsize hctl hst).2.2
    | fetch _ harr =>
      rw [harr.versions_same hH hs ga] at hmem ⊢
      exact hH.noNewer_home (harr.address hH.workload).1 (hH.arriving n ga w harr).homeWord hmem

/-- An item is not older than anything its node has seen, or it is its own write on its way. -/
theorem Views.items_steps (hH : History G s₀ s) (hT : History G s₀ t) (h : Views G s₀ s)
    (hsize : ∀ ga, G ga → ga.size = size) (hs : Steps s a t) (hst : (t.node n).cache.Stores k ga c) :
    (c.word ∈ versions s₀ ga t.log ∧ ∀ v, Seen t n ga v → NoNewer (versions s₀ ga t.log) v c.word) ∨
    ∃ d, Unapplied t n d ∧ d.ga = ga ∧ d.data = c.word := by
  obtain ⟨ws, hws⟩ := hs.versions_append s₀ ga
  obtain ⟨hga, hk, hn⟩ := h.keyed_steps hH.workload hs hst
  have hmem : ∀ v, Seen t n ga v → v ∈ versions s₀ ga t.log := fun v hv => h.seen_steps hH hT hsize hs hv
  cases hs.comes hst with
  | kept hold =>
    rcases h.items n k ga c hold with ⟨hc, hle⟩ | ⟨d, hun, rfl, hw⟩
    · left
      refine ⟨by rw [hws]; exact List.mem_append_left _ hc, fun v hv => ?_⟩
      rcases hv.steps hH hT hs with hv' | ⟨hp, -⟩ | ⟨hfind, -⟩ | ⟨d, hp, hwho, rfl, rfl, -⟩
      · rw [hws]
        exact (hle v hv').append ws
      · exact absurd hp hn
      · cases hfind with
        | hit ga' c' hctl hst' =>
          rw [hk] at hold
          obtain ⟨-, rfl⟩ := hst'.unique hold
          exact NoNewer.refl (hmem _ hv)
        | fetch _ harr =>
          rw [hk] at hold
          exact absurd hold (h.missing n _ ga harr.1 ga c)
      · rcases hwho with hp' | hsent
        · exact absurd hp' hn
        · rw [hk] at hold
          obtain ⟨-, rfl⟩ := hH.sentOwn n d hsent _ c hold
          exact NoNewer.refl (hmem _ hv)
    · rcases hun.steps hH.sessions hs with hun | hstored
      · exact Or.inr ⟨d, hun, rfl, hw⟩
      · left
        have hlast : t.homeWord d.ga = some c.word := by rw [hT.homeWord_of_stored hga hstored, hw]
        exact ⟨hT.home_mem hga hlast, fun v hv => hT.noNewer_home hga hlast (hmem v hv)⟩
  | fetched w ch rest hctl hch hd hctl' _ hw =>
    subst hw
    have harr : Arriving s n ga w := ⟨hctl, ch, rest, hch, hd⟩
    have hlast := (hH.arriving n ga w harr).homeWord
    left
    rw [harr.versions_same hH hs ga] at hmem ⊢
    exact ⟨hH.home_mem hga hlast, fun v hv => hH.noNewer_home hga hlast (hmem v hv)⟩
  | written d ch hctl hch hctl' hch' hga' _ hw =>
    subst hw
    exact Or.inr ⟨d, unapplied_of_sent hH.sessions hctl hch hctl' hch', hga', rfl⟩

theorem Views.ordered_steps (hH : History G s₀ s) (h : Views G s₀ s) (hs : Steps s a t) (n : NodeId)
    (ga : GlobalAddress) : t.log.Pairwise fun ev ev' => ∀ v w, ev.shows n ga = some v →
      ev' = .ret n (.read ga (some w)) → NoNewer (versions s₀ ga t.log) v w := by
  obtain ⟨ws, hws⟩ := hs.versions_append s₀ ga
  have hold : s.log.Pairwise fun ev ev' => ∀ v w, ev.shows n ga = some v →
      ev' = .ret n (.read ga (some w)) → NoNewer (versions s₀ ga t.log) v w := by
    refine (h.ordered n ga).imp fun hle v w hv hw => ?_
    rw [hws]
    exact (hle v w hv hw).append ws
  cases hs with
  | begin p op hidle hsus =>
    rw [State.begun_log, List.pairwise_append]
    refine ⟨hold, List.pairwise_singleton _ _, fun ev _ ev' hev' v w _ hw => ?_⟩
    rw [List.mem_singleton.mp hev'] at hw
    cases hw
  | accept q c y hc hm hidle => exact hold
  | exec p env e _ hm =>
    rw [Effect.apply_log] at hws ⊢
    rw [List.pairwise_append]
    refine ⟨hold, ?_, fun ev hev ev' hev' v w hv hw => ?_⟩
    · rcases hm.proceeds hH.suspends rfl with ⟨-, hin⟩ | ⟨es, o, op, hes, hin, -⟩
      · refine List.pairwise_of_forall_mem_list fun ev hev ev' _ v w hv => ?_
        rw [Event.shows_inner (hin ev hev)] at hv
        cases hv
      · rw [hes, List.pairwise_append]
        refine ⟨?_, List.pairwise_singleton _ _, fun ev hev ev' _ v w hv => ?_⟩
        · refine List.pairwise_of_forall_mem_list fun ev hev ev' _ v w hv => ?_
          rw [Event.shows_inner (hin ev hev)] at hv
          cases hv
        · rw [Event.shows_inner (hin ev hev)] at hv
          cases hv
    · subst hw
      obtain ⟨rfl, hga, ⟨-, hw⟩ | ⟨-, hf⟩⟩ := hm.returns_read hH.workload hev'
      · rw [hws]
        exact (hH.noNewer_home hga hw (h.seen n ga v (Or.inl ⟨ev, hev, hv⟩))).append ws
      · rw [hws]
        exact (h.found n ga w hf v (Or.inl ⟨ev, hev, hv⟩)).append ws

theorem Views.steps (hsize : ∀ ga, G ga → ga.size = size) (hH : History G s₀ s) (hT : History G s₀ t)
    (h : Views G s₀ s) (hs : Steps s a t) : Views G s₀ t :=
  ⟨fun _ _ _ _ hst => h.keyed_steps hH.workload hs hst,
    fun _ _ _ hctl _ _ hst => h.missing_steps hs hctl hst,
    fun _ _ _ hv => h.seen_steps hH hT hsize hs hv,
    fun _ _ _ _ hst => h.items_steps hH hT hsize hs hst,
    fun _ _ _ hf _ hv => h.found_steps hH hT hsize hs hf hv,
    h.ordered_steps hH hs⟩

end

theorem Initialised.not_seen (h : Initialised G s) : ¬ Seen s n ga v := by
  rintro (⟨ev, hev, -⟩ | hf | ⟨d, -, hst, -⟩)
  · rw [h.quiet.log] at hev
    cases hev
  · rw [h.quiet.idle n] at hf
    cases hf
  · rw [h.quiet.log] at hst
    cases hst

theorem Initialised.views (h : Initialised G s) : Views G s s := by
  refine ⟨fun n k ga c hst => ?_, fun n ph ga hctl => ?_, fun n ga v hv => absurd hv h.not_seen,
    fun n k ga c hst => ?_, fun n ga w hf => ?_, fun n ga => ?_⟩
  · obtain ⟨hn, hga, hk, -⟩ := h.copies n k ga c hst
    exact ⟨hga, hk, hn⟩
  · rw [h.quiet.idle n] at hctl
    cases hctl
  · obtain ⟨-, hga, -, -, hw⟩ := h.copies n k ga c hst
    exact Or.inl ⟨h.history.home_mem hga hw, fun v hv => absurd hv h.not_seen⟩
  · rw [h.quiet.idle n] at hf
    cases hf
  · rw [h.quiet.log]
    exact List.Pairwise.nil

end

/-- In every run of reads and writes of addresses of one size, a read returns a version of its address,
and it is not older than what its node has seen of that address in an earlier call. -/
theorem reads_monotonic {G : GlobalAddress → Prop} {size : UInt64} {s t : State} {as : List Action}
    (hs : Initialised G s) (hsize : ∀ ga, G ga → ga.size = size) (has : ∀ a ∈ as, a.accessesIn G)
    (ht : run step s as = some t) (n : NodeId) (ga : GlobalAddress) :
    (∀ w, .ret n (.read ga (some w)) ∈ t.log → w ∈ versions s ga t.log) ∧
    ∀ (i j : ℕ) (ev : Event) (v w : Word), i < j → t.log[i]? = some ev → ev.shows n ga = some v →
      t.log[j]? = some (.ret n (.read ga (some w))) → NoNewer (versions s ga t.log) v w := by
  have hall : History G s t ∧ Views G s t :=
    run_accesses (I := fun u => History G s u ∧ Views G s u)
      (fun u a v hu ha huv => ⟨hu.1.steps ha huv, hu.2.steps hsize hu.1 (hu.1.steps ha huv) huv⟩)
      ⟨hs.history, hs.views⟩ has ht
  obtain ⟨hH, hV⟩ := hall
  refine ⟨fun w hw => ?_, fun i j ev v w hij hi hv hj => ?_⟩
  · exact hV.seen n ga w (Or.inl ⟨_, hw, by simp [Event.shows]⟩)
  · obtain ⟨hi', rfl⟩ := List.getElem?_eq_some_iff.mp hi
    obtain ⟨hj', hj⟩ := List.getElem?_eq_some_iff.mp hj
    exact List.pairwise_iff_getElem.mp (hV.ordered n ga) i j hi' hj' hij v w hv hj

theorem run_readAgain_log : ∃ t, run step (.start homeBlock) readAgain = some t ∧
    t.log[5]? = some (.ret 2000 (.read homeAddress (some ⟨1, 0⟩))) ∧
    t.log[18]? = some (.ret 2000 (.read homeAddress (some ⟨9, 7⟩))) := by
  have hrun : (run step (.start homeBlock) readAgain).map (fun t => (t.log[5]?, t.log[18]?)) =
      some (some (.ret 2000 (.read homeAddress (some ⟨1, 0⟩))),
        some (.ret 2000 (.read homeAddress (some ⟨9, 7⟩)))) := by
    decide +kernel
  obtain ⟨t, ht, hall⟩ := Option.map_eq_some_iff.mp hrun
  rw [Prod.mk.injEq] at hall
  exact ⟨t, ht, hall⟩

theorem reads_monotonic_readAgain : ∃ t, run step (.start homeBlock) readAgain = some t ∧
    ⟨9, 7⟩ ∈ versions (.start homeBlock) homeAddress t.log ∧
    NoNewer (versions (.start homeBlock) homeAddress t.log) ⟨1, 0⟩ ⟨9, 7⟩ := by
  obtain ⟨t, ht, hfirst, hsecond⟩ := run_readAgain_log
  have has : ∀ a ∈ readAgain, a.accessesIn (· = homeAddress) := by
    simp [readAgain, readBy2000, writeBy3000, talk, go, Action.accessesIn]
  have hsize : ∀ ga, ga = homeAddress → ga.size = 8 := by
    rintro ga rfl
    rfl
  obtain ⟨hmem, hle⟩ := reads_monotonic initialised_homeBlock hsize has ht 2000 homeAddress
  refine ⟨t, ht, hmem _ (List.mem_of_getElem? hsecond), ?_⟩
  exact hle 5 18 _ _ _ (by decide) hfirst (by simp [Event.shows]) hsecond

end CacheCoherence.Protocol
