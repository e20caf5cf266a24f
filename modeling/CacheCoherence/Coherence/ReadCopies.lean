import CacheCoherence.Coherence.Sweeps

/-! # Copies obtained by reading

A copy from the miss path of `performRead` is in the directory, or a broadcast is about to remove it.
-/
namespace CacheCoherence.Protocol
open TransitionRuns VersionOrder

/-- The copies that reads have left in the caches. -/
structure ReadCopies (G : GlobalAddress → Prop) (s₀ s : State) : Prop where
  keyed : ∀ n k ga v, (s.node n).cache.Stores k ga v → v.fetched = true → G ga ∧ k = ga.hash ∧ n ≠ port
  covered : ∀ n k ga v, (s.node n).cache.Stores k ga v → v.fetched = true → Registered s n ga v.word ∨
    Ahead s n ga ∧ ∃ d m, (s.node port).ctl.sweeps = some (d, m) ∧
      ∀ u ∈ versions s₀ ga s.log, u = d.data ∨ NoNewer (versions s₀ ga s.log) u v.word
  swept : ∀ d, (s.node port).ctl.decided = some d →
    ∀ n k v, (s.node n).cache.Stores k d.ga v → v.fetched = true → Ahead s n d.ga

section
variable {G : GlobalAddress → Prop} {s t s₀ : State} {n m p : NodeId} {e : Effect} {env : Env} {x : Ctl}
variable {d : Data Word} {ga : GlobalAddress} {k : UInt64} {v : Copy} {a : Action}

theorem Steps.fetched (hs : Steps s a t) (hst : (t.node n).cache.Stores k ga v) (hv : v.fetched = true) :
    (s.node n).cache.Stores k ga v ∨ k = ga.hash ∧ Arriving s n ga v.word := by
  cases hs.comes hst with
  | kept hold => exact Or.inl hold
  | fetched w ch rest hctl hch hd _ hk hw =>
    subst hw
    exact Or.inr ⟨hk, hctl, ch, rest, hch, hd⟩
  | written d ch _ _ _ _ _ _ hw =>
    subst hw
    cases hv

theorem ReadCopies.keyed_steps (h : ReadCopies G s₀ s) (hW : Workload G s) (hs : Steps s a t)
    (hst : (t.node n).cache.Stores k ga v) (hv : v.fetched = true) : G ga ∧ k = ga.hash ∧ n ≠ port := by
  rcases hs.fetched hst hv with hold | ⟨hk, harr⟩
  · exact h.keyed n k ga v hold hv
  · obtain ⟨hga, hn⟩ := harr.address hW
    exact ⟨hga, hk, hn⟩

theorem not_arriving_of_decided (hS : Sessions s) (hd : (s.node port).ctl.decided = some d) {w : Word} :
    ¬ Arriving s n ga w := by
  intro harr
  rw [(harr.serving hS).1] at hd
  cases hd

theorem Ahead.sweeps_moves (hH : History G s₀ s) (hm : Moves s p env (s.node p).ctl e)
    (hsw : (s.node port).ctl.sweeps = some (d, m)) (hga : ga.id = port) (ha : Ahead (e.apply s p) n ga) :
    ((e.apply s p).node port).ctl.sweeps = some (d, m) ∧ versions s₀ ga (e.apply s p).log = versions s₀ ga s.log := by
  constructor
  · by_cases hp : port = p
    · subst hp
      rw [ahead_port hga, Effect.apply_self] at ha
      rw [Effect.apply_self]
      cases hm.phases hH.sessions hH.workload rfl with
      | plain hno => exact absurd ha (hno _ _ _)
      | along hs => rw [hs, hsw]
      | decide d' b hx =>
        rw [hx] at hsw
        cases hsw
      | take c d' b srcID hx =>
        rw [hx] at hsw
        cases hsw
      | sweep c d' nodes srcID hx =>
        rw [hx] at hsw
        cases hsw
    · rw [Effect.apply_ne hp, hsw]
  · have hquiet : ∀ m ga w, .store m ga w ∉ e.events := by
      have hhome := hm.home hH.sessions hH.workload rfl
      have hsw' : p = port → (s.node p).ctl.sweeps = some (d, m) := by
        rintro rfl
        exact hsw
      revert hhome hsw'
      generalize (s.node p).ctl = y
      intro hhome hsw'
      cases hhome with
      | same _ _ _ hno => exact hno
      | register _ _ _ hn => cases hsw' hn
      | take _ _ _ hn => cases hsw' hn
      | takeShared _ _ _ _ _ hn => cases hsw' hn
      | memcpy _ _ hn => cases hsw' hn
    rw [Effect.apply_log, versions_append, stored_nil hquiet, List.append_nil]

/-- A registered copy after a move is still registered, or home has just begun to sweep it. -/
theorem ReadCopies.registered_moves (hH : History G s₀ s) (h : ReadCopies G s₀ s)
    (hm : Moves s p env (s.node p).ctl e) (hst : (s.node n).cache.Stores k ga v) (hv : v.fetched = true)
    (hreg : Registered s n ga v.word) : Registered (e.apply s p) n ga v.word ∨
    Ahead (e.apply s p) n ga ∧ ∃ d m, ((e.apply s p).node port).ctl.sweeps = some (d, m) ∧
      ∀ u ∈ versions s₀ ga (e.apply s p).log, u = d.data ∨ NoNewer (versions s₀ ga (e.apply s p).log) u v.word := by
  obtain ⟨hga, -, -⟩ := h.keyed n k ga v hst hv
  have hid := hH.workload.home ga hga
  have hhome := hm.home hH.sessions hH.workload rfl
  obtain ⟨b, hb, hmem, hw⟩ := hreg
  rcases hhome.mem hH.workload hga with ⟨hsame, -⟩ | ⟨hp, b', r, hb', hnew, -, ⟨⟨c, rfl⟩, -⟩ | ⟨m, w, hev, -⟩⟩
  · exact Or.inl (Registered.congr ⟨b, hb, hmem, hw⟩ hsame)
  · obtain rfl : b = b' := Option.some.inj (hb.symm.trans hb')
    exact Or.inl ⟨_, hnew, List.mem_append_left _ hmem, hw⟩
  · subst hp
    revert hhome
    generalize hx : (s.node port).ctl = y
    intro hhome
    cases hhome with
    | same _ _ _ hno => exact absurd (by rw [hev]; exact List.mem_singleton_self _) (hno m ga w)
    | register _ _ _ _ _ _ _ _ => cases hev
    | take c d b₁ _ hd _ _ hb₁ hnil =>
      cases hev
      obtain rfl : b = b₁ := Option.some.inj (hb.symm.trans hb₁)
      rw [hnil] at hmem
      cases hmem
    | takeShared c d nodes ch b₁ _ hd _ _ _ hb₁ =>
      cases hev
      obtain ⟨b₂, hb₂, hnodes⟩ := hH.taken m d nodes m hx
      obtain rfl : b = b₂ := Option.some.inj (hb.symm.trans hb₂)
      right
      refine ⟨?_, d, m, by rw [Effect.apply_self]; rfl, ?_⟩
      · rw [ahead_port hid, Effect.apply_self]
        exact ⟨rfl, by rw [← hnodes]; exact hmem⟩
      · intro u hu
        rw [Effect.apply_log, versions_append, stored_self] at hu ⊢
        rcases List.mem_append.mp hu with hu | hu
        · have hword : s.homeWord d.ga = some v.word := Registered.homeWord ⟨b, hb, hmem, hw⟩
          exact Or.inr ((hH.noNewer_home hga hword hu).append _)
        · exact Or.inl (List.mem_singleton.mp hu)
    | memcpy d b₁ _ hd hb₁ =>
      cases hev
      have hahead := h.swept d (by rw [hx]; rfl) n k v hst hv
      rw [ahead_port hid, hx] at hahead
      exact absurd hahead id

theorem ReadCopies.covered_steps (hH : History G s₀ s) (h : ReadCopies G s₀ s) (hs : Steps s a t)
    (hst : (t.node n).cache.Stores k ga v) (hv : v.fetched = true) : Registered t n ga v.word ∨
    Ahead t n ga ∧ ∃ d m, (t.node port).ctl.sweeps = some (d, m) ∧
      ∀ u ∈ versions s₀ ga t.log, u = d.data ∨ NoNewer (versions s₀ ga t.log) u v.word := by
  obtain ⟨hga, hk, hn⟩ := h.keyed_steps hH.workload hs hst hv
  have hid := hH.workload.home ga hga
  rcases hs.fetched hst hv with hold | ⟨-, harr⟩
  · rcases h.covered n k ga v hold hv with hreg | ⟨hahead, d, m, hsw, hver⟩
    · cases hs with
      | begin q op hidle hsus => exact Or.inl (hreg.congr (by rw [State.begun_node]; rfl))
      | accept q c y hc hm hidle => exact Or.inl (hreg.congr (by rw [State.accepted_node]; rfl))
      | exec q env e _ hm => exact h.registered_moves hH hm hold hv hreg
    · rcases hahead.steps hH.sessions hs with hahead' | hno
      · right
        refine ⟨hahead', d, m, ?_⟩
        cases hs with
        | begin q op hidle hsus =>
          have hq : port ≠ q := by
            rintro rfl
            rw [hidle] at hsw
            cases hsw
          rw [State.begun_ne hq, State.begun_log, versions_append]
          exact ⟨hsw, by rw [show stored ga [.call q (op.stamp s.clock)] = [] from rfl, List.append_nil]; exact hver⟩
        | accept q c y hc hm hidle =>
          refine ⟨?_, hver⟩
          by_cases hpc : port = c
          · subst hpc
            rw [hc] at hsw
            rw [State.accepted_client]
            cases y <;> exact hsw
          · have hq : port ≠ q := by
              rintro rfl
              rw [hidle] at hsw
              cases hsw
            rw [State.accepted_ne hpc hq, hsw]
        | exec q env e _ hm =>
          obtain ⟨hsw', hver'⟩ := hahead'.sweeps_moves hH hm hsw hid
          rw [hver']
          exact ⟨hsw', hver⟩
      · rw [hk] at hst
        exact absurd hst (hno ga v)
  · have hreg := hH.arriving n ga v.word harr
    cases hs with
    | begin q op hidle hsus => exact Or.inl (hreg.congr (by rw [State.begun_node]; rfl))
    | accept q c y hc hm hidle => exact Or.inl (hreg.congr (by rw [State.accepted_node]; rfl))
    | exec q env e _ hm =>
      have hq : port ≠ q := by
        rintro rfl
        exact harr.home_waits hH.sessions hm
      exact Or.inl (hreg.congr (by rw [Effect.apply_ne hq]))

theorem ReadCopies.swept_steps (hH : History G s₀ s) (h : ReadCopies G s₀ s) (hs : Steps s a t)
    (hd : (t.node port).ctl.decided = some d) (hst : (t.node n).cache.Stores k d.ga v) (hv : v.fetched = true) :
    Ahead t n d.ga := by
  obtain ⟨hga, hk, hn⟩ := h.keyed_steps hH.workload hs hst hv
  have hid := hH.workload.home d.ga hga
  have hkeep : (s.node port).ctl.decided = some d → Ahead t n d.ga := by
    intro hold
    rcases hs.fetched hst hv with hst' | ⟨-, harr⟩
    · rcases (h.swept d hold n k v hst' hv).steps hH.sessions hs with hahead | hno
      · exact hahead
      · rw [hk] at hst
        exact absurd hst (hno d.ga v)
    · exact absurd harr (not_arriving_of_decided hH.sessions hold)
  rcases hs.decided hH.sessions hH.workload hd with hold | ⟨env, b, -, hx, hb, hctl, hothers⟩
  · exact hkeep hold
  · rw [hothers n hn] at hst
    rcases h.covered n k d.ga v hst hv with ⟨b', hb', hmem, -⟩ | ⟨hahead, -⟩
    · obtain rfl : b = b' := Option.some.inj (hb.symm.trans hb')
      have hwi := hH.workload.invalidates hga hb hmem
      rw [ahead_port hid, hctl, hwi]
      exact ⟨rfl, hmem⟩
    · rw [ahead_port hid, hx] at hahead
      exact absurd hahead id

theorem ReadCopies.steps (hH : History G s₀ s) (h : ReadCopies G s₀ s) (hs : Steps s a t) : ReadCopies G s₀ t :=
  ⟨fun _ _ _ _ hst hv => h.keyed_steps hH.workload hs hst hv,
    fun _ _ _ _ hst hv => h.covered_steps hH hs hst hv,
    fun _ hd _ _ _ hst hv => h.swept_steps hH hs hd hst hv⟩

/-- A write that has returned is not the one home is still invalidating for, so no copy is older. -/
theorem ReadCopies.noNewer (hH : History G s₀ s) (h : ReadCopies G s₀ s) {r : GlobalAddress}
    (hret : .ret m (.write d (some r)) ∈ s.log) (hst : (s.node n).cache.Stores k d.ga v) (hv : v.fetched = true) :
    NoNewer (versions s₀ d.ga s.log) d.data v.word := by
  obtain ⟨hga, -, -⟩ := h.keyed n k d.ga v hst hv
  have hmem : d.data ∈ versions s₀ d.ga s.log :=
    List.mem_append_right _ (mem_stored.mpr ⟨m, hH.stores.returned m d r hret⟩)
  rcases h.covered n k d.ga v hst hv with hreg | ⟨-, d', m', hsw, hver⟩
  · exact hH.noNewer_home hga hreg.homeWord hmem
  · rcases hver d.data hmem with heq | hle
    · have hcalling := (hH.detained d' m' hsw).calling hH.suspends
      obtain ⟨hat, hne⟩ := hH.calls.returned m d _ hret
      obtain ⟨rfl, rfl⟩ := hat.unique (hH.calls.callAt hcalling) (by rw [heq])
      exact absurd hcalling hne
    · exact hle

theorem Initialised.readCopies (h : Initialised G s) : ReadCopies G s s := by
  refine ⟨fun n k ga v hst hv => ?_, fun n k ga v hst hv => ?_, fun d hd => ?_⟩
  · obtain ⟨-, -, -, hno, -⟩ := h.copies n k ga v hst
    rw [hno] at hv
    cases hv
  · obtain ⟨-, -, -, hno, -⟩ := h.copies n k ga v hst
    rw [hno] at hv
    cases hv
  · rw [h.quiet.idle port] at hd
    cases hd

end

/-- In every run of reads and writes a read-obtained copy is registered at home with home's value, or its
node is still ahead in a broadcast; and none is older than a write that has returned. -/
theorem readCopies_registered {G : GlobalAddress → Prop} {s t : State} {as : List Action}
    (hs : Initialised G s) (has : ∀ a ∈ as, a.accessesIn G) (ht : run step s as = some t) :
    (∀ n k ga v, (t.node n).cache.Stores k ga v → v.fetched = true → Registered t n ga v.word ∨ Ahead t n ga) ∧
    ∀ m d result, .ret m (.write d (some result)) ∈ t.log →
      ∀ n k v, (t.node n).cache.Stores k d.ga v → v.fetched = true →
        NoNewer (versions s d.ga t.log) d.data v.word := by
  have hall : History G s t ∧ ReadCopies G s t :=
    run_accesses (I := fun u => History G s u ∧ ReadCopies G s u)
      (fun u a v hu ha huv => ⟨hu.1.steps ha huv, hu.2.steps hu.1 huv⟩) ⟨hs.history, hs.readCopies⟩ has ht
  obtain ⟨hH, hR⟩ := hall
  refine ⟨fun n k ga v hst hv => ?_, fun m d result hret n k v hst hv => hR.noNewer hH hret hst hv⟩
  exact (hR.covered n k ga v hst hv).imp id And.left

theorem run_readAgain : ∃ t, run step (.start homeBlock) readAgain = some t ∧
    (t.node 2000).cache.Stores homeAddress.hash homeAddress ⟨⟨9, 7⟩, true⟩ ∧
    .ret 3000 (.write ⟨8, ⟨9, 7⟩, homeAddress⟩ (some homeAddress)) ∈ t.log := by
  have hrun : (run step (.start homeBlock) readAgain).map (fun t =>
      ((t.node 2000).cache.items[homeAddress.hash]?.map fun it => (it.globalAddress, it.data),
        decide (.ret 3000 (.write ⟨8, ⟨9, 7⟩, homeAddress⟩ (some homeAddress)) ∈ t.log))) =
      some (some (homeAddress, ⟨⟨9, 7⟩, true⟩), true) := by decide +kernel
  obtain ⟨t, ht, hall⟩ := Option.map_eq_some_iff.mp hrun
  simp only [Prod.mk.injEq, decide_eq_true_eq, Option.map_eq_some_iff] at hall
  obtain ⟨⟨it, hit, hga, hdata⟩, hret⟩ := hall
  exact ⟨t, ht, ⟨it, hit, hga, hdata⟩, hret⟩

theorem readCopies_registered_readAgain : ∃ t, run step (.start homeBlock) readAgain = some t ∧
    (Registered t 2000 homeAddress ⟨9, 7⟩ ∨ Ahead t 2000 homeAddress) ∧
    NoNewer (versions (.start homeBlock) homeAddress t.log) ⟨9, 7⟩ ⟨9, 7⟩ := by
  obtain ⟨t, ht, hst, hret⟩ := run_readAgain
  have has : ∀ a ∈ readAgain, a.accessesIn (· = homeAddress) := by
    simp [readAgain, readBy2000, writeBy3000, talk, go, Action.accessesIn]
  obtain ⟨hcovered, hnewer⟩ := readCopies_registered initialised_homeBlock has ht
  exact ⟨t, ht, hcovered 2000 _ _ _ hst rfl, hnewer 3000 ⟨8, ⟨9, 7⟩, homeAddress⟩ _ hret 2000 _ _ hst rfl⟩

end CacheCoherence.Protocol
