import CacheCoherence.Coherence.Freeing
import CacheCoherence.Coherence.LatestReads

/-! # Addresses that are handed out again

`Node::Free` invalidates the sharers in the record, and a node that caches its own write is not among them. While
every copy is listed when home takes up a Free, and nothing is copied from then on, the caches have nothing of a
freed address, and no read of its next allocation finds a value from before.
-/
namespace CacheCoherence.Protocol
open TransitionRuns

/-- A read that is called after a Free of its address returns no value that was stored at this place before. -/
def ReadsReclaimed (log : List Event) : Prop :=
  ∀ n ga w pre mid post, log = (pre ++ .freed ga :: mid) ++ .ret n (.read ga (some w)) :: post →
    .call n (.read ga) ∈ mid → ∀ m ga', ga'.id = ga.id → ga'.ptr = ga.ptr → .store m ga' w ∉ pre

def CopiesListed (s : State) (ga : GlobalAddress) : Prop :=
  ∀ n k c, (s.node n).cache.Stores k ga c → ∃ b, (s.node ga.id).mem ga.ptr = some b ∧ n ∈ b.record.sharerNodes

/-- The address of the item that a node puts into its cache in this step. -/
def State.caches (s : State) : Action → Option GlobalAddress
  | .exec n _ =>
    match (s.node n).ctl with
    | .exchange .connected (.performWrite d) => some d.ga
    | .exchange .waiting (.performRead ga) => some ga
    | _ => none
  | _ => none

/-- A Free that home takes up finds every copy in the record, and no node copies an address that home is freeing or
that is freed. -/
def FreesListed (s : State) (a : Action) : Prop :=
  (∀ ga ∈ s.takesFree a, CopiesListed s ga) ∧
    ∀ ga ∈ s.caches a, freed ga s.log = false ∧ (s.node ga.id).ctl.frees ≠ some ga

/-- The value was stored at the place of `ga` before a Free of `ga`. -/
def Stale (log : List Event) (ga : GlobalAddress) (w : Word) : Prop :=
  ∃ pre post m ga', log = pre ++ .freed ga :: post ∧ ga'.id = ga.id ∧ ga'.ptr = ga.ptr ∧ .store m ga' w ∈ pre

/-- The value can have been written at the place of `ga` only, and after every Free of `ga`. -/
structure Belongs (log : List Event) (ga : GlobalAddress) (w : Word) : Prop where
  stamp : w.stamp ≤ log.length
  place : ∀ m d, CallAt log m d → d.data = w → d.ga.id = ga.id ∧ d.ga.ptr = ga.ptr
  fresh : ¬ Stale log ga w

structure Reclaims (s : State) : Prop where
  sessions : Sessions s
  suspends : Suspends s
  calls : Calls s
  stores : StoreOrder s
  uncached : HomeUncached s
  homed : ∀ n, (s.node n).ctl.Homed n
  frees : FreesReturned s
  keyed : ∀ n k ga c, (s.node n).cache.Stores k ga c → k = ga.hash
  swept : ∀ n k ga c, (s.node ga.id).ctl.frees = some ga → (s.node n).cache.Stores k ga c → Ahead s n ga
  clean : ∀ ga, freed ga s.log = true → ∀ n k c, ¬ (s.node n).cache.Stores k ga c
  homeWord : ∀ ga b, (s.node ga.id).mem ga.ptr = some b → Belongs s.log ga b.record.data
  copyWord : ∀ n k ga c, (s.node n).cache.Stores k ga c → Belongs s.log ga c.word
  arriving : ∀ n ga w, Arriving s n ga w → ga.id = port ∧ ∃ b, (s.node port).mem ga.ptr = some b ∧ b.record.data = w
  found : ∀ n ga w, (s.node n).ctl.found = some (ga, .copy w) →
    ∀ pre mid, s.log = pre ++ .call n (.read ga) :: mid → ¬ Stale pre ga w
  reads : ReadsReclaimed s.log

section
variable {s t : State} {n m p : NodeId} {e : Effect} {env : Env} {x : Ctl} {ga ga' : GlobalAddress} {a : Action}
variable {k : UInt64} {c : Copy} {w : Word} {d : Data Word} {b : Block} {log es : List Event}

theorem Stale.append (h : Stale log ga w) (es : List Event) : Stale (log ++ es) ga w := by
  obtain ⟨pre, post, m, ga', rfl, hid, hptr, hmem⟩ := h
  exact ⟨pre, post ++ es, m, ga', by simp, hid, hptr, hmem⟩

theorem stale_append (hno : .freed ga ∉ es) (h : Stale (log ++ es) ga w) : Stale log ga w := by
  obtain ⟨pre, post, m, ga', hlog, hid, hptr, hmem⟩ := h
  obtain ⟨post', hold, -⟩ := split_old hlog hno
  exact ⟨pre, post', m, ga', hold, hid, hptr, hmem⟩

theorem Stale.stored (h : Stale log ga w) : ∃ m ga', .store m ga' w ∈ log ∧ ga'.id = ga.id ∧ ga'.ptr = ga.ptr := by
  obtain ⟨pre, post, m, ga', rfl, hid, hptr, hmem⟩ := h
  exact ⟨m, ga', List.mem_append_left _ hmem, hid, hptr⟩

theorem CallAt.of_append (h : CallAt (log ++ es) n d) (hle : d.data.stamp ≤ log.length) : CallAt log n d := by
  obtain ⟨hpos, hget⟩ := h
  exact ⟨hpos, by rwa [List.getElem?_append_left (by omega)] at hget⟩

theorem Belongs.append (h : Belongs log ga w) (hno : .freed ga ∉ es) : Belongs (log ++ es) ga w := by
  refine ⟨h.stamp.trans (by simp), fun m d hd hw => ?_, fun hs => h.fresh (stale_append hno hs)⟩
  subst hw
  exact h.place m d (hd.of_append h.stamp) rfl

theorem Pends.belongs (hsus : Suspends s) (hC : Calls s) (hO : StoreOrder s) (h : Pends s m d) (hid : d.ga.id = ga.id)
    (hptr : d.ga.ptr = ga.ptr) : Belongs s.log ga d.data := by
  have hat := hC.callAt (h.calling hsus)
  refine ⟨hat.stamp_le, fun m' d' hd' hw => ?_, fun hs => ?_⟩
  · obtain ⟨-, rfl⟩ := hat.unique hd' (by rw [hw])
    exact ⟨hid, hptr⟩
  · obtain ⟨m', ga', hmem, -⟩ := hs.stored
    exact hO.pending m d h m' ga' hmem

theorem belongs_alloc (hO : StoreOrder s) (hw : w.stamp = s.clock) (hno : .freed ga ∉ es) :
    Belongs (s.log ++ .alloc ga' w :: es) ga w := by
  have hw' : w.stamp = s.log.length + 1 := hw
  refine ⟨?_, fun m d hd hdw => ?_, fun hs => ?_⟩
  · rw [hw', List.length_append, List.length_cons]
    omega
  · obtain ⟨-, hget⟩ := hd
    rw [hdw, hw', Nat.add_sub_cancel, List.getElem?_append_right le_rfl] at hget
    simp at hget
  · obtain ⟨m, ga'', hmem, -⟩ := (stale_append (by simpa using hno) hs).stored
    obtain ⟨d, -, hdw, hat⟩ := hO.source m ga'' w hmem
    have hle := hat.stamp_le
    rw [hdw, hw'] at hle
    omega

theorem Steps.cached (hs : Steps s a t) (hst : (t.node p).cache.Stores k ga c) :
    (s.node p).cache.Stores k ga c ∨ ∃ env, a = .exec p env ∧ s.caches a = some ga := by
  cases hs with
  | begin n op hidle hsus =>
    rw [State.begun_node] at hst
    exact Or.inl hst
  | accept m n y hc hm hidle =>
    rw [State.accepted_node] at hst
    exact Or.inl hst
  | exec n env e _ hm =>
    by_cases hpn : p = n
    · subst hpn
      rw [Effect.apply_self] at hst
      cases hm.comes rfl hst with
      | kept hold => exact Or.inl hold
      | fetched w ch rest hctl => exact Or.inr ⟨env, rfl, by simp [State.caches, hctl]⟩
      | written d ch hctl hch hctl' hch' hga => exact Or.inr ⟨env, rfl, by simp [State.caches, hctl, hga]⟩
    · rw [Effect.apply_ne hpn] at hst
      exact Or.inl hst

theorem Steps.freed_event (hS : Sessions s) (hH : ∀ n, (s.node n).ctl.Homed n) (hs : Steps s a t)
    (hlog : t.log = s.log ++ es) (hmem : .freed ga ∈ es) :
    ∃ env client, a = .exec ga.id env ∧ (s.node ga.id).ctl = .discard ga client ∧ (t.node ga.id).mem ga.ptr = none := by
  cases hs with
  | begin n op hidle hsus =>
    rw [← List.append_cancel_left hlog] at hmem
    simp at hmem
  | accept m n y hc hm hidle =>
    have hnil : es = [] := by simpa using hlog
    rw [hnil] at hmem
    cases hmem
  | exec n env e _ hm =>
    rw [← List.append_cancel_left hlog] at hmem
    have hhome := hH n
    have hmemory := hm.memory hS rfl
    revert hmemory hhome
    generalize hx : (s.node n).ctl = x
    intro hhome hmemory
    cases hmemory with
    | same _ _ hsame hno => exact Bool.noConfusion (hno _ hmem)
    | alloc _ _ size ptr content es' hfor hblock hmem' hev hno =>
      rw [hev] at hmem
      rcases List.mem_cons.mp hmem with heq | hmem
      · cases heq
      · exact Bool.noConfusion (hno _ hmem)
    | discard _ ga' client es' hmem' hev hno =>
      rw [hev] at hmem
      rcases List.mem_cons.mp hmem with heq | hmem
      · cases heq
        obtain rfl : ga.id = n := hhome
        exact ⟨env, client, rfl, hx, by rw [Effect.apply_self, hmem', Function.update_self]⟩
      · exact Bool.noConfusion (hno _ hmem)
    | _ => simp at hmem

theorem copyRecord_mem_cases {ns : NodeState} {ptr q : UInt64} {r : SaveData Word}
    (h : (ns.copyRecord ptr r).mem q = some b) : ns.mem q = some b ∨ q = ptr ∧ b.record = r := by
  by_cases hq : q = ptr
  · subst hq
    rw [NodeState.copyRecord_mem_self] at h
    obtain ⟨b', -, rfl⟩ := Option.map_eq_some_iff.mp h
    exact Or.inr ⟨rfl, rfl⟩
  · rw [NodeState.copyRecord_mem_ne hq] at h
    exact Or.inl h

/-- What a step leaves at an address belongs there: it was there, it is a write that pended, or it is fresh. -/
theorem Reclaims.homeWord_steps (h : Reclaims s) (hs : Steps s a t) (hb : (t.node ga.id).mem ga.ptr = some b) :
    Belongs t.log ga b.record.data := by
  have hfreed : ∀ es, t.log = s.log ++ es → .freed ga ∉ es := by
    intro es hlog hmem
    obtain ⟨env, client, -, -, hnone⟩ := hs.freed_event h.sessions h.homed hlog hmem
    rw [hb] at hnone
    cases hnone
  cases hs with
  | begin n op hidle hsus =>
    rw [State.begun_node] at hb
    exact (h.homeWord ga b hb).append (hfreed _ rfl)
  | accept m n y hc hm hidle =>
    rw [State.accepted_node] at hb
    exact h.homeWord ga b hb
  | exec n env e _ hm =>
    have hno : .freed ga ∉ e.events := hfreed _ rfl
    by_cases hn : ga.id = n
    · have hkept : ∀ b', (s.node n).mem ga.ptr = some b' → b'.record.data = b.record.data →
          Belongs (e.apply s n).log ga b.record.data := by
        intro b' hb' hw
        rw [← hw]
        exact (h.homeWord ga b' (hn ▸ hb')).append hno
      have hpended : ∀ m d, Pends s m d → d.ga.id = n → ga.ptr = d.ga.ptr → b.record.data = d.data →
          Belongs (e.apply s n).log ga b.record.data := by
        intro m d hp hid hptr hw
        rw [hw]
        exact (hp.belongs h.suspends h.calls h.stores (hid.trans hn.symm) hptr.symm).append hno
      have hhome := h.homed n
      have hmemory := hm.memory h.sessions rfl
      rw [hn, Effect.apply_self] at hb
      revert hmemory hhome
      generalize hx : (s.node n).ctl = x
      intro hhome hmemory
      cases hmemory with
      | same _ _ hsame _ =>
        rw [hsame] at hb
        exact hkept b hb rfl
      | register m ga' b' hp hid hctl hch hb' =>
        rcases copyRecord_mem_cases hb with hold | ⟨hptr, hr⟩
        · exact hkept b hold rfl
        · exact hkept b' (hptr ▸ hb') (by rw [hr]; rfl)
      | take m d b' hp hid hctl hch hb' =>
        rcases copyRecord_mem_cases hb with hold | ⟨hptr, hr⟩
        · exact hkept b hold rfl
        · refine hpended m d (Or.inr ⟨by rw [hctl]; rfl, ?_⟩) (hid.trans hp.symm) hptr (by rw [hr]; rfl)
          intro ch sga hch' hmem
          rw [hch] at hch'
          cases hch'
          cases hmem
      | takeShared m d nodes ch b' hsent hch hna hb' =>
        rcases copyRecord_mem_cases hb with hold | ⟨hptr, hr⟩
        · exact hkept b hold rfl
        · refine hpended m d (Or.inr ⟨hsent, ?_⟩) hhome hptr (by rw [hr]; rfl)
          intro ch' sga hch' hmem
          rw [hch] at hch'
          cases hch'
          exact hna sga hmem
      | memcpy d b' hb' =>
        rcases copyRecord_mem_cases hb with hold | ⟨hptr, hr⟩
        · exact hkept b hold rfl
        · exact hpended n d (Or.inl (by rw [hx]; rfl)) hhome hptr (by rw [hr]; rfl)
      | alloc _ _ size ptr content es hfor hblock hmem hev =>
        rw [hmem] at hb
        by_cases hptr : ga.ptr = ptr
        · rw [hptr, Function.update_self] at hb
          cases hb
          rw [Effect.apply_log, hev]
          rw [hev] at hno
          exact belongs_alloc h.stores rfl (fun hmem => hno (List.mem_cons_of_mem _ hmem))
        · rw [Function.update_of_ne hptr] at hb
          exact hkept b hb rfl
      | discard _ ga' client es hmem =>
        rw [hmem] at hb
        by_cases hptr : ga.ptr = ga'.ptr
        · rw [hptr, Function.update_self] at hb
          cases hb
        · rw [Function.update_of_ne hptr] at hb
          exact hkept b hb rfl
    · rw [Effect.apply_ne hn] at hb
      exact (h.homeWord ga b hb).append hno

/-- While home is freeing an address, whoever caches it is still to be invalidated. -/
theorem Reclaims.swept_steps (h : Reclaims s) (hC : FreesListed s a) (hs : Steps s a t)
    (hf : (t.node ga.id).ctl.frees = some ga) (hst : (t.node n).cache.Stores k ga c) (hk : k = ga.hash) :
    Ahead t n ga := by
  rcases hs.frees hf with hold | ⟨env, rfl, htakes, hcache, b, hb, hahead⟩
  · rcases hs.cached hst with hkept | ⟨env, rfl, hcaches⟩
    · rcases (h.swept n k ga c hold hkept).steps h.sessions hs with hahead | hgone
      · exact hahead
      · rw [hk] at hst
        exact absurd hst (hgone ga c)
    · exact absurd hold (hC.2 ga hcaches).2
  · rw [hcache] at hst
    obtain ⟨b', hb', hmem⟩ := hC.1 ga htakes n k c hst
    obtain rfl : b = b' := Option.some.inj (hb.symm.trans hb')
    exact hahead n hmem _

theorem Reclaims.freed_steps (h : Reclaims s) (hs : Steps s a t) (hlog : t.log = s.log ++ es) (hmem : .freed ga ∈ es)
    (hst : (t.node n).cache.Stores k ga c) : False := by
  obtain ⟨env, client, rfl, hctl, -⟩ := hs.freed_event h.sessions h.homed hlog hmem
  rcases hs.cached hst with hkept | ⟨env', heq, hcaches⟩
  · have hahead := h.swept n k ga c (by rw [hctl]; rfl) hkept
    rw [Ahead, hctl] at hahead
    exact hahead
  · cases heq
    simp [State.caches, hctl] at hcaches

theorem Reclaims.clean_steps (h : Reclaims s) (hC : FreesListed s a) (hs : Steps s a t) (hf : freed ga t.log = true) :
    ¬ (t.node n).cache.Stores k ga c := by
  intro hst
  obtain ⟨es, hlog⟩ := hs.log_append
  rw [hlog] at hf
  rcases freed_or_mem hf with hold | hmem
  · rcases hs.cached hst with hkept | ⟨env, rfl, hcaches⟩
    · exact h.clean ga hold n k c hkept
    · rw [(hC.2 ga hcaches).1] at hold
      cases hold
  · exact h.freed_steps hs hlog hmem hst

theorem Reclaims.copyWord_steps (h : Reclaims s) (hs : Steps s a t) (hst : (t.node n).cache.Stores k ga c) :
    Belongs t.log ga c.word := by
  obtain ⟨es, hlog⟩ := hs.log_append
  have hno : .freed ga ∉ es := fun hmem => h.freed_steps hs hlog hmem hst
  rw [hlog]
  refine Belongs.append ?_ hno
  cases hs.comes hst with
  | kept hold => exact h.copyWord n k ga c hold
  | fetched w ch rest hctl hch hd hctl' hk hw =>
    obtain ⟨hid, b, hb, rfl⟩ := h.arriving n ga w ⟨hctl, ch, rest, hch, hd⟩
    rw [hw]
    exact h.homeWord ga b (hid ▸ hb)
  | written d ch hctl hch hctl' hch' hga hk hw =>
    subst hga
    rw [hw]
    exact Pends.belongs h.suspends h.calls h.stores (Or.inl (by rw [hctl]; rfl)) rfl rfl

theorem Reclaims.keyed_steps (h : Reclaims s) (hs : Steps s a t) (hst : (t.node n).cache.Stores k ga c) :
    k = ga.hash := by
  cases hs.comes hst with
  | kept hold => exact h.keyed n k ga c hold
  | fetched w ch rest hctl hch hd hctl' hk => exact hk
  | written d ch hctl hch hctl' hch' hga hk => exact hk

theorem Reclaims.arriving_steps (h : Reclaims s) (hs : Steps s a t) (ha : Arriving t n ga w) :
    ga.id = port ∧ ∃ b, (t.node port).mem ga.ptr = some b ∧ b.record.data = w := by
  rcases hs.arriving h.sessions h.uncached ha with ⟨hold, hmem⟩ | ⟨hid, b, hb, hw, hmem⟩
  · rw [hmem]
    exact h.arriving n ga w hold
  · refine ⟨hid, { b with record := b.record.register n }, ?_, hw⟩
    rw [hmem, NodeState.copyRecord_mem_self, hb]
    rfl

theorem hash_injOn_place (hid : ga.id = ga'.id) (hptr : ga.ptr = ga'.ptr) (hk : ga.hash = ga'.hash) : ga = ga' := by
  have hsize : ga.size = ga'.size := by
    simpa [GlobalAddress.hash, hid, hptr] using hk
  exact GlobalAddress.hash_injOn hsize hid hk

/-- A hit under the key of an address gives no stale value of it, whatever address the item has. -/
theorem Reclaims.hit (h : Reclaims s) (hst : (s.node n).cache.Stores ga.hash ga' c) : ¬ Stale s.log ga c.word := by
  have hbelongs := h.copyWord n _ ga' c hst
  intro hstale
  obtain ⟨m, ga'', hmem, hid, hptr⟩ := hstale.stored
  obtain ⟨d, rfl, hw, hat⟩ := h.stores.source m ga'' c.word hmem
  obtain ⟨hid', hptr'⟩ := hbelongs.place m d hat hw
  obtain rfl : ga = ga' := hash_injOn_place (hid.symm.trans hid') (hptr.symm.trans hptr') (h.keyed n _ ga' c hst)
  exact hbelongs.fresh hstale

theorem Reclaims.found_steps (h : Reclaims s) (hs : Steps s a t) (hf : (t.node n).ctl.found = some (ga, .copy w))
    {pre mid : List Event} (hlog : t.log = pre ++ .call n (.read ga) :: mid) : ¬ Stale pre ga w := by
  have hcase := hs.obtains hf
  have hbusy : (s.node n).ctl ≠ .idle := by
    intro hidle
    rcases hcase with hold | hfind
    · rw [hidle] at hold
      cases hold
    · generalize hff : Found.copy w = f at hfind
      cases hfind with
      | own b hctl =>
        rw [hidle] at hctl
        cases hctl
      | hit ga' c hctl =>
        rw [hidle] at hctl
        cases hctl
      | fetch w harr =>
        rw [Arriving, hidle] at harr
        cases harr.1
  obtain ⟨es, hes, hno⟩ := hs.no_call h.suspends hbusy
  obtain ⟨mid', hold, -⟩ := split_old (hes.symm.trans hlog) (hno _)
  rcases hcase with hcarried | hfind
  · exact h.found n ga w hcarried pre mid' hold
  · intro hstale
    have hstale' : Stale s.log ga w := hold ▸ hstale.append _
    generalize hff : Found.copy w = f at hfind
    cases hfind with
    | own b hctl hid hb => cases hr : b.record.readable <;> simp [hr] at hff
    | hit ga' c hctl hst =>
      cases hff
      exact h.hit hst hstale'
    | fetch w harr =>
      cases hff
      obtain ⟨hid, b, hb, rfl⟩ := h.arriving n ga w harr
      exact (h.homeWord ga b (hid ▸ hb)).fresh hstale'

theorem Reclaims.reads_steps (h : Reclaims s) (hs : Steps s a t) : ReadsReclaimed t.log := by
  intro n ga w pre mid post hlog hcall m ga' hid hptr
  obtain ⟨es, hes⟩ := hs.log_append
  rcases split_append (hes.symm.trans hlog) with ⟨post', hold, -⟩ | ⟨fs, hpast, hnew⟩
  · exact h.reads n ga w pre mid post' hold hcall m ga' hid hptr
  · cases hs with
    | begin p op hidle hsus =>
      rw [← List.append_cancel_left hes] at hnew
      cases fs <;> simp at hnew
    | accept q p y hc hm hidle =>
      have hnil : es = [] := by simpa using hes
      rw [hnil] at hnew
      simp at hnew
    | exec p env e _ hm =>
      have heq : e.events = fs ++ .ret n (.read ga (some w)) :: post := (List.append_cancel_left hes).trans hnew
      have hret : .ret n (.read ga (some w)) ∈ e.events := by
        rw [heq]
        exact List.mem_append_right fs List.mem_cons_self
      obtain ⟨rfl, acc, hacc, hout⟩ := hm.granted hret rfl
      obtain ⟨mid₁, mid₂, rfl⟩ := List.append_of_mem hcall
      have hsplit : s.log ++ fs = (pre ++ .freed ga :: mid₁) ++ .call n (.read ga) :: mid₂ := by
        rw [← hpast]
        simp
      have hno : .call n (.read ga) ∉ fs := by
        intro hmem
        exact hm.no_call h.suspends n _ (by rw [heq]; exact List.mem_append_left _ hmem)
      obtain ⟨mid', hold, -⟩ := split_old hsplit hno
      intro hmem
      have hstale : Stale (pre ++ .freed ga :: mid₁) ga w := ⟨pre, mid₁, m, ga', rfl, hid, hptr, hmem⟩
      cases acc with
      | write d r => cases hout
      | read ga'' f =>
        simp only [Accessed.outcome, Option.map_eq_some_iff] at hout
        obtain ⟨w', hw', heq'⟩ := hout
        cases heq'
        have hfound := found_of_released hacc
        cases f with
        | null => cases hw'
        | copy w' =>
          cases hw'
          exact h.found n ga w hfound _ mid' hold hstale
        | record ptr =>
          obtain ⟨hhome, rfl⟩ := (h.homed n).found hfound
          obtain ⟨b, hb, rfl⟩ := Option.map_eq_some_iff.mp hw'
          exact (h.homeWord ga b (hhome ▸ hb)).fresh (hold ▸ hstale.append _)

theorem Reclaims.steps (h : Reclaims s) (hC : FreesListed s a) (hs : Steps s a t) : Reclaims t where
  sessions := h.sessions.steps hs
  suspends := h.suspends.steps hs
  calls := h.calls.steps h.suspends hs
  stores := h.stores.steps h.sessions h.suspends h.calls hs
  uncached := h.uncached.steps h.sessions hs
  homed := homed_steps h.homed hs
  frees := h.frees.steps h.sessions h.suspends hs
  keyed := fun _ _ _ _ hst => h.keyed_steps hs hst
  swept := fun _ _ _ _ hf hst => h.swept_steps hC hs hf hst (h.keyed_steps hs hst)
  clean := fun _ hf _ _ _ => h.clean_steps hC hs hf
  homeWord := fun _ _ hb => h.homeWord_steps hs hb
  copyWord := fun _ _ _ _ hst => h.copyWord_steps hs hst
  arriving := fun _ _ _ ha => h.arriving_steps hs ha
  found := fun _ _ _ hf _ _ hlog => h.found_steps hs hf hlog
  reads := h.reads_steps hs

end

def unallocated : State := .start fun _ _ => none

theorem reclaims_unallocated : Reclaims unallocated where
  sessions := (State.quiet_start _).sessions
  suspends := (State.quiet_start _).suspends
  calls := (State.quiet_start _).calls
  stores := (State.quiet_start _).storeOrder
  uncached := fun _ _ _ hst => Cache.stores_new hst
  homed := fun _ => trivial
  frees := (State.quiet_start _).freesReturned
  keyed := fun _ _ _ _ hst => absurd hst Cache.stores_new
  swept := fun _ _ _ _ _ hst => absurd hst Cache.stores_new
  clean := fun _ hf => by cases hf
  homeWord := fun _ _ hb => by cases hb
  copyWord := fun _ _ _ _ hst => absurd hst Cache.stores_new
  arriving := fun _ _ _ ha => by cases ha.1
  found := fun _ _ _ hf => by cases hf
  reads := fun _ _ _ _ _ _ hlog => by simp [unallocated, State.start] at hlog

def mallocBy3000 : List Action := [.begin 3000 (.malloc 8), .exec 3000 ⟨0, some (4096, .written 0 3000)⟩]

end CacheCoherence.Protocol
