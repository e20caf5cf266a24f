import CacheCoherence.Caching.Calls
import CacheCoherence.Coherence.Freeing
import CacheCoherence.Coherence.Memory

/-! # Why a node crashes

`performRead` returns null for a record in an unknown state, which its callers follow, and `addCacheItem` does not
return when it finds no room: it ends the process when the item is too large, and evicts for ever when no eviction
helps. Apart from exceptions of the network, which are no steps here, nothing else stops a node for good.
-/
namespace CacheCoherence.Cache
variable {V : Type} {c : Cache V} {ga : GlobalAddress} {ci : CacheItem V}

def Takes (c : Cache V) (size : UInt64) : Prop := size ≤ c.maxsize ∧ EvictionEnds c size

theorem addCacheItem_eq_none_iff : c.addCacheItem ga ci = none ↔ ¬ c.Takes ga.size := by
  by_cases hsize : ga.size ≤ c.maxsize
  · have hends : (c.addCacheItem ga ci).isSome ↔ EvictionEnds c ga.size := addCacheItem_isSome_iff hsize
    rw [Takes, ← hends]
    simp [hsize]
  · simp [addCacheItem, Takes, hsize]

theorem alterCacheItem_eq_none_iff : c.alterCacheItem ci ga = none ↔ ga.hash ∉ c.items ∧ ¬ c.Takes ga.size := by
  by_cases hkey : ga.hash ∈ c.items
  · simp [alterCacheItem, hkey]
  · simp [alterCacheItem, hkey, addCacheItem_eq_none_iff]

end CacheCoherence.Cache

namespace CacheCoherence.Protocol
open TransitionRuns

/-- The thread is at a step that ends its process or never ends: it serves a READ of a record in an unknown state, or
returns from a read of one, or puts an item into its cache that finds no room. -/
inductive Crashes (s : State) (n : NodeId) : Prop where
  | served (c : NodeId) (ch : Channel) (sga : SendGlobalAddr) (b : Block) : (s.node n).ctl = .serving c →
      s.net c = some ch → ch.up = some (.read sga) → sga.id = n → (s.node n).mem sga.ptr = some b →
      b.record.readable = false → Crashes s n
  | returned (ga : GlobalAddress) (b : Block) : (s.node n).ctl.found = some (ga, .null) → ga.id = n →
      (s.node n).mem ga.ptr = some b → b.record.readable = false → Crashes s n
  | alters (d : Data Word) : (s.node n).ctl = .exchange .connected (.performWrite d) →
      d.ga.hash ∉ (s.node n).cache.items → ¬ (s.node n).cache.Takes d.ga.size → Crashes s n
  | adds (ga : GlobalAddress) : (s.node n).ctl = .exchange .waiting (.performRead ga) →
      ¬ (s.node n).cache.Takes ga.size → Crashes s n

/-- A record that a thread has found stays where it is until the thread follows the pointer, and stays as it is if
the pointer is null. -/
structure Held (s : State) : Prop where
  sessions : Sessions s
  found : ∀ n ga ptr, (s.node n).ctl.found = some (ga, .record ptr) → (s.node n).mem ptr ≠ none
  null : ∀ n ga, (s.node n).ctl.found = some (ga, .null) → ga.id = n ∧
    ∃ b, (s.node n).mem ga.ptr = some b ∧ b.record.readable = false
  malloc : ∀ n size r, (s.node n).ctl ≠ .closing (.malloc size) r

section
variable {s t : State} {n : NodeId} {e : Effect} {env : Env} {x : Ctl} {a : Action} {y : Exchange} {r : Reply}
variable {ga : GlobalAddress} {f : Found} {k : LockSite} {g : Bool}

theorem lockAnswer_crashed {ns : NodeState} (h : (ns.lockAnswer n g k).1.ctl = .crashed) :
    ∃ ga f, k = .release (.read ga f) ∧ f.deref ns.mem = none := by
  unfold NodeState.lockAnswer at h
  split at h
  · split at h <;> cases h
  · rename_i ga f
    split at h
    · cases h
    · rename_i hnone
      exact ⟨ga, f, rfl, hnone⟩
  · cases h
  · cases h

theorem closed_crashed {ns : NodeState} (h : (ns.closed n y r).1.ctl = .crashed)
    (ha : (y.request n).answeredBy r = true) (hm : ∀ size, y ≠ .malloc size) (hf : ∀ c q, y ≠ .forward c q) :
    ∃ ga f, y = .setLock (.release (.read ga f)) ∧ f.deref ns.mem = none := by
  cases y with
  | setLock k =>
    cases r with
    | lock granted =>
      obtain ⟨ga, f, rfl, hnone⟩ := lockAnswer_crashed h
      exact ⟨ga, f, rfl, hnone⟩
    | _ => cases ha
  | malloc size => exact absurd rfl (hm size)
  | forward c q => exact absurd rfl (hf c q)
  | invalidate m rest ga b => cases h
  | reconnect d result => cases h
  | _ => cases r <;> first | (cases ha; done) | cases h

theorem Held.eq_null (h : Held s) (hf : (s.node n).ctl.found = some (ga, f)) (hnone : f.deref (s.node n).mem = none) :
    f = .null := by
  cases f with
  | null => rfl
  | copy w => cases hnone
  | record ptr => exact absurd (Option.map_eq_none_iff.mp hnone) (h.found n ga ptr hf)

theorem Link.not_misreads {ch : Channel} {own sv : Ctl} {rest : List Reply} (h : Link n own ch sv)
    (hd : ch.down = r :: rest) : ¬ Misreads own r := by
  intro hmis
  cases hmis with
  | read ga _ hne =>
    rcases h.of_waiting hd with ⟨-, -, ha, -⟩ | ⟨d, sga, heq, -⟩
    · cases r with
      | data w => exact hne w rfl
      | _ => cases ha
    · cases heq
  | malloc size _ hne =>
    rcases h.of_waiting hd with ⟨-, -, ha, -⟩ | ⟨d, sga, heq, -⟩
    · cases r with
      | address sga => exact hne sga rfl
      | _ => cases ha
    · cases heq
  | again d _ hne =>
    obtain ⟨d', sga, -, rfl, -⟩ := h.of_again hd
    exact hne sga rfl

theorem Moves.crashes (h : Held s) (hx : (s.node n).ctl = x) (hm : Moves s n env x e)
    (hc : e.self.ctl = .crashed) : Crashes s n := by
  have hnull : ∀ ga f, x.found = some (ga, f) → f.deref (s.node n).mem = none → Crashes s n := by
    intro ga f hf hnone
    subst hx
    obtain rfl := h.eq_null hf hnone
    obtain ⟨hid, b, hb, hr⟩ := h.null n ga hf
    exact .returned ga b hf hid hb hr
  cases hm with
  | lockGrant k locks granted hn hset =>
    obtain ⟨ga, f, rfl, hnone⟩ := lockAnswer_crashed hc
    exact hnull ga f rfl hnone
  | closed y r rest ch hch hd =>
    have hlink := (h.sessions.link n ch hch).2
    rw [hx] at hlink
    obtain ⟨ga, f, rfl, hnone⟩ := closed_crashed hc (hlink.of_closing hd).2
      (fun size heq => h.malloc n size r (hx.trans (heq ▸ rfl)))
      (fun c q heq => (h.sessions.stuck n).2 c q r (hx.trans (heq ▸ rfl)))
    exact hnull ga f rfl hnone
  | sendCrash d ch hch ha =>
    obtain ⟨hkey, htakes⟩ := Cache.alterCacheItem_eq_none_iff.mp ha
    exact .alters d hx hkey htakes
  | fetchCrash ga w rest ch hch hd ha => exact .adds ga hx (Cache.addCacheItem_eq_none_iff.mp ha)
  | misread _ r rest ch hch hd hmis =>
    have hlink := (h.sessions.link n ch hch).2
    rw [hx] at hlink
    exact absurd hmis (hlink.not_misreads hd)
  | writeLocal d b => cases hb : b.record.writeInvalidates <;> simp [hb] at hc
  | freeLocal ga b => cases hb : b.record.freeInvalidates <;> simp [hb] at hc
  | swept ga b =>
    cases b with
    | startInvalidations d srcID =>
      rcases endSession_ctl (s.node n) with hctl | ⟨d', result, hctl⟩
      all_goals
        rw [stepBroadcast, hctl] at hc
        cases hc
    | _ => cases hc
  | serve c ch r e hch hpeer hup hs =>
    cases hs with
    | readNull sga b hl hb hr => exact .served c ch sga b hx hch hup hl hb hr
    | reset =>
      rcases endSession_ctl (s.node n) with hctl | ⟨d', result, hctl⟩
      all_goals
        rw [hctl] at hc
        cases hc
    | free sga b => cases hb : b.record.freeInvalidates <;> simp [hb] at hc
    | malloc | read | readCached | write | locks | invalidate =>
      simp only [NodeState.copyRecord_ctl, hx] at hc
      cases hc
    | _ => cases hc
  | _ => cases hc

def Ctl.reading (x : Ctl) : Bool :=
  match x with
  | .access (.read _) => true
  | x => x.found.isSome

theorem Moves.mem_of_reading (hS : Sessions s) (hx : (s.node n).ctl = x) (h : Moves s n env x e)
    (hr : x.reading = true) : e.self.mem = (s.node n).mem := by
  cases h.memory hS hx with
  | same _ _ hmem => exact hmem
  | alloc _ _ size ptr content es hask =>
    rcases hask with rfl | ⟨c, ch, sga, rfl, -⟩ <;> cases hr
  | _ => cases hr

theorem Steps.mem_of_reading (hS : Sessions s) (hs : Steps s a t) (hr : (s.node n).ctl.reading = true) :
    (t.node n).mem = (s.node n).mem := by
  cases hs with
  | begin p op hidle hsus =>
    rw [State.begun_node]
    rfl
  | accept m c y hc hm hidle =>
    rw [State.accepted_node]
    rfl
  | exec p env e hsound hm =>
    by_cases hn : n = p
    · subst hn
      rw [Effect.apply_self, hm.mem_of_reading hS rfl hr]
    · rw [Effect.apply_ne hn]

theorem reading_of_found (h : x.found = some (ga, f)) : x.reading = true := by
  cases x with
  | access b => cases h
  | _ => exact Option.isSome_iff_exists.mpr ⟨_, h⟩

theorem Moves.not_closing_malloc (hx : (s.node n).ctl = x) (h : Moves s n env x e) {size : UInt64} :
    e.self.ctl ≠ .closing (.malloc size) r := by
  intro hc
  cases h with
  | lockGrant k locks granted hn hset =>
    rcases lockAnswer_ctl (n := n) ({ s.node n with locks := locks }) granted k with h | h | ⟨a, h⟩
    all_goals
      rw [h] at hc
      cases hc
  | closed y r' rest ch hch hd =>
    rcases settles_closed (n := n) (s.node n) y r' with h | ⟨-, -, hoff, -⟩
    · rw [h] at hc
      cases hc
    · rw [hc] at hoff
      cases hoff
  | received y _ rest ch hch hd hplain =>
    cases hc
    cases hplain
  | writeLocal d b => cases hb : b.record.writeInvalidates <;> simp [hb] at hc
  | freeLocal ga b => cases hb : b.record.freeInvalidates <;> simp [hb] at hc
  | swept ga b =>
    rcases settles_swept (s.node n) ga b with h | ⟨-, -, hoff, -⟩
    · rw [h] at hc
      cases hc
    · rw [hc] at hoff
      cases hoff
  | serve c ch r e hch hpeer hup hs =>
    cases hs with
    | reset =>
      rcases endSession_ctl (s.node n) with h | ⟨d, result, h⟩
      all_goals
        rw [h] at hc
        cases hc
    | free sga b => cases hb : b.record.freeInvalidates <;> simp [hb] at hc
    | malloc | read | readCached | write | locks | invalidate =>
      simp only [NodeState.copyRecord_ctl, hx] at hc
      cases hc
    | _ => cases hc
  | _ => cases hc

theorem Steps.turn (hs : Steps s a t) (n : NodeId) : (t.node n).ctl = (s.node n).ctl ∨
    ((∃ op : Op Word, (t.node n).ctl = op.start) ∨ (∃ y, (t.node n).ctl = .exchange .connected y) ∨
      ∃ c, (t.node n).ctl = .serving c) ∨
    ∃ env e, a = .exec n env ∧ Moves s n env (s.node n).ctl e ∧ (t.node n).ctl = e.self.ctl := by
  cases hs with
  | begin p op hidle hsus =>
    by_cases hn : n = p
    · subst hn
      exact Or.inr (Or.inl (Or.inl ⟨_, by rw [State.begun_self]; rfl⟩))
    · exact Or.inl (by rw [State.begun_ne hn])
  | accept m c y hconn hm hidle =>
    by_cases hnc : n = c
    · subst hnc
      exact Or.inr (Or.inl (Or.inr (Or.inl ⟨y, by rw [State.accepted_client]; rfl⟩)))
    · by_cases hnm : n = m
      · subst hnm
        exact Or.inr (Or.inl (Or.inr (Or.inr ⟨c, by rw [State.accepted_server hnc]; rfl⟩)))
      · exact Or.inl (by rw [State.accepted_ne hnc hnm])
  | exec p env e hsound hm =>
    by_cases hn : n = p
    · subst hn
      exact Or.inr (Or.inr ⟨env, e, rfl, hm, by rw [Effect.apply_self]⟩)
    · exact Or.inl (by rw [Effect.apply_ne hn])

theorem Held.steps (h : Held s) (hs : Steps s a t) : Held t where
  sessions := h.sessions.steps hs
  found p ga ptr hf := by
    rcases hs.obtains hf with hold | hobtains
    · rw [hs.mem_of_reading h.sessions (reading_of_found hold)]
      exact h.found p ga ptr hold
    · generalize hrecord : Found.record ptr = f at hobtains
      cases hobtains with
      | own b hctl hid hb =>
        obtain rfl : ptr = ga.ptr := by
          split at hrecord <;> cases hrecord
          rfl
        rw [hs.mem_of_reading h.sessions (by rw [hctl]; rfl), hb]
        simp
      | hit => cases hrecord
      | fetch => cases hrecord
  null p ga hf := by
    rcases hs.obtains hf with hold | hobtains
    · rw [hs.mem_of_reading h.sessions (reading_of_found hold)]
      exact h.null p ga hold
    · generalize hnull : Found.null = f at hobtains
      cases hobtains with
      | own b hctl hid hb =>
        rw [hs.mem_of_reading h.sessions (by rw [hctl]; rfl)]
        refine ⟨hid, b, hb, ?_⟩
        cases hr : b.record.readable with
        | true =>
          rw [hr] at hnull
          cases hnull
        | false => rfl
      | hit => cases hnull
      | fetch => cases hnull
  malloc p size r hc := by
    rcases hs.turn p with hold | (⟨op, hop⟩ | ⟨y, hy⟩ | ⟨c, hserve⟩) | ⟨env, e, -, hm, hself⟩
    · exact h.malloc p size r (hold.symm.trans hc)
    · cases op <;> cases hop.symm.trans hc
    · cases hy.symm.trans hc
    · cases hserve.symm.trans hc
    · exact hm.not_closing_malloc rfl (hself.symm.trans hc)

theorem Quiet.held (hs : Quiet s) : Held s where
  sessions := hs.sessions
  found n ga ptr hf := by
    rw [hs.idle n] at hf
    cases hf
  null n ga hf := by
    rw [hs.idle n] at hf
    cases hf
  malloc n size r := by simp [hs.idle n]

theorem Steps.crashes (h : Held s) (hs : Steps s a t) (hup : (s.node n).ctl ≠ .crashed)
    (hc : (t.node n).ctl = .crashed) : ∃ env, a = .exec n env ∧ Crashes s n := by
  rcases hs.turn n with hold | (⟨op, hop⟩ | ⟨y, hy⟩ | ⟨c, hserve⟩) | ⟨env, e, rfl, hm, hself⟩
  · exact absurd (hold.symm.trans hc) hup
  · cases op <;> cases hop.symm.trans hc
  · cases hy.symm.trans hc
  · cases hserve.symm.trans hc
  · exact ⟨env, rfl, hm.crashes h rfl (hself.symm.trans hc)⟩

/-- In every run, a node that has crashed has done so in a step of its own, for one of the reasons; the model has no
exceptions of the network. -/
theorem crashes_caused {as : List Action} (hs : Quiet s) (h : run step s as = some t) (hc : (t.node n).ctl = .crashed) :
    ∃ pre env post u, as = pre ++ .exec n env :: post ∧ run step s pre = some u ∧ Crashes u n := by
  obtain ⟨pre, a, post, u, v, rfl, hu, hv, hup, hdown⟩ :=
    run_turns (P := fun u => (u.node n).ctl = .crashed) (by simp [hs.idle n]) h hc
  have hheld : Held u := run_invariant (fun _ _ _ hH huv => hH.steps (steps_of_step huv)) hs.held hu
  obtain ⟨env, rfl, hcause⟩ := (steps_of_step hv).crashes hheld hup hdown
  exact ⟨pre, env, post, u, rfl, hu, hcause⟩

/-- The node 2000 reads its own fresh block, in which malloc(3) has found a state that is none. -/
def garbageRead : List Action :=
  [.begin 2000 (.malloc 8), .exec 2000 ⟨0, some (4096, ⟨0, .other 7, 0, []⟩)⟩,
    .begin 2000 (.read ⟨8, 4096, 2000⟩), go 2000, go 2000, go 2000]

theorem garbageRead_crashes : ∃ t, run step (.start fun _ _ => none) garbageRead = some t ∧
    (t.node 2000).ctl = .crashed ∧ ∃ pre env post u, garbageRead = pre ++ .exec 2000 env :: post ∧
      run step (.start fun _ _ => none) pre = some u ∧ Crashes u 2000 := by
  have hrun : (run step (.start fun _ _ => none) garbageRead).map (fun t => (t.node 2000).ctl) = some .crashed := by
    decide
  obtain ⟨t, ht, hc⟩ := Option.map_eq_some_iff.mp hrun
  exact ⟨t, ht, hc, crashes_caused (State.quiet_start _) ht hc⟩

end
end CacheCoherence.Protocol
