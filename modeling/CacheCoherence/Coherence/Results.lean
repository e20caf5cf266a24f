import CacheCoherence.Coherence.Sweeps

/-! # Results of reads

A read gets its result from home's record, from a hit or from the reply to its request, and carries it
to the release of its lock.
-/
namespace CacheCoherence.Protocol

def Ctl.found : Ctl → Option (GlobalAddress × Found)
  | .setLock (.release (.read ga f)) | .exchange _ (.setLock (.release (.read ga f)))
  | .closing (.setLock (.release (.read ga f))) _ => some (ga, f)
  | .closing (.performRead ga) (.data w) => some (ga, .copy w)
  | _ => none

/-- How node `n` comes to the result of its read of `ga`. -/
inductive Finds (s : State) (n : NodeId) (ga : GlobalAddress) : Found → Prop where
  | own : (s.node n).ctl = .access (.read ga) → n = port → Finds s n ga (.record ga.ptr)
  | hit (ga' : GlobalAddress) (c : Copy) : (s.node n).ctl = .access (.read ga) →
      (s.node n).cache.Stores ga.hash ga' c → Finds s n ga (.copy c.word)
  | fetch (w : Word) : Arriving s n ga w → Finds s n ga (.copy w)

/-- The same in any run, where a record may be unreadable. -/
inductive Obtains (s : State) (n : NodeId) (ga : GlobalAddress) : Found → Prop where
  | own (b : Block) : (s.node n).ctl = .access (.read ga) → ga.id = n → (s.node n).mem ga.ptr = some b →
      Obtains s n ga (if b.record.readable then .record ga.ptr else .null)
  | hit (ga' : GlobalAddress) (c : Copy) : (s.node n).ctl = .access (.read ga) →
      (s.node n).cache.Stores ga.hash ga' c → Obtains s n ga (.copy c.word)
  | fetch (w : Word) : Arriving s n ga w → Obtains s n ga (.copy w)

section
variable {G : GlobalAddress → Prop} {s t s₀ : State} {n m p : NodeId} {e : Effect} {env : Env} {x : Ctl}
variable {ga : GlobalAddress} {f : Found} {w : Word} {a : Action}

theorem op_of_found (h : x.found = some (ga, f)) : x.op = some (.read ga) := by
  unfold Ctl.found at h
  split at h
  all_goals
    cases h
    try rfl

theorem found_of_released (h : x.released = some (.read ga f)) : x.found = some (ga, f) := by
  unfold Ctl.released at h
  split at h
  all_goals
    cases h
    try rfl

theorem found_of_detour (ns : NodeState) : ns.endSession.ctl.found = none := by
  rcases endSession_ctl ns with hc | ⟨d, result, hc⟩
  all_goals
    rw [hc]
    rfl

theorem found_of_lockAnswer (ns : NodeState) (g : Bool) (k : LockSite) : (ns.lockAnswer n g k).1.ctl.found = none := by
  rcases lockAnswer_ctl (n := n) ns g k with hc | hc | ⟨b, hc⟩
  all_goals
    rw [hc]
    rfl

theorem Moves.obtains (hx : (s.node n).ctl = x) (h : Moves s n env x e)
    (hf : e.self.ctl.found = some (ga, f)) : x.found = some (ga, f) ∨ Obtains s n ga f := by
  cases h with
  | lockGrant k locks granted hn hset =>
    rw [found_of_lockAnswer] at hf
    cases hf
  | connect x y hopen =>
    cases hopen with
    | setLock k hne =>
      cases k with
      | release a => cases a <;> exact Or.inl hf
      | _ => cases hf
    | _ => cases hf
  | readLocal ga' b hl hb =>
    cases hf
    exact Or.inr (.own b hx hl hb)
  | readCached ga' it hne hit =>
    cases hf
    exact Or.inr (.hit it.globalAddress it.data hx (Cache.stores_of_hit hit))
  | writeLocal d b => cases hb : b.record.writeInvalidates <;> simp only [hb] at hf <;> cases hf
  | freeLocal ga' b => cases hb : b.record.freeInvalidates <;> simp only [hb] at hf <;> cases hf
  | swept ga' b =>
    cases b with
    | startInvalidations d srcID =>
      rw [stepBroadcast, found_of_detour] at hf
      cases hf
    | _ => cases hf
  | send y ch hch hnw hnr =>
    cases y with
    | setLock k =>
      cases k with
      | release a => cases a <;> exact Or.inl hf
      | _ => cases hf
    | _ => cases hf
  | fetched ga' w rest ch cache hch hd ha =>
    cases hf
    exact Or.inr (.fetch w ⟨hx, ch, rest, hch, hd⟩)
  | received y r rest ch hch hd hplain =>
    cases y with
    | setLock k =>
      cases k with
      | release a => cases a <;> exact Or.inl hf
      | _ => cases hf
    | performRead ga' => cases hplain
    | _ => cases hf
  | closed y r rest ch hch hd =>
    cases y with
    | setLock k =>
      cases r with
      | lock granted =>
        simp only [NodeState.closed, found_of_lockAnswer] at hf
        cases hf
      | _ => cases hf
    | performRead ga' =>
      cases r with
      | data w => exact Or.inl hf
      | _ => cases hf
    | _ => cases r <;> cases hf
  | serve c ch r e hch hpeer hup hs =>
    cases hs with
    | reset =>
      rw [found_of_detour] at hf
      cases hf
    | free sga b => cases hb : b.record.freeInvalidates <;> simp only [hb] at hf <;> cases hf
    | malloc | read | readCached | write | locks | invalidate =>
      simp only [NodeState.copyRecord_ctl, hx] at hf
      cases hf
    | _ => cases hf
  | _ => cases hf

theorem Steps.obtains (hs : Steps s a t) (hf : (t.node n).ctl.found = some (ga, f)) :
    (s.node n).ctl.found = some (ga, f) ∨ Obtains s n ga f := by
  cases hs with
  | begin p op hidle hsus =>
    by_cases hn : n = p
    · subst hn
      rw [State.begun_self] at hf
      cases op <;> cases hf
    · rw [State.begun_ne hn] at hf
      exact Or.inl hf
  | accept q c y hc hm hidle =>
    by_cases hnc : n = c
    · subst hnc
      rw [State.accepted_client] at hf
      rw [hc]
      cases y with
      | setLock k =>
        cases k with
        | release a => cases a <;> exact Or.inl hf
        | _ => cases hf
      | _ => cases hf
    · by_cases hnq : n = q
      · subst hnq
        rw [State.accepted_server hnc] at hf
        cases hf
      · rw [State.accepted_ne hnc hnq] at hf
        exact Or.inl hf
  | exec p env e _ hm =>
    by_cases hn : n = p
    · subst hn
      rw [Effect.apply_self] at hf
      exact hm.obtains rfl hf
    · rw [Effect.apply_ne hn] at hf
      exact Or.inl hf

theorem Obtains.finds (hW : Workload G s) (h : Obtains s n ga f) : Finds s n ga f := by
  cases h with
  | own b hctl hl hb =>
    have hga : G ga := by
      have hin := hW.within n
      rwa [hctl] at hin
    have hn : n = port := hl.symm.trans (hW.home ga hga)
    obtain ⟨b', hb', -, hreg⟩ := hW.block ga hga
    obtain rfl : b = b' := Option.some.inj ((hn ▸ hb).symm.trans hb')
    rw [if_pos hreg.1]
    exact .own hctl hn
  | hit ga' c hctl hst => exact .hit ga' c hctl hst
  | fetch w harr => exact .fetch w harr

theorem Steps.found (hW : Workload G s) (hs : Steps s a t)
    (hf : (t.node n).ctl.found = some (ga, f)) : (s.node n).ctl.found = some (ga, f) ∨ Finds s n ga f :=
  (hs.obtains hf).imp id (Obtains.finds hW)

theorem found_within (hW : Workload G s) (hf : (s.node n).ctl.found = some (ga, f)) :
    G ga ∧ (n = port ∧ f = .record ga.ptr ∨ n ≠ port ∧ ∃ w, f = .copy w) := by
  have hin := hW.within n
  unfold Ctl.found at hf
  split at hf
  · rename_i hctl
    cases hf
    rw [hctl] at hin
    exact hin
  · rename_i hctl
    cases hf
    rw [hctl] at hin
    exact hin
  · rename_i hctl
    cases hf
    rw [hctl] at hin
    exact hin
  · rename_i hctl
    cases hf
    rw [hctl] at hin
    exact ⟨hin.1, Or.inr ⟨hin.2, _, rfl⟩⟩
  · cases hf

theorem copy_within (hW : Workload G s) (hf : (s.node n).ctl.found = some (ga, .copy w)) : G ga ∧ n ≠ port := by
  obtain ⟨hga, ⟨-, hcopy⟩ | ⟨hn, -⟩⟩ := found_within hW hf
  · cases hcopy
  · exact ⟨hga, hn⟩

/-- What a read returns: home's value if it is a read of home itself, the copy it carries otherwise. -/
theorem Moves.returns_read (hW : Workload G s) (h : Moves s n env (s.node n).ctl e)
    (hr : .ret m (.read ga (some w)) ∈ e.events) : m = n ∧ G ga ∧
    (n = port ∧ s.homeWord ga = some w ∨ n ≠ port ∧ (s.node n).ctl.found = some (ga, .copy w)) := by
  obtain ⟨hm, a, ha, hout⟩ := h.granted hr rfl
  cases a with
  | write d r => cases hout
  | read ga' f =>
    simp only [Accessed.outcome, Option.map_eq_some_iff] at hout
    obtain ⟨w', hw', heq⟩ := hout
    cases heq
    have hfound := found_of_released ha
    obtain ⟨hga, ⟨hn, rfl⟩ | ⟨hn, w', rfl⟩⟩ := found_within hW hfound
    · subst hn
      exact ⟨hm, hga, Or.inl ⟨rfl, hw'⟩⟩
    · cases hw'
      exact ⟨hm, hga, Or.inr ⟨hn, hfound⟩⟩

end
end CacheCoherence.Protocol
