import CacheCoherence.Coherence.Results

/-! # How home frees a block

`Node::Free` looks up the record, invalidates the nodes in its list and calls `free(3)`. From the first of these
steps to the last one the thread works on that address only, and it takes no lock for it.
-/
namespace CacheCoherence.Protocol

def Event.frees (ga : GlobalAddress) (b : Bool) : Event → Bool
  | .alloc ga' _ => if ga' = ga then false else b
  | .freed ga' => if ga' = ga then true else b
  | _ => b

def freed (ga : GlobalAddress) (log : List Event) : Bool := log.foldl (Event.frees ga) false

def Broadcaster.frees (ga : GlobalAddress) : Broadcaster → Option GlobalAddress
  | .free | .handleFree _ _ => some ga
  | _ => none

def Exchange.frees : Exchange → Option GlobalAddress
  | .invalidate _ _ ga b => b.frees ga
  | _ => none

def Ctl.frees : Ctl → Option GlobalAddress
  | .broadcast _ ga b => b.frees ga
  | .discard ga _ => some ga
  | .exchange _ e => e.frees
  | .closing e _ => e.frees
  | _ => none

/-- The address whose record home looks up in this step in order to free it. -/
def State.takesFree (s : State) : Action → Option GlobalAddress
  | .exec n _ =>
    match (s.node n).ctl with
    | .free ga => if ga.id = n then some ga else none
    | .serving c =>
      match (s.net c).bind Channel.up with
      | some (.free sga) => if sga.id = n then some (.ofSendable sga) else none
      | _ => none
    | _ => none
  | _ => none

section
variable (n : NodeId)

def Accessed.Homed : Accessed → Prop
  | .read ga (.record ptr) => ga.id = n ∧ ptr = ga.ptr
  | _ => True

def LockSite.Homed : LockSite → Prop
  | .release a => a.Homed n
  | _ => True

def Broadcaster.Homed (ga : GlobalAddress) : Broadcaster → Prop
  | .write d => d.ga = ga
  | _ => True

def Exchange.Homed : Exchange → Prop
  | .setLock k => k.Homed n
  | .invalidate _ _ ga b => ga.id = n ∧ b.Homed ga
  | _ => True

/-- What a thread works on as a home is an address of its own node. -/
def Ctl.Homed : Ctl → Prop
  | .setLock k => k.Homed n
  | .memcpy d => d.ga.id = n
  | .broadcast _ ga b => ga.id = n ∧ b.Homed ga
  | .discard ga _ => ga.id = n
  | .exchange _ e => e.Homed n
  | .closing e _ => e.Homed n
  | .startInvalidations _ d _ _ => d.ga.id = n
  | _ => True

end

def FreeAnswered (s : State) (n : NodeId) (ga : GlobalAddress) : Prop :=
  ((s.node n).ctl = .exchange .waiting (.free ga) ∧ ∃ ch, s.net n = some ch ∧ ch.down ≠ []) ∨
    ∃ r, (s.node n).ctl = .closing (.free ga) r

/-- Between the call of a Free and its return home has freed the block. -/
structure FreesReturned (s : State) : Prop where
  answered : ∀ n ga, FreeAnswered s n ga → ∀ pre mid, s.log = pre ++ .call n (.free ga) :: mid → .freed ga ∈ mid
  returned : ∀ n ga g pre mid, s.log = pre ++ .call n (.free ga) :: mid → .ret n (.free ga g) ∈ mid → .freed ga ∈ mid

section
variable {s t : State} {n p : NodeId} {e : Effect} {env : Env} {x : Ctl} {ga ga' : GlobalAddress} {a : Action}
variable {log es : List Event} {f : Found}

@[simp] theorem freed_append : freed ga (log ++ es) = es.foldl (Event.frees ga) (freed ga log) := List.foldl_append

theorem freed_or_mem (h : freed ga (log ++ es) = true) : freed ga log = true ∨ .freed ga ∈ es := by
  rw [freed_append] at h
  generalize freed ga log = b at h
  induction es generalizing b with
  | nil => exact Or.inl h
  | cons ev es ih =>
    rcases ih _ h with hev | hmem
    · cases ev with
      | alloc ga' w =>
        by_cases hga : ga' = ga
        · simp [Event.frees, hga] at hev
        · simp only [Event.frees, hga, ↓reduceIte] at hev
          exact Or.inl hev
      | freed ga' =>
        by_cases hga : ga' = ga
        · exact Or.inr (hga ▸ List.mem_cons_self)
        · simp only [Event.frees, hga, ↓reduceIte] at hev
          exact Or.inl hev
      | _ => exact Or.inl hev
    · exact Or.inr (List.mem_cons_of_mem ev hmem)

theorem homed_of_detour (ns : NodeState) : ns.endSession.ctl.Homed n := by
  rcases endSession_ctl ns with hc | ⟨d, result, hc⟩
  all_goals
    rw [hc]
    trivial

theorem homed_of_lockAnswer (ns : NodeState) (g : Bool) (k : LockSite) : (ns.lockAnswer n g k).1.ctl.Homed n := by
  rcases lockAnswer_ctl (n := n) ns g k with hc | hc | ⟨b, hc⟩
  all_goals
    rw [hc]
    trivial

theorem Moves.homed (hx : (s.node n).ctl = x) (hin : x.Homed n) (h : Moves s n env x e) : e.self.ctl.Homed n := by
  cases h with
  | lockGrant k locks granted hn hset => exact homed_of_lockAnswer _ _ _
  | connect x y hopen =>
    cases hopen with
    | setLock | invalidate => exact hin
    | _ => trivial
  | readLocal ga b hl hb =>
    cases hr : b.record.readable with
    | true => exact ⟨hl, rfl⟩
    | false => trivial
  | writeLocal d b hl hb =>
    cases hw : b.record.writeInvalidates with
    | true => exact ⟨hl, rfl⟩
    | false => exact hl
  | freeLocal ga b hl hb =>
    cases hf : b.record.freeInvalidates with
    | true => exact ⟨hl, trivial⟩
    | false => exact hl
  | swept ga b =>
    obtain ⟨hga, hb⟩ := hin
    cases b with
    | write d => exact (congrArg GlobalAddress.id hb).trans hga
    | startInvalidations d srcID => exact homed_of_detour _
    | _ => exact hga
  | send | received => exact hin
  | closed y r rest ch hch hd =>
    cases y with
    | setLock k =>
      cases r with
      | lock granted => exact homed_of_lockAnswer _ _ _
      | _ => trivial
    | invalidate m rest ga b => exact hin
    | reconnect d result => trivial
    | _ => cases r <;> trivial
  | serve c ch r e hch hpeer hup hs =>
    cases hs with
    | reset => exact homed_of_detour _
    | writeShared sd b hl hb hinv => exact hl
    | free sga b hl hb =>
      cases hf : b.record.freeInvalidates with
      | true => exact ⟨hl, trivial⟩
      | false => exact hl
    | readNull | forward => trivial
    | malloc | read | readCached | write | locks | invalidate =>
      simp only [NodeState.copyRecord_ctl, hx]
      trivial
  | startInvalidations c d nodes srcID ch b hch hb => exact ⟨hin, trivial⟩
  | _ => trivial

theorem homed_steps (h : ∀ n, (s.node n).ctl.Homed n) (hs : Steps s a t) (n : NodeId) : (t.node n).ctl.Homed n := by
  cases hs with
  | begin p op hidle hsus =>
    by_cases hn : n = p
    · subst hn
      rw [State.begun_self]
      cases op <;> trivial
    · rw [State.begun_ne hn]
      exact h n
  | accept m c y hc hm hidle =>
    by_cases hnc : n = c
    · subst hnc
      have hin := h n
      rw [hc] at hin
      rw [State.accepted_client]
      exact hin
    · by_cases hnm : n = m
      · subst hnm
        rw [State.accepted_server hnc]
        trivial
      · rw [State.accepted_ne hnc hnm]
        exact h n
  | exec p env e _ hm =>
    by_cases hn : n = p
    · subst hn
      rw [Effect.apply_self]
      exact hm.homed rfl (h n)
    · rw [Effect.apply_ne hn]
      exact h n

theorem Ctl.Homed.found (h : x.Homed n) {ptr : UInt64} (hf : x.found = some (ga, .record ptr)) :
    ga.id = n ∧ ptr = ga.ptr := by
  unfold Ctl.found at hf
  split at hf
  all_goals
    cases hf
    try exact h

theorem frees_of_detour (ns : NodeState) : ns.endSession.ctl.frees = none := by
  rcases endSession_ctl ns with hc | ⟨d, result, hc⟩
  all_goals
    rw [hc]
    rfl

theorem frees_of_lockAnswer (ns : NodeState) (g : Bool) (k : LockSite) : (ns.lockAnswer n g k).1.ctl.frees = none := by
  rcases lockAnswer_ctl (n := n) ns g k with hc | hc | ⟨b, hc⟩
  all_goals
    rw [hc]
    rfl

theorem ahead_of_sharer {b : Block} {y : Broadcaster} {client : Option (NodeId × UInt16)} {m : NodeId}
    (hm : m ∈ b.record.sharerNodes) (ch : Option Channel) :
    (if b.record.freeInvalidates then Ctl.broadcast b.record.sharerNodes ga y else
      .discard ga client).ahead ch m ga := by
  have hinv : b.record.freeInvalidates = true := by
    cases hns : b.record.sharerNodes with
    | nil =>
      rw [hns] at hm
      cases hm
    | cons r rs => simp [SaveData.freeInvalidates, hns]
  rw [if_pos hinv]
  exact ⟨rfl, hm⟩

theorem Moves.frees (hx : (s.node n).ctl = x) (h : Moves s n env x e) (hf : e.self.ctl.frees = some ga) :
    x.frees = some ga ∨ s.takesFree (.exec n env) = some ga ∧ e.self.cache = (s.node n).cache ∧
      ∃ b, (s.node n).mem ga.ptr = some b ∧ ∀ m ∈ b.record.sharerNodes, ∀ ch, e.self.ctl.ahead ch m ga := by
  cases h with
  | lockGrant k locks granted hn hset =>
    rw [frees_of_lockAnswer] at hf
    cases hf
  | connect x y hopen =>
    cases hopen with
    | invalidate m rest ga' b => exact Or.inl hf
    | _ => cases hf
  | writeLocal d b hl hb => cases hw : b.record.writeInvalidates <;> simp only [hw] at hf <;> cases hf
  | freeLocal ga' b hl hb =>
    obtain rfl : ga' = ga := by cases hi : b.record.freeInvalidates <;> simp only [hi] at hf <;> cases hf <;> rfl
    refine Or.inr ⟨?_, rfl, b, hb, fun m hm ch => ahead_of_sharer hm ch⟩
    simp [State.takesFree, hx, hl]
  | swept ga' b =>
    cases b with
    | startInvalidations d srcID =>
      rw [stepBroadcast, frees_of_detour] at hf
      cases hf
    | write d => cases hf
    | _ => exact Or.inl hf
  | send y ch hch hnw hnr => exact Or.inl hf
  | received y r rest ch hch hd hplain => exact Or.inl hf
  | closed y r rest ch hch hd =>
    cases y with
    | setLock k =>
      cases r with
      | lock granted =>
        simp only [NodeState.closed, frees_of_lockAnswer] at hf
        cases hf
      | _ => cases hf
    | invalidate m rest ga' b => exact Or.inl hf
    | _ => cases r <;> cases hf
  | serve c ch r e hch hpeer hup hs =>
    cases hs with
    | reset =>
      rw [frees_of_detour] at hf
      cases hf
    | free sga b hl hb =>
      obtain rfl : .ofSendable sga = ga := by
        cases hi : b.record.freeInvalidates <;> simp only [hi] at hf <;> cases hf <;> rfl
      refine Or.inr ⟨?_, rfl, b, hb, fun m hm ch => ahead_of_sharer hm ch⟩
      simp [State.takesFree, hx, hch, hup, hl]
    | malloc | read | readCached | write | locks | invalidate =>
      simp only [NodeState.copyRecord_ctl, hx] at hf
      cases hf
    | _ => cases hf
  | _ => cases hf

theorem Steps.frees (hs : Steps s a t) (hf : (t.node n).ctl.frees = some ga) : (s.node n).ctl.frees = some ga ∨
    ∃ env, a = .exec n env ∧ s.takesFree a = some ga ∧ (∀ m, (t.node m).cache = (s.node m).cache) ∧
      ∃ b, (s.node n).mem ga.ptr = some b ∧ ∀ m ∈ b.record.sharerNodes, ∀ ch, (t.node n).ctl.ahead ch m ga := by
  cases hs with
  | begin p op hidle hsus =>
    left
    by_cases hn : n = p
    · subst hn
      rw [State.begun_self] at hf
      cases op <;> cases hf
    · rwa [State.begun_ne hn] at hf
  | accept m c y hc hm hidle =>
    left
    by_cases hnc : n = c
    · subst hnc
      rw [State.accepted_client] at hf
      rwa [hc]
    · by_cases hnm : n = m
      · subst hnm
        rw [State.accepted_server hnc] at hf
        cases hf
      · rwa [State.accepted_ne hnc hnm] at hf
  | exec p env e _ hm =>
    by_cases hn : n = p
    · subst hn
      rw [Effect.apply_self] at hf
      rcases hm.frees rfl hf with hold | ⟨htakes, hcache, b, hb, hahead⟩
      · exact Or.inl hold
      · refine Or.inr ⟨env, rfl, htakes, fun m => ?_, b, hb, by rwa [Effect.apply_self]⟩
        by_cases hmn : m = n
        · subst hmn
          rw [Effect.apply_self, hcache]
        · rw [Effect.apply_ne hmn]
    · rw [Effect.apply_ne hn] at hf
      exact Or.inl hf

theorem closing_of_lockAnswer (ns : NodeState) (g : Bool) (k : LockSite) {y : Exchange} {r : Reply} :
    (ns.lockAnswer n g k).1.ctl ≠ .closing y r := by
  rcases lockAnswer_ctl (n := n) ns g k with hc | hc | ⟨b, hc⟩
  all_goals
    rw [hc]
    simp

/-- A reply to a FREE is there after a move if it was there before, or home has just freed the block. -/
theorem Moves.freeAnswered (hS : Sessions s) (hx : (s.node p).ctl = x) (h : Moves s p env x e)
    (ha : FreeAnswered (e.apply s p) n ga) : FreeAnswered s n ga ∨ .freed ga ∈ e.events := by
  rcases ha with ⟨hctl, ch, hch, hdown⟩ | ⟨r, hctl⟩
  · obtain ⟨hctl, hold | ⟨d, hy⟩ | ⟨ga', srcID, hreq, hfreed⟩ | ⟨-, hwire, hs⟩⟩ := h.replied hS hx hctl hch hdown
    · exact Or.inl (Or.inl ⟨hctl, ch, hold, hdown⟩)
    · cases hy
    · obtain rfl : ga' = ga := by
        have heq := congrArg GlobalAddress.ofSendable (Request.free.inj hreq.symm)
        simpa using heq
      exact Or.inr hfreed
    · cases hs with
      | free sga b hl hb =>
        cases hwire
        exact absurd rfl hdown
      | forward _ hf =>
        cases hwire
        exact absurd rfl hdown
  · left
    by_cases hnp : n = p
    · subst hnp
      rw [Effect.apply_self] at hctl
      cases h with
      | lockGrant k locks granted hn hset => exact absurd hctl (closing_of_lockAnswer _ _ _)
      | writeLocal d b => cases hb : b.record.writeInvalidates <;> simp [hb] at hctl
      | freeLocal ga b => cases hb : b.record.freeInvalidates <;> simp [hb] at hctl
      | swept ga b =>
        cases b with
        | startInvalidations d srcID =>
          rcases endSession_ctl (s.node n) with hc | ⟨d', result, hc⟩
          all_goals
            rw [stepBroadcast, hc] at hctl
            cases hctl
        | _ => cases hctl
      | received y r' rest ch hch hd =>
        cases hctl
        exact Or.inl ⟨hx, ch, hch, by rw [hd]; simp⟩
      | closed y r' rest ch hch hd =>
        rcases settles_closed (n := n) (s.node n) y r' with hc | ⟨-, -, hoff, -⟩
        · rw [hc] at hctl
          cases hctl
        · rw [hctl] at hoff
          cases hoff
      | serve c ch r' e hch hpeer hup hs =>
        cases hs with
        | reset =>
          rcases endSession_ctl (s.node n) with hc | ⟨d', result, hc⟩
          all_goals
            rw [hc] at hctl
            cases hctl
        | free sga b => cases hb : b.record.freeInvalidates <;> simp [hb] at hctl
        | malloc | read | readCached | write | locks | invalidate =>
          simp only [NodeState.copyRecord_ctl, hx] at hctl
          cases hctl
        | _ => cases hctl
      | _ => cases hctl
    · rw [Effect.apply_ne hnp] at hctl
      exact Or.inr ⟨r, hctl⟩

theorem Moves.returns_free (hx : (s.node n).ctl = x) (h : Moves s n env x e) {m : NodeId} {g : GlobalAddress}
    (hr : .ret m (.free ga g) ∈ e.events) : m = n ∧ (.freed ga ∈ e.events ∨ FreeAnswered s n ga) := by
  have hlock : ∀ (ns : NodeState) (g' : Bool) (k : LockSite), .ret m (.free ga g) ∉ (ns.lockAnswer n g' k).2 := by
    intro ns g' k hmem
    unfold NodeState.lockAnswer at hmem
    split at hmem
    · rename_i a
      split at hmem
      · cases hmem
      · cases a <;> cases List.mem_singleton.mp hmem
    · split at hmem
      · cases List.mem_singleton.mp hmem
      · cases hmem
    · cases List.mem_singleton.mp hmem
    · cases List.mem_singleton.mp hmem
  cases h with
  | lockGrant k locks granted hn hset =>
    simp only [List.mem_cons, reduceCtorEq, false_or] at hr
    exact absurd hr (hlock _ _ _)
  | discardOwn ga' =>
    simp only [List.mem_cons, reduceCtorEq, false_or, List.not_mem_nil, or_false] at hr
    cases hr
    exact ⟨rfl, Or.inl List.mem_cons_self⟩
  | swept ga' b => cases b <;> cases hr
  | closed y r rest ch hch hd =>
    cases y with
    | setLock k =>
      cases r with
      | lock granted =>
        simp only [NodeState.closed, List.mem_cons, reduceCtorEq, false_or] at hr
        exact absurd hr (hlock _ _ _)
      | _ => cases hr
    | free ga' =>
      cases r with
      | address sga =>
        cases List.mem_singleton.mp hr
        exact ⟨rfl, Or.inr (Or.inr ⟨_, hx⟩)⟩
      | _ => cases hr
    | invalidate | reconnect => cases hr
    | _ => cases r <;> cases hr
  | serve c ch r e hch hpeer hup hs =>
    cases hs with
    | malloc | write | locks => cases List.mem_singleton.mp hr
    | _ => cases hr
  | mallocLocal | memcpy | discardFor | mallocReturn | startInvalidations => simp at hr
  | _ => cases hr

theorem FreesReturned.steps (hS : Sessions s) (hsus : Suspends s) (h : FreesReturned s) (hs : Steps s a t) :
    FreesReturned t := by
  cases hs with
  | begin p op hidle hsp =>
    refine ⟨fun n ga ha pre mid hlog => ?_, fun n ga g pre mid hlog hret => ?_⟩
    all_goals rw [State.begun_log] at hlog
    · have hnp : n ≠ p := by
        rintro rfl
        rcases ha with ⟨hctl, -⟩ | ⟨r, hctl⟩
        all_goals
          rw [State.begun_self] at hctl
          cases op <;> cases hctl
      rw [FreeAnswered, State.begun_ne hnp] at ha
      obtain ⟨mid', hold, rfl⟩ := split_old hlog (by simp [hnp])
      exact List.mem_append_left _ (h.answered n ga ha pre mid' hold)
    · rcases split_append hlog with ⟨mid', hold, rfl⟩ | ⟨fs, -, hes⟩
      · have hret' : .ret n (.free ga g) ∈ mid' := by simpa using hret
        exact List.mem_append_left _ (h.returned n ga g pre mid' hold hret')
      · cases fs with
        | nil =>
          obtain rfl : [] = mid := (List.cons.inj hes).2
          cases hret
        | cons ev fs => simp at hes
  | accept m c y hc hm hidle =>
    refine ⟨fun n ga ha => h.answered n ga ?_, h.returned⟩
    by_cases hnc : n = c
    · subst hnc
      rcases ha with ⟨hctl, -⟩ | ⟨r, hctl⟩
      all_goals
        rw [State.accepted_client] at hctl
        cases hctl
    · by_cases hnm : n = m
      · subst hnm
        rcases ha with ⟨hctl, -⟩ | ⟨r, hctl⟩
        all_goals
          rw [State.accepted_server hnc] at hctl
          cases hctl
      · rw [FreeAnswered, State.accepted_ne hnc hnm, State.accepted_net_ne hnc] at ha
        exact ha
  | exec p env e _ hm =>
    refine ⟨fun n ga ha pre mid hlog => ?_, fun n ga g pre mid hlog hret => ?_⟩
    all_goals obtain ⟨mid', hold, rfl⟩ := split_old hlog (hm.no_call hsus n _)
    · rcases hm.freeAnswered hS rfl ha with ha | hmem
      · exact List.mem_append_left _ (h.answered n ga ha pre mid' hold)
      · exact List.mem_append_right _ hmem
    · rcases List.mem_append.mp hret with hret | hret
      · exact List.mem_append_left _ (h.returned n ga g pre mid' hold hret)
      · obtain ⟨rfl, hmem | ha⟩ := hm.returns_free rfl hret
        · exact List.mem_append_right _ hmem
        · exact List.mem_append_left _ (h.answered n ga ha pre mid' hold)

theorem Quiet.freesReturned (h : Quiet s) : FreesReturned s := by
  refine ⟨fun n ga ha => ?_, fun n ga g pre mid hlog => ?_⟩
  · rcases ha with ⟨hctl, -⟩ | ⟨r, hctl⟩
    all_goals
      rw [h.idle n] at hctl
      cases hctl
  · rw [h.log] at hlog
    simp at hlog

end
end CacheCoherence.Protocol
