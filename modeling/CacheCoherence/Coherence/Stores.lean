import CacheCoherence.Coherence.Memory
import CacheCoherence.Foundation.VersionOrder
import CacheCoherence.Protocol.Calls

/-! # Versions

Home applies every write once. The stores in the log give the versions of an address in the order in
which home applied them, and no word is stored twice.
-/
namespace CacheCoherence.Protocol

def Event.stored (ga : GlobalAddress) : Event → Option Word
  | .store _ ga' w => if ga' = ga then some w else none
  | _ => none

def stored (ga : GlobalAddress) (log : List Event) : List Word := log.filterMap (Event.stored ga)

def State.homeWord (s : State) (ga : GlobalAddress) : Option Word :=
  ((s.node port).mem ga.ptr).map fun b => b.record.data

/-- The versions of `ga` in a run from `s₀`, oldest first. -/
def versions (s₀ : State) (ga : GlobalAddress) (log : List Event) : List Word :=
  (s₀.homeWord ga).toList ++ stored ga log

def LockSite.early : LockSite → Option (Data Word)
  | .acquire (.write d) => some d
  | _ => none

def Broadcaster.early : Broadcaster → Option (Data Word)
  | .write d => some d
  | _ => none

def Ctl.early : Ctl → Option (Data Word)
  | .setLock k => k.early
  | .access (.write d) => some d
  | .memcpy d => some d
  | .broadcast _ _ b => b.early
  | .exchange _ (.setLock k) => k.early
  | .exchange _ (.invalidate _ _ _ b) => b.early
  | .exchange .connecting (.performWrite d) | .exchange .connected (.performWrite d) => some d
  | .closing (.setLock k) _ => k.early
  | .closing (.invalidate _ _ _ b) _ => b.early
  | _ => none

/-- Node `n` is in the write `d`, which home has not applied. -/
def Pends (s : State) (n : NodeId) (d : Data Word) : Prop :=
  (s.node n).ctl.early = some d ∨
    (s.node n).ctl.sent = some d ∧ ∀ ch sga, s.net n = some ch → .address sga ∉ ch.down

def Ctl.released : Ctl → Option Accessed
  | .setLock (.release a) | .exchange _ (.setLock (.release a)) | .closing (.setLock (.release a)) _ => some a
  | _ => none

def Accessed.outcome (mem : UInt64 → Option Block) : Accessed → Option Outcome
  | .read ga f => (f.deref mem).map fun w => .read ga (some w)
  | .write d result => some (.write d (some result))

def Outcome.granted : Outcome → Bool
  | .read _ (some _) | .write _ (some _) => true
  | _ => false

structure StoreOrder (s : State) : Prop where
  pending : ∀ n d, Pends s n d → ∀ m ga, .store m ga d.data ∉ s.log
  source : ∀ m ga w, .store m ga w ∈ s.log → ∃ d, d.ga = ga ∧ d.data = w ∧ CallAt s.log m d
  applied : ∀ n d, (s.node n).calling = some (.write d) → Pends s n d ∨ .store n d.ga d.data ∈ s.log
  returned : ∀ n d r, .ret n (.write d (some r)) ∈ s.log → .store n d.ga d.data ∈ s.log
  nodup : ∀ ga, (stored ga s.log).Nodup

section
variable {s t s₀ : State} {n m p c : NodeId} {e : Effect} {env : Env} {x : Ctl}
variable {d d' : Data Word} {ga : GlobalAddress} {w : Word} {log es : List Event}

theorem mem_stored : w ∈ stored ga log ↔ ∃ m, .store m ga w ∈ log := by
  constructor
  · intro h
    obtain ⟨ev, hev, hw⟩ := List.mem_filterMap.mp h
    cases ev with
    | store m ga' w' =>
      by_cases hga : ga' = ga
      · simp only [Event.stored, hga, ↓reduceIte, Option.some.injEq] at hw
        exact ⟨m, by rw [← hw, ← hga]; exact hev⟩
      · simp [Event.stored, hga] at hw
    | _ => cases hw
  · rintro ⟨m, hm⟩
    exact List.mem_filterMap.mpr ⟨_, hm, by simp [Event.stored]⟩

@[simp] theorem stored_append : stored ga (log ++ es) = stored ga log ++ stored ga es := List.filterMap_append

@[simp] theorem versions_append : versions s₀ ga (log ++ es) = versions s₀ ga log ++ stored ga es := by
  simp [versions]

theorem stored_nil (h : ∀ m ga w, .store m ga w ∉ es) : stored ga es = [] := by
  rw [List.eq_nil_iff_forall_not_mem]
  intro w hw
  obtain ⟨m, hm⟩ := mem_stored.mp hw
  exact h m ga w hm

@[simp] theorem stored_self : stored ga [.store m ga w] = [w] := by simp [stored, Event.stored]

theorem stored_ne (h : d.ga ≠ ga) : stored ga [.store m d.ga w] = [] := by simp [stored, Event.stored, h]

theorem LockSite.op_of_early {k : LockSite} (h : k.early = some d) : k.op = .write d := by
  cases k with
  | acquire a =>
    cases a with
    | read ga => cases h
    | write d' =>
      cases h
      rfl
  | _ => cases h

theorem Broadcaster.op_of_early {b : Broadcaster} (h : b.early = some d) : b.op ga = some (.write d) := by
  cases b with
  | write d' =>
    cases h
    rfl
  | _ => cases h

theorem op_of_early (h : x.early = some d) : x.op = some (.write d) := by
  cases x with
  | setLock k => exact congrArg some (k.op_of_early h)
  | access a =>
    cases a with
    | read ga => cases h
    | write d' =>
      cases h
      rfl
  | memcpy d' =>
    cases h
    rfl
  | broadcast nodes ga b => exact b.op_of_early h
  | exchange ph y =>
    cases y with
    | setLock k => exact congrArg some (k.op_of_early (by cases ph <;> exact h))
    | invalidate m rest ga b => exact b.op_of_early (by cases ph <;> exact h)
    | performWrite d' =>
      cases ph
      all_goals
        cases h
        try rfl
    | _ => cases ph <;> cases h
  | closing y r =>
    cases y with
    | setLock k => exact congrArg some (k.op_of_early h)
    | invalidate m rest ga b => exact b.op_of_early h
    | _ => cases h
  | _ => cases h

theorem op_of_sent (h : x.sent = some d) : x.op = some (.write d) := by
  unfold Ctl.sent at h
  split at h
  all_goals
    cases h
    try rfl

theorem early_of_sent (h : x.sent = some d) : x.early = none := by
  unfold Ctl.sent at h
  split at h
  · rfl
  · rfl
  · cases h

theorem aside_of_op {op : Op Word} (h : x.op = some op) : x.aside = false := by
  have hb : ∀ (ga : GlobalAddress) (b : Broadcaster), b.op ga = some op → b.aside = false := by
    intro ga b hb
    cases b with
    | write => rfl
    | free => rfl
    | _ => cases hb
  have hy : ∀ y : Exchange, y.op = some op → y.aside = false := by
    intro y hy
    cases y with
    | invalidate m rest ga b => exact hb ga b hy
    | forward c r => cases hy
    | _ => rfl
  cases x with
  | broadcast nodes ga b => exact hb ga b h
  | exchange ph y => exact hy y h
  | closing y r => exact hy y h
  | discard ga client =>
    cases client with
    | none => rfl
    | some q => cases h
  | idle | crashed | serving | startInvalidations => cases h
  | _ => rfl

theorem Pends.op (h : Pends s n d) : (s.node n).ctl.op = some (.write d) := by
  rcases h with h | ⟨h, -⟩
  · exact op_of_early h
  · exact op_of_sent h

theorem Pends.suspended (hsus : Suspends s) (h : Pends s n d) : (s.node n).suspended = [] :=
  hsus.of_own rfl (aside_of_op h.op)

theorem Pends.calling (hsus : Suspends s) (h : Pends s n d) : (s.node n).calling = some (.write d) := by
  rw [calling_of_own (h.suspended hsus), h.op]

theorem Pends.unique (hsus : Suspends s) (hC : Calls s) (h : Pends s n d) (h' : Pends s m d')
    (hw : d.data = d'.data) : n = m ∧ d = d' := by
  have hat := hC.callAt (h.calling hsus)
  have hat' := hC.callAt (h'.calling hsus)
  exact hat.unique hat' (by rw [hw])

theorem early_of_detour (ns : NodeState) : ns.endSession.ctl.early = none ∧ ns.endSession.ctl.sent = none := by
  rcases endSession_ctl ns with hc | ⟨d, result, hc⟩
  · rw [hc]
    exact ⟨rfl, rfl⟩
  · rw [hc]
    exact ⟨rfl, rfl⟩

theorem lockAnswer_early {ns : NodeState} {g : Bool} {k : LockSite}
    (h : (ns.lockAnswer n g k).1.ctl.early = some d) : k.early = some d := by
  rcases lockAnswer_ctl (n := n) ns g k with hc | hc | ⟨a, hc⟩
  · rw [hc] at h
    cases h
  · rw [hc] at h
    cases h
  · obtain ⟨rfl, -⟩ := lockAnswer_access hc
    rw [hc] at h
    cases a with
    | read ga => cases h
    | write d' => exact h

theorem Moves.early (hx : (s.node n).ctl = x) (h : Moves s n env x e) (hd : e.self.ctl.early = some d) :
    x.early = some d := by
  cases h with
  | lockGrant k locks granted hn hset => exact lockAnswer_early hd
  | connect x y hopen => cases hopen <;> exact hd
  | writeLocal d' b =>
    cases hb : b.record.writeInvalidates <;> simp only [hb] at hd <;> exact hd
  | freeLocal ga b => cases hb : b.record.freeInvalidates <;> simp only [hb] at hd <;> cases hd
  | swept ga b =>
    cases b with
    | write d' => exact hd
    | startInvalidations d' srcID =>
      rw [stepBroadcast, (early_of_detour _).1] at hd
      cases hd
    | _ => cases hd
  | send y ch hch hnw hnr =>
    cases y with
    | performWrite d' => exact absurd rfl (hnw d')
    | _ => exact hd
  | received y r rest ch hch hdown =>
    cases y with
    | setLock k => exact hd
    | invalidate m nodes ga b => exact hd
    | _ => cases hd
  | closed y r rest ch hch hdown =>
    cases y with
    | setLock k =>
      cases r with
      | lock granted => exact lockAnswer_early hd
      | _ => cases hd
    | invalidate m nodes ga b => exact hd
    | _ => cases r <;> cases hd
  | serve c ch r e hch hpeer hup hs =>
    cases hs with
    | reset =>
      rw [(early_of_detour _).1] at hd
      cases hd
    | free sga b => cases hb : b.record.freeInvalidates <;> simp only [hb] at hd <;> cases hd
    | malloc | read | readCached | write | locks | invalidate =>
      simp only [NodeState.copyRecord_ctl, hx] at hd
      cases hd
    | _ => cases hd
  | _ => cases hd

/-- A write that pends after a move did so before. -/
theorem Moves.pends_back (hS : Sessions s) (hx : (s.node n).ctl = x) (h : Moves s n env x e)
    (hp : Pends (e.apply s n) p d) : Pends s p d := by
  by_cases hpn : p = n
  · subst hpn
    rw [Pends, Effect.apply_self] at hp
    rcases hp with hd | ⟨hd, hdown⟩
    · exact Or.inl (hx ▸ h.early hx hd)
    · rcases h.sent hx hd with ⟨hold, -⟩ | ⟨rfl, -⟩
      · right
        refine ⟨hx ▸ hold, fun ch sga hch hmem => ?_⟩
        cases h with
        | invalidated d' sga' rest ch' hch' hd' =>
          obtain rfl : ch = ch' := Option.some.inj (hch.symm.trans hch')
          rw [hd'] at hmem
          rcases List.mem_cons.mp hmem with hmem | hmem
          · cases hmem
          · refine hdown { ch with down := rest } sga ?_ hmem
            rw [Effect.net_wire rfl, Function.update_self]
        | sendWrite => cases hold
        | send y ch' hch' => cases hold
        | connect _ y hopen => cases hopen <;> cases hold
        | received y r rest ch' hch' hd' => cases y <;> cases hd
        | misread _ _ _ _ _ _ hmis => cases hd
        | suspend => cases hd
        | _ => cases hold
      · exact Or.inl (by rw [hx]; rfl)
  · rw [Pends, Effect.apply_ne hpn] at hp
    refine hp.imp id fun hp => ⟨hp.1, fun ch sga hch hmem => ?_⟩
    by_cases hans : x.answers = some p
    · cases h with
      | discardFor ga c srcID ch' hch' =>
        obtain rfl : c = p := Option.some.inj hans
        obtain rfl : ch = ch' := Option.some.inj (hch.symm.trans hch')
        refine hp.2 (ch.reply (.address (ga.freed.sendable srcID))) sga ?_ (List.mem_append_left _ hmem)
        rw [Effect.net_wire rfl, Function.update_self]
      | startInvalidations c d' nodes srcID ch' b hch' hb =>
        obtain rfl : c = p := Option.some.inj hans
        obtain rfl : ch = ch' := Option.some.inj (hch.symm.trans hch')
        refine hp.2 { ch.reply (.address (d'.ga.sendable srcID)) with isOpen := false } sga ?_
          (List.mem_append_left _ hmem)
        rw [Effect.net_wire rfl, Function.update_self]
      | serve c ch' r e hch' hpeer hup hs =>
        obtain rfl : c = p := Option.some.inj hans
        obtain rfl : ch = ch' := Option.some.inj (hch.symm.trans hch')
        rcases (hS.serving_link hx hch hpeer).of_up hup with ⟨y, -, -, -, rfl⟩ | ⟨y, a, -, -, -, rfl⟩
        · cases hmem
        · cases hmem
      | misread _ _ _ _ _ _ hmis => cases hmis <;> cases hans
      | connect _ y hopen => cases hopen <;> cases hans
      | _ => cases hans
    · exact hp.2 ch sga ((h.net_ne hpn hans).trans hch) hmem

theorem Moves.pends_self (hS : Sessions s) (hsus : Suspends s) (hx : (s.node n).ctl = x) (h : Moves s n env x e)
    (hp : Pends s n d) (hc : e.self.calling = some (.write d)) :
    Pends (e.apply s n) n d ∨ e.events = [.store n d.ga d.data] := by
  have hs := hp.suspended hsus
  have hgone : e.self.suspended = (s.node n).suspended → e.self.ctl.op = none → False := by
    intro hsame hop
    rw [calling_of_own (hsame.trans hs), hop] at hc
    cases hc
  have hearly : e.self.ctl.early = some d → Pends (e.apply s n) n d := by
    intro hd
    left
    rw [Effect.apply_self]
    exact hd
  have hpx : x.early = some d ∨ x.sent = some d ∧ ∀ ch sga, s.net n = some ch → .address sga ∉ ch.down := by
    rw [Pends, hx] at hp
    exact hp
  have hopx : x.op = some (.write d) := by
    rw [← hx]
    exact hp.op
  have hanswer : ∀ (ns : NodeState) (g : Bool) (k : LockSite), ns.suspended = [] → k.early = some d →
      (ns.lockAnswer n g k).1.calling = some (.write d) → (ns.lockAnswer n g k).1.ctl.early = some d := by
    intro ns g k hns hk hcall
    have hsusp : (ns.lockAnswer n g k).1.suspended = [] := by
      rw [NodeState.lockAnswer_fst]
      exact hns
    rw [calling_of_own hsusp] at hcall
    rcases lockAnswer_ctl (n := n) ns g k with hc | hc | ⟨a, hc⟩
    · rw [hc] at hcall
      cases hcall
    · rw [hc] at hcall
      cases hcall
    · obtain ⟨rfl, -⟩ := lockAnswer_access hc
      rw [hc]
      cases a with
      | read ga => cases hk
      | write d' => exact hk
  cases h with
  | lockGrant k locks granted hn hset =>
    rcases hpx with hd | ⟨hd, -⟩
    · exact Or.inl (hearly (hanswer _ granted k hs hd hc))
    · cases hd
  | connect x y hopen =>
    rcases hpx with hd | ⟨hd, -⟩
    · left
      apply hearly
      cases hopen <;> exact hd
    · cases hopen <;> cases hd
  | writeLocal d' b =>
    rcases hpx with hd | ⟨hd, -⟩
    · left
      apply hearly
      cases b.record.writeInvalidates <;> exact hd
    · cases hd
  | memcpy d' b hb =>
    rcases hpx with hd | ⟨hd, -⟩
    · cases hd
      exact Or.inr rfl
    · cases hd
  | swept ga b =>
    rcases hpx with hd | ⟨hd, -⟩
    · cases b with
      | write d' => exact Or.inl (hearly hd)
      | _ => cases hd
    · cases hd
  | sendWrite d' ch cache hch ha =>
    cases hopx
    have hl := (hS.link n ch hch).2
    rw [hx] at hl
    obtain ⟨rfl, -⟩ := hl.of_connected
    refine Or.inl (Or.inr ⟨by rw [Effect.apply_self]; rfl, fun ch' sga hch' => ?_⟩)
    rw [Effect.net_wire rfl, Function.update_self] at hch'
    cases hch'
    exact List.not_mem_nil
  | send y ch hch hnw hnr =>
    rcases hpx with hd | ⟨hd, -⟩
    · left
      apply hearly
      cases y with
      | performWrite d' => exact absurd rfl (hnw d')
      | _ => exact hd
    · cases y <;> cases hd
  | invalidated d' sga rest ch hch hd =>
    cases hopx
    rcases hpx with hd' | ⟨-, hdown⟩
    · cases hd'
    · refine Or.inl (Or.inr ⟨by rw [Effect.apply_self]; rfl, fun ch' sga' hch' hmem => ?_⟩)
      rw [Effect.net_wire rfl, Function.update_self] at hch'
      cases hch'
      refine hdown ch sga' hch ?_
      rw [hd]
      exact List.mem_cons_of_mem _ hmem
  | received y r rest ch hch hd hplain hni =>
    rcases hpx with hd' | ⟨hd', hdown⟩
    · left
      apply hearly
      cases y with
      | setLock k => exact hd'
      | invalidate m nodes ga b => exact hd'
      | _ => cases hd'
    · cases y with
      | performWrite d' =>
        have hl := (hS.link n ch hch).2
        rw [hx] at hl
        rcases hl.of_waiting hd with ⟨-, -, hr, -, -⟩ | ⟨d'', sga, heq, rfl, -⟩
        · cases r with
          | address sga => exact absurd (by rw [hd]; exact List.mem_cons_self) (hdown ch sga hch)
          | _ => cases hr
        · exact absurd rfl (hni _ sga heq)
      | _ => cases hd'
  | suspend d' sga rest ch hch hd =>
    rcases hpx with hd' | ⟨-, hdown⟩
    · cases hd'
    · exact absurd (by rw [hd]; exact List.mem_cons_self) (hdown ch sga hch)
  | closed y r rest ch hch hd =>
    rcases hpx with hd' | ⟨hd', -⟩
    · cases y with
      | setLock k =>
        cases r with
        | lock granted => exact Or.inl (hearly (hanswer _ granted k hs hd' hc))
        | _ => exact absurd (hgone rfl rfl) id
      | invalidate m nodes ga b => exact Or.inl (hearly hd')
      | _ => cases hd'
    · cases y <;> cases hd'
  | serve c ch r e hch hpeer hup hs => cases hopx
  | startInvalidations => cases hopx
  | sendCrash | fetchCrash | misread => exact absurd (hgone rfl rfl) id
  | mallocReturn => cases hopx
  | fetched => cases hopx
  | discardFor => cases hopx
  | sendReset d' result ch hch =>
    rcases hpx with hd | ⟨hd, -⟩
    · cases hd
    · cases hd
  | _ => cases hopx

theorem Moves.pends_ne (hS : Sessions s) (hx : (s.node n).ctl = x) (h : Moves s n env x e) (hpn : p ≠ n)
    (hp : Pends s p d) : Pends (e.apply s n) p d ∨ e.events = [.store p d.ga d.data] := by
  have hkeep : (∀ ch sga, (e.apply s n).net p = some ch → .address sga ∉ ch.down) → Pends (e.apply s n) p d := by
    intro hdown
    rw [Pends, Effect.apply_ne hpn]
    exact hp.imp id fun hp => ⟨hp.1, hdown⟩
  rcases hp with hp | ⟨hsent, hdown⟩
  · refine Or.inl (Or.inl ?_)
    rw [Effect.apply_ne hpn]
    exact hp
  · have hwaits : ∀ y, (s.node p).ctl = .exchange .waiting y → y = .performWrite d := by
      intro y hy
      rw [hy] at hsent
      cases y with
      | performWrite d' =>
        cases hsent
        rfl
      | _ => cases hsent
    by_cases hans : x.answers = some p
    · cases h with
      | discardFor ga c srcID ch hch =>
        obtain rfl : c = p := Option.some.inj hans
        obtain ⟨dh, hdh, -, ho, hl⟩ := hS.client_link hx rfl (by simp)
        obtain ⟨y, hown, hreq, -⟩ := hl.of_handles ho rfl
        obtain rfl := hwaits y hown
        cases hreq
      | startInvalidations c d' nodes srcID ch b hch hb =>
        obtain rfl : c = p := Option.some.inj hans
        obtain ⟨dh, hdh, -, ho, hl⟩ := hS.client_link hx rfl (by simp)
        obtain ⟨rfl, ⟨sga, hown, -⟩ | ⟨hown, -⟩⟩ := hl.of_startInvalidations ho
        all_goals
          rw [hown] at hsent
          cases hsent
          exact Or.inr rfl
      | serve c ch r e hch hpeer hup hs =>
        obtain rfl : c = p := Option.some.inj hans
        rcases (hS.serving_link hx hch hpeer).of_up hup with ⟨y, hown, rfl, -, rfl⟩ | ⟨y, a, hown, -, -⟩
        · obtain rfl := hwaits y hown
          cases hs with
          | write sd b => exact Or.inr rfl
          | writeShared sd b =>
            refine Or.inl (hkeep fun ch sga hch' => ?_)
            rw [Effect.net_wire rfl, Function.update_self] at hch'
            cases hch'
            simp [Channel.reply]
          | forward r hf =>
            refine Or.inl (hkeep fun ch sga hch' => ?_)
            rw [Effect.net_wire rfl, Function.update_self] at hch'
            cases hch'
            exact List.not_mem_nil
        · rw [hown] at hsent
          cases hsent
      | misread _ _ _ _ _ _ hmis => cases hmis <;> cases hans
      | connect _ y hopen => cases hopen <;> cases hans
      | _ => cases hans
    · refine Or.inl (hkeep fun ch sga hch => hdown ch sga ?_)
      rw [← h.net_ne hpn hans, hch]

/-- A write is stored while it pends, and then it pends no more: the node's own, or one that it was sent. -/
theorem Moves.stores (hS : Sessions s) (hx : (s.node n).ctl = x) (h : Moves s n env x e) :
    (∀ m ga w, .store m ga w ∉ e.events) ∨
    ∃ c d, Pends s c d ∧ ¬ Pends (e.apply s n) c d ∧ e.events = [.store c d.ga d.data] ∧
      (x = .memcpy d ∧ c = n ∨ (s.node c).ctl.sent = some d) := by
  have hquiet : (∀ ev ∈ e.events, ev.onMemory = false) → ∀ m ga w, .store m ga w ∉ e.events :=
    fun hev m ga w hmem => Bool.noConfusion (hev _ hmem)
  cases h.memory hS hx with
  | same _ _ hmem hev => exact Or.inl (hquiet hev)
  | register c ga b hn hga hown hch hb => exact Or.inl (by simp)
  | take c d b hn hd hown hch hb hinv =>
    have hcn : c ≠ n := by
      rintro rfl
      rw [hx] at hown
      cases hown
    refine Or.inr ⟨c, d, Or.inr ⟨by rw [hown]; rfl, fun ch sga hch' => ?_⟩, ?_, rfl, Or.inr (by rw [hown]; rfl)⟩
    · rw [hch] at hch'
      cases hch'
      exact List.not_mem_nil
    · rintro (he | ⟨-, hdown⟩)
      · rw [Effect.apply_ne hcn, hown] at he
        cases he
      · refine hdown ⟨port, none, [.address (d.ga.sendable c)], true⟩ (d.ga.sendable c) ?_ List.mem_cons_self
        rw [Effect.net_wire rfl, Function.update_self]
  | takeShared c d nodes ch b hown hch hna hb =>
    have hcn : c ≠ n := by
      rintro rfl
      rw [hx] at hown
      cases hown
    refine Or.inr ⟨c, d, Or.inr ⟨hown, ?_⟩, ?_, rfl, Or.inr hown⟩
    · intro ch' sga hch'
      obtain rfl : ch = ch' := Option.some.inj (hch.symm.trans hch')
      exact hna sga
    · rintro (he | ⟨-, hdown⟩)
      · rw [Effect.apply_ne hcn, early_of_sent hown] at he
        cases he
      · refine hdown { ch.reply (.address (d.ga.sendable c)) with isOpen := false } (d.ga.sendable c) ?_
          (List.mem_append_right _ (List.mem_singleton_self _))
        rw [Effect.net_wire rfl, Function.update_self]
  | memcpy d b hb =>
    refine Or.inr ⟨n, d, Or.inl (by rw [hx]; rfl), ?_, rfl, Or.inl ⟨rfl, rfl⟩⟩
    rintro (he | ⟨hsent, -⟩)
    · rw [Effect.apply_self] at he
      cases he
    · rw [Effect.apply_self] at hsent
      cases hsent
  | alloc _ _ size ptr content es _ _ _ hev hes =>
    left
    intro m ga w hst
    rw [hev] at hst
    rcases List.mem_cons.mp hst with hst | hst
    · cases hst
    · exact Bool.noConfusion (hes _ hst)
  | discard _ ga client es hmem hev hes =>
    left
    intro m ga' w hst
    rw [hev] at hst
    rcases List.mem_cons.mp hst with hst | hst
    · cases hst
    · exact Bool.noConfusion (hes _ hst)

theorem lockAnswer_granted {ns : NodeState} {g : Bool} {k : LockSite} {o : Outcome}
    (h : .ret m o ∈ (ns.lockAnswer n g k).2) (ho : o.granted = true) :
    m = n ∧ ∃ a, k = .release a ∧ a.outcome ns.mem = some o := by
  cases k with
  | acquire a =>
    cases g with
    | true => cases h
    | false =>
      cases List.mem_singleton.mp h
      cases a <;> cases ho
  | release a =>
    cases a with
    | read ga f =>
      simp only [NodeState.lockAnswer] at h
      cases hf : f.deref ns.mem with
      | none =>
        rw [hf] at h
        cases h
      | some w =>
        rw [hf] at h
        cases List.mem_singleton.mp h
        exact ⟨rfl, _, rfl, by rw [Accessed.outcome, hf]; rfl⟩
    | write d result =>
      cases List.mem_singleton.mp h
      exact ⟨rfl, _, rfl, rfl⟩
  | call l =>
    cases List.mem_singleton.mp h
    cases ho

theorem Moves.granted (h : Moves s n env x e) {o : Outcome} (hr : .ret m o ∈ e.events) (ho : o.granted = true) :
    m = n ∧ ∃ a, x.released = some a ∧ a.outcome (s.node n).mem = some o := by
  cases h with
  | lockGrant k locks granted hn hset =>
    simp only [List.mem_cons, reduceCtorEq, false_or] at hr
    obtain ⟨hm, a, rfl, hout⟩ := lockAnswer_granted hr ho
    exact ⟨hm, a, rfl, hout⟩
  | closed y r rest ch hch hd =>
    cases y with
    | setLock k =>
      cases r with
      | lock granted =>
        simp only [NodeState.closed, List.mem_cons, reduceCtorEq, false_or] at hr
        obtain ⟨hm, a, rfl, hout⟩ := lockAnswer_granted hr ho
        exact ⟨hm, a, rfl, hout⟩
      | _ => cases hr
    | free ga =>
      cases r with
      | address sga =>
        cases List.mem_singleton.mp hr
        cases ho
      | _ => cases hr
    | _ => cases r <;> cases hr
  | mallocLocal size =>
    simp only [List.mem_cons, reduceCtorEq, false_or, List.not_mem_nil, or_false, Event.ret.injEq] at hr
    rw [hr.2] at ho
    cases ho
  | mallocReturn size sga rest ch hch hd =>
    cases List.mem_singleton.mp hr
    cases ho
  | discardOwn ga =>
    simp only [List.mem_cons, reduceCtorEq, false_or, List.not_mem_nil, or_false, Event.ret.injEq] at hr
    rw [hr.2] at ho
    cases ho
  | serve c ch r e hch hpeer hup hs =>
    cases hs with
    | malloc | write | locks => cases List.mem_singleton.mp hr
    | _ => cases hr
  | swept ga b => cases b <;> cases hr
  | memcpy | discardFor | startInvalidations => cases List.mem_singleton.mp hr
  | _ => cases hr

theorem early_of_released {a : Accessed} (h : x.released = some a) : x.early = none ∧ x.sent = none := by
  unfold Ctl.released at h
  split at h
  · exact ⟨rfl, rfl⟩
  · rename_i ph a'
    cases ph <;> exact ⟨rfl, rfl⟩
  · exact ⟨rfl, rfl⟩
  · cases h

theorem not_pends_of_released {a : Accessed} (h : (s.node n).ctl.released = some a) : ¬ Pends s n d := by
  obtain ⟨hearly, hsent⟩ := early_of_released h
  rintro (hp | ⟨hp, -⟩)
  · rw [hearly] at hp
    cases hp
  · rw [hsent] at hp
    cases hp

theorem op_of_released {a : Accessed} (h : x.released = some a) : x.op = some a.op := by
  unfold Ctl.released at h
  split at h
  all_goals
    cases h
    try rfl

theorem Moves.returns_write (hsus : Suspends s) (h : Moves s n env (s.node n).ctl e) {r : GlobalAddress}
    (hr : .ret m (.write d (some r)) ∈ e.events) :
    m = n ∧ (s.node n).calling = some (.write d) ∧ ¬ Pends s n d := by
  obtain ⟨hm, a, ha, hout⟩ := h.granted hr rfl
  have hop := op_of_released ha
  refine ⟨hm, ?_, not_pends_of_released ha⟩
  rw [calling_of_own (hsus.of_own rfl (aside_of_op hop)), hop]
  cases a with
  | read ga f =>
    simp only [Accessed.outcome, Option.map_eq_some_iff] at hout
    obtain ⟨w, -, hw⟩ := hout
    cases hw
  | write d' r' =>
    cases hout
    rfl

theorem StoreOrder.begin {op : Op UInt64} (h : StoreOrder s) (hsus : (s.node n).suspended = []) :
    StoreOrder (s.begun n (op.stamp s.clock)) := by
  have hstore : ∀ m ga w, .store m ga w ∈ (s.begun n (op.stamp s.clock)).log → .store m ga w ∈ s.log := by
    intro m ga w hm
    simpa using hm
  have hself := State.begun_calling (op.stamp s.clock) hsus
  refine ⟨fun p d hp m ga hm => ?_, fun m ga w hm => ?_, fun p d hp => ?_, fun p d r hr => ?_, fun ga => ?_⟩
  · by_cases hpn : p = n
    · subst hpn
      obtain ⟨d', -, hw, hat⟩ := h.source m ga _ (hstore _ _ _ hm)
      have hle := hat.stamp_le
      rw [hw] at hle
      rcases hp with hp | ⟨hp, -⟩
      · rw [State.begun_self] at hp
        cases op with
        | write d'' =>
          cases hp
          simp only [State.clock] at hle
          omega
        | _ => cases hp
      · rw [State.begun_self] at hp
        cases op <;> cases hp
    · rw [Pends, State.begun_ne hpn] at hp
      exact h.pending p d hp m ga (hstore _ _ _ hm)
  · obtain ⟨d, hd, hw, hat⟩ := h.source m ga w (hstore _ _ _ hm)
    exact ⟨d, hd, hw, hat.append _⟩
  · by_cases hpn : p = n
    · subst hpn
      rw [hself] at hp
      refine Or.inl (Or.inl ?_)
      rw [State.begun_self]
      cases op with
      | write d' =>
        cases hp
        rfl
      | _ => cases hp
    · rw [State.begun_ne hpn] at hp
      rcases h.applied p d hp with hp | hs
      · left
        rw [Pends, State.begun_ne hpn]
        exact hp
      · exact Or.inr (List.mem_append_left _ hs)
  · have hold : .ret p (.write d (some r)) ∈ s.log := by simpa using hr
    exact List.mem_append_left _ (h.returned p d r hold)
  · have hnil : stored ga [.call n (op.stamp s.clock)] = [] := rfl
    rw [State.begun_log, stored_append, hnil, List.append_nil]
    exact h.nodup ga

theorem StoreOrder.moves (hS : Sessions s) (hsus : Suspends s) (hC : Calls s)
    (h : StoreOrder s) (hm : Moves s n env (s.node n).ctl e) : StoreOrder (e.apply s n) := by
  have hfrom : ∀ m ga w, .store m ga w ∈ e.events →
      ∃ d, Pends s m d ∧ ¬ Pends (e.apply s n) m d ∧ d.ga = ga ∧ d.data = w := by
    intro m ga w hmem
    rcases hm.stores hS rfl with hno | ⟨c, d, hp, hnp, hev, -⟩
    · exact absurd hmem (hno m ga w)
    · rw [hev] at hmem
      cases List.mem_singleton.mp hmem
      exact ⟨d, hp, hnp, rfl, rfl⟩
  have happlied : ∀ p d, Pends s p d → ((e.apply s n).node p).calling = some (.write d) →
      Pends (e.apply s n) p d ∨ .store p d.ga d.data ∈ (e.apply s n).log := by
    intro p d hp hcall
    have hmove : Pends (e.apply s n) p d ∨ e.events = [.store p d.ga d.data] := by
      by_cases hpn : p = n
      · subst hpn
        rw [Effect.apply_self] at hcall
        exact hm.pends_self hS hsus rfl hp hcall
      · exact hm.pends_ne hS rfl hpn hp
    rcases hmove with hp | hev
    · exact Or.inl hp
    · right
      rw [Effect.apply_log, hev]
      simp
  refine ⟨fun p d hp m ga hmem => ?_, fun m ga w hmem => ?_, fun p d hp => ?_, fun p d r hr => ?_, fun ga => ?_⟩
  · have hold := hm.pends_back hS rfl hp
    rcases List.mem_append.mp hmem with hmem | hmem
    · exact h.pending p d hold m ga hmem
    · obtain ⟨d', hp', hnp, -, hw⟩ := hfrom m ga _ hmem
      obtain ⟨rfl, rfl⟩ := hold.unique hsus hC hp' hw.symm
      exact hnp hp
  · rcases List.mem_append.mp hmem with hmem | hmem
    · obtain ⟨d, hd, hw, hat⟩ := h.source m ga w hmem
      exact ⟨d, hd, hw, hat.append _⟩
    · obtain ⟨d, hp, -, hd, hw⟩ := hfrom m ga w hmem
      exact ⟨d, hd, hw, (hC.callAt (hp.calling hsus)).append _⟩
  · have hold : (s.node p).calling = some (.write d) := by
      by_cases hpn : p = n
      · subst hpn
        rw [Effect.apply_self] at hp
        rcases hm.proceeds hsus rfl with ⟨hc | hc, -⟩ | ⟨-, -, -, -, -, -, -, hc⟩
        · rw [← hc, hp]
        · rw [hc] at hp
          cases hp
        · rw [hc] at hp
          cases hp
      · rwa [Effect.apply_ne hpn] at hp
    rcases h.applied p d hold with hpend | hst
    · exact happlied p d hpend hp
    · exact Or.inr (List.mem_append_left _ hst)
  · rcases List.mem_append.mp hr with hr | hr
    · exact List.mem_append_left _ (h.returned p d r hr)
    · obtain ⟨rfl, hcall, hnp⟩ := hm.returns_write hsus hr
      rcases h.applied p d hcall with hpend | hst
      · exact absurd hpend hnp
      · exact List.mem_append_left _ hst
  · rw [Effect.apply_log, stored_append]
    rcases hm.stores hS rfl with hno | ⟨c, d, hp, hnp, hev, -⟩
    · rw [stored_nil hno, List.append_nil]
      exact h.nodup ga
    · by_cases hga : d.ga = ga
      · rw [hev, hga, stored_self]
        refine List.Nodup.append (h.nodup ga) (List.nodup_singleton _) ?_
        intro w hw hw'
        obtain rfl := List.mem_singleton.mp hw'
        obtain ⟨m, hm⟩ := mem_stored.mp hw
        exact h.pending c d hp m ga hm
      · rw [hev, stored_ne hga, List.append_nil]
        exact h.nodup ga

theorem StoreOrder.steps {a : Action} (hS : Sessions s) (hsus : Suspends s) (hC : Calls s)
    (h : StoreOrder s) (hs : Steps s a t) : StoreOrder t := by
  cases hs with
  | begin n op hidle hsn => exact h.begin hsn
  | accept m c y hc hm hidle =>
    have hpend : ∀ p d, Pends (s.accepted m c y) p d ↔ Pends s p d := by
      intro p d
      by_cases hpc : p = c
      · subst hpc
        rw [Pends, Pends, State.accepted_client, hc]
        cases y <;> simp [Ctl.early, Ctl.sent, NodeState.goto]
      · rw [Pends, Pends, State.accepted_net_ne hpc]
        by_cases hpm : p = m
        · subst hpm
          rw [State.accepted_server hpc, hidle]
          simp [Ctl.early, Ctl.sent, NodeState.goto]
        · rw [State.accepted_ne hpc hpm]
    refine ⟨fun p d hp => h.pending p d ((hpend p d).mp hp), h.source, fun p d hp => ?_, h.returned, h.nodup⟩
    rw [State.accepted_calling hc hidle] at hp
    exact (h.applied p d hp).imp (hpend p d).mpr id
  | exec n env e _ hm => exact h.moves hS hsus hC hm

theorem Quiet.storeOrder (h : Quiet s) : StoreOrder s := by
  refine ⟨fun n d hp => ?_, fun m ga w hm => ?_, fun n d hc => ?_, fun n d r hr => ?_, fun ga => ?_⟩
  · rcases hp with hp | ⟨hp, -⟩
    all_goals
      rw [h.idle n] at hp
      cases hp
  · rw [h.log] at hm
    cases hm
  · rw [calling_of_own (h.suspended n), h.idle n] at hc
    cases hc
  · rw [h.log] at hr
    cases hr
  · rw [h.log]
    exact List.nodup_nil

end
end CacheCoherence.Protocol
