import CacheCoherence.Locking.Service
import CacheCoherence.Protocol.Suspension

/-! # Critical sections

`Node::read` and `Node::write` acquire the lock of the home of their address and release it at the
end. The table stores neither the holders nor their number, and a release names nobody.
-/
namespace CacheCoherence.Protocol
open TransitionRuns

/-- Node `n` has been granted the lock `i` in the mode `st` and has not released it. -/
def Inside (st : LockState) (i : UInt16) (n : NodeId) (ds : List Decision) : Prop :=
  Held st i (ds.filter (·.client = n))

/-- No node is inside an exclusive section while another one is inside a section of the same lock. -/
def Exclusion (s : State) : Prop :=
  ∀ i n m, n ≠ m → Inside .exclusive i n (decisions s.log) →
    ¬ Inside .sharedlock i m (decisions s.log) ∧ ¬ Inside .exclusive i m (decisions s.log)

def Decides (s : State) (a : Action) (c : NodeId) (l : Lock) : Prop :=
  (∃ env, a = .exec locknode env) ∧
  ((∃ k, (s.node locknode).ctl = .setLock k ∧ c = locknode ∧ l = k.lock) ∨
    (s.node locknode).ctl = .serving c ∧
      ∃ ch, s.net c = some ch ∧ ch.peer = locknode ∧ ch.up = some (.locks l))

/-- An EXCLUSIVE request that finds its entry free finds no other node inside a shared section. -/
def FreeMeansEmpty (s : State) (a : Action) : Prop :=
  ∀ c l, Decides s a c l → l.state = .exclusive →
    LockTable.grants ((s.node locknode).locks l.id) .exclusive = true →
    ∀ m, m ≠ c → ¬ Inside .sharedlock l.id m (decisions s.log)

def Action.accesses : Action → Prop
  | .begin _ (.read _) | .begin _ (.write _) => True
  | .begin _ _ => False
  | _ => True

def Broadcaster.holds : Broadcaster → Option UInt16
  | .write d => some d.ga.id
  | _ => none

def Exchange.holds : Exchange → Option UInt16
  | .performRead ga => some ga.id
  | .performWrite d => some d.ga.id
  | .invalidate _ _ _ b => b.holds
  | .reconnect d _ => some d.ga.id
  | _ => none

def LockSite.holds : LockSite → Option UInt16
  | .release a => some a.ga.id
  | _ => none

def Ctl.holds : Ctl → Option UInt16
  | .setLock k => k.holds
  | .access a => some a.ga.id
  | .memcpy d => some d.ga.id
  | .broadcast _ _ b => b.holds
  | .exchange _ (.setLock k) => k.holds
  | .exchange _ e => e.holds
  | .closing e _ => e.holds
  | _ => none

/-- Node `n` is in the body of an access under the lock `i`, or its release is not yet decided. -/
def Holding (s : State) (n : NodeId) (i : UInt16) : Prop :=
  ((s.node n).ctl.holds = some i ∧ pending (s.node n).ctl (s.net n) = none) ∨
  ∃ p ∈ (s.node n).suspended, p.1.ga.id = i

def Ctl.site : Ctl → Option LockSite
  | .setLock k => some k
  | .exchange _ (.setLock k) => some k
  | .closing (.setLock k) _ => some k
  | _ => none

section
variable {s : State} {n c : NodeId} {e : Effect} {env : Env} {x : Ctl} {st : LockState} {i : UInt16}
variable {ds : List Decision} {d : Decision}

theorem inside_concat_ne (h : d.client ≠ n) : Inside st i n (ds ++ [d]) ↔ Inside st i n ds := by
  simp [Inside, List.filter_append, h]

theorem inside_concat (h : d.client = n) : Inside st i n (ds ++ [d]) ↔
    (d.lock = ⟨i, st⟩ ∧ d.granted = true) ∨ (d.lock ≠ ⟨i, .unlocked⟩ ∧ Inside st i n ds) := by
  have hf : (ds ++ [d]).filter (·.client = n) = ds.filter (·.client = n) ++ [d] := by
    simp [List.filter_append, h]
  rw [Inside, hf, held_concat]
  rfl

theorem inside_append_of_nil {es : List Event} {log : List Event} (h : decisionsOf n es = []) :
    Inside st i n (decisions (log ++ es)) ↔ Inside st i n (decisions log) := by
  have hf : (decisions es).filter (·.client = n) = [] := by
    rw [List.filter_eq_nil_iff]
    intro d hd hdn
    have hmem : (d.lock, d.granted) ∈ decisionsOf n es :=
      List.mem_filterMap.mpr ⟨d, hd, by simpa using hdn⟩
    rw [h] at hmem
    cases hmem
  rw [decisions_append, Inside, Inside, List.filter_append, hf, List.append_nil]

theorem Moves.decided (h : Moves s n env x e) (hx : (s.node n).ctl = x) :
    ((∀ c l, ¬ Decides s (.exec n env) c l) ∧ decisions e.events = [] ∧
      e.self.locks = (s.node n).locks) ∨
    n = locknode ∧ ∃ c l, (∀ c' l', Decides s (.exec n env) c' l' ↔ c' = c ∧ l' = l) ∧
      decisions e.events = [⟨c, l, LockTable.grants ((s.node n).locks l.id) l.state⟩] ∧
      e.self.locks = ((s.node n).locks.setLock l.id l.state).1 := by
  rcases h.decides with ⟨hl, hd⟩ | ⟨c, l, hcase, hn, hl, hd⟩
  · refine Or.inl ⟨?_, hd, hl⟩
    rintro c l ⟨⟨env', ha⟩, hcase⟩
    cases ha
    rw [hx] at hcase
    rcases hcase with ⟨k, rfl, rfl, rfl⟩ | ⟨rfl, ch, hch, hpeer, hup⟩
    · cases h with
      | lockGrant k locks granted hn hset =>
        rw [decisions, List.filterMap_cons] at hd
        cases hd
      | connect _ y hopen =>
        cases hopen with
        | setLock _ hne => exact hne rfl
      | misread _ _ _ _ _ _ hmis => cases hmis
    · cases h with
      | serve _ dh r e hdh _ hup' hs =>
        obtain rfl : ch = dh := Option.some.inj (hch.symm.trans hdh)
        obtain rfl : Request.locks l = r := Option.some.inj (hup.symm.trans hup')
        cases hs with
        | locks _ hn => cases hd
        | forward _ hf =>
          cases hf with
          | locks _ hne => exact hne rfl
      | connect _ y hopen => cases hopen
      | misread _ _ _ _ _ _ hmis => cases hmis
  · refine Or.inr ⟨hn, c, l, ?_, by rw [hd, LockTable.setLock_snd], hl⟩
    subst hn
    intro c' l'
    unfold Decides
    rw [hx]
    constructor
    · rintro ⟨-, hcase'⟩
      rcases hcase with ⟨k, rfl, rfl, rfl⟩ | ⟨rfl, ch, hch, -, hup⟩
      · rcases hcase' with ⟨k', hk, rfl, rfl⟩ | ⟨hk, -⟩
        · cases hk
          exact ⟨rfl, rfl⟩
        · cases hk
      · rcases hcase' with ⟨k', hk, -⟩ | ⟨hk, ch', hch', -, hup'⟩
        · cases hk
        · cases hk
          rw [hch] at hch'
          cases hch'
          rw [hup] at hup'
          cases hup'
          exact ⟨rfl, rfl⟩
    · rintro ⟨rfl, rfl⟩
      exact ⟨⟨env, rfl⟩, hcase⟩

theorem Moves.holds (hx : (s.node n).ctl = x) (h : Moves s n env x e)
    (hh : e.self.ctl.holds = some i) : (Holding s n i ∧ decisions e.events = []) ∨
    ∃ a : Access, a.ga.id = i ∧ (pending x (s.net n) = some (⟨i, a.mode⟩, true) ∨
      decisions e.events = [⟨n, ⟨i, a.mode⟩, true⟩]) := by
  have hold : x.holds = some i → x.online = false → Holding s n i := by
    intro hxi hoff
    refine Or.inl ⟨by rw [hx, hxi], ?_⟩
    rw [hx, pending_of_offline hoff]
  have hsession : e.self.ctl = (s.node n).endSession.ctl → Holding s n i := by
    intro hctl
    rw [hctl] at hh
    unfold NodeState.endSession at hh
    split at hh
    · rename_i d result rest hsus
      cases hh
      exact Or.inr ⟨(d, result), by rw [hsus]; exact List.mem_cons_self, rfl⟩
    · cases hh
  have hexchange : ∀ ph y, x = .exchange ph y → (Ctl.exchange ph y).holds = some i →
      ((∀ k, y ≠ .setLock k) ∨ ph = .connected) → Holding s n i := by
    intro ph y hxy hxi hy
    refine Or.inl ⟨by rw [hx, hxy, hxi], ?_⟩
    rw [hx, hxy]
    rcases hy with hy | rfl
    · rw [pending_congr (fun k hk => hy k (by cases hk; rfl)) _ none]
      cases ph <;> cases y <;> rfl
    · rfl
  cases h with
  | lockGrant k locks granted hn hset =>
    rcases lockAnswer_ctl (n := n) { s.node n with locks := locks } granted k with hc | hc | ⟨a, hc⟩
    · rw [hc] at hh
      cases hh
    · rw [hc] at hh
      cases hh
    · obtain ⟨rfl, rfl⟩ := lockAnswer_access hc
      rw [hc] at hh
      cases hh
      exact Or.inr ⟨a, rfl, Or.inr rfl⟩
  | connect x y hopen => exact Or.inl ⟨hold (by cases hopen <;> exact hh) hopen.settles.2.1, rfl⟩
  | writeLocal d b =>
    refine Or.inl ⟨hold ?_ rfl, rfl⟩
    cases hb : b.record.writeInvalidates <;> simp only [hb] at hh <;> exact hh
  | freeLocal ga b => cases hb : b.record.freeInvalidates <;> simp only [hb] at hh <;> cases hh
  | swept ga b =>
    cases b with
    | write d => exact Or.inl ⟨hold hh rfl, rfl⟩
    | startInvalidations d srcID => exact Or.inl ⟨hsession rfl, rfl⟩
    | _ => cases hh
  | closed y r rest ch hch hd =>
    have hclosing : (Ctl.closing y r).holds = some i → (∀ k, y ≠ .setLock k) → Holding s n i := by
      intro hxi hy
      refine Or.inl ⟨by rw [hx, hxi], ?_⟩
      rw [hx]
      cases y with
      | setLock k => exact absurd rfl (hy k)
      | _ => cases r <;> rfl
    cases y with
    | setLock k =>
      cases r with
      | lock granted =>
        rcases lockAnswer_ctl (n := n) (s.node n) granted k with hc | hc | ⟨a, hc⟩
        · simp only [NodeState.closed, hc] at hh
          cases hh
        · simp only [NodeState.closed, hc] at hh
          cases hh
        · simp only [NodeState.closed, hc] at hh
          cases hh
          obtain ⟨rfl, rfl⟩ := lockAnswer_access hc
          exact Or.inr ⟨a, rfl, Or.inl rfl⟩
      | _ => cases hh
    | malloc size => cases hh
    | forward c q => cases hh
    | free ga => cases r <;> cases hh
    | invalidate m rest ga b => exact Or.inl ⟨hclosing hh (by simp), rfl⟩
    | reconnect d result => exact Or.inl ⟨hclosing hh (by simp), rfl⟩
    | performRead ga =>
      cases r with
      | data w => exact Or.inl ⟨hclosing hh (by simp), rfl⟩
      | _ => cases hh
    | performWrite d =>
      cases r with
      | address sga => exact Or.inl ⟨hclosing hh (by simp), rfl⟩
      | _ => cases hh
  | received y r rest ch hch hd =>
    have hy : ∀ k, y ≠ .setLock k := by
      rintro k rfl
      cases hh
    refine Or.inl ⟨hexchange _ y rfl ?_ (Or.inl hy), rfl⟩
    cases y with
    | setLock k => exact absurd rfl (hy k)
    | _ => exact hh
  | send y ch hch hnw hnr =>
    refine Or.inl ⟨hexchange _ y rfl ?_ (Or.inr rfl), rfl⟩
    cases y <;> exact hh
  | sendWrite d ch cache hch ha => exact Or.inl ⟨hexchange _ _ rfl hh (Or.inr rfl), rfl⟩
  | sendReset d result ch hch => exact Or.inl ⟨hexchange _ _ rfl hh (Or.inr rfl), rfl⟩
  | fetched ga w rest ch cache hch hd hadd => exact Or.inl ⟨hexchange _ _ rfl hh (Or.inl (by simp)), rfl⟩
  | invalidated d sga rest ch hch hd => exact Or.inl ⟨hexchange _ _ rfl hh (Or.inl (by simp)), rfl⟩
  | serve c ch r e hch hpeer hup hs =>
    cases hs with
    | reset => exact Or.inl ⟨hsession rfl, rfl⟩
    | free sga b => cases hb : b.record.freeInvalidates <;> simp only [hb] at hh <;> cases hh
    | malloc | read | readCached | write | locks | invalidate =>
      simp only [NodeState.copyRecord_ctl, hx] at hh
      cases hh
    | _ => cases hh
  | readLocal | readCached | memcpy => exact Or.inl ⟨hold hh rfl, rfl⟩
  | _ => cases hh

theorem Moves.site_call {l : Lock} (hx : (s.node n).ctl = x) (h : Moves s n env x e)
    (hk : e.self.ctl.site = some (.call l)) : x.site = some (.call l) := by
  have hsession : e.self.ctl = (s.node n).endSession.ctl → x.site = some (.call l) := by
    intro hctl
    rcases endSession_ctl (s.node n) with hc | ⟨d, result, hc⟩
    all_goals
      rw [hctl, hc] at hk
      cases hk
  cases h with
  | lockGrant k locks granted hn hset =>
    rcases lockAnswer_ctl (n := n) { s.node n with locks := locks } granted k with hc | hc | ⟨a, hc⟩
    all_goals
      rw [hc] at hk
      cases hk
  | connect x y hopen =>
    cases hopen with
    | setLock k hne => exact hk
    | _ => cases hk
  | writeLocal d b => cases hb : b.record.writeInvalidates <;> simp only [hb] at hk <;> cases hk
  | freeLocal ga b => cases hb : b.record.freeInvalidates <;> simp only [hb] at hk <;> cases hk
  | swept ga b =>
    cases b with
    | startInvalidations d srcID => exact hsession rfl
    | _ => cases hk
  | closed y r rest ch hch hd =>
    cases y with
    | setLock k =>
      cases r with
      | lock granted =>
        rcases lockAnswer_ctl (n := n) (s.node n) granted k with hc | hc | ⟨a, hc⟩
        all_goals
          simp only [NodeState.closed, hc] at hk
          cases hk
      | _ => cases hk
    | _ => cases r <;> cases hk
  | received y r rest ch hch hd => cases y <;> exact hk
  | send y ch hch hnw hnr => cases y <;> exact hk
  | serve c ch r e hch hpeer hup hs =>
    cases hs with
    | reset => exact hsession rfl
    | free sga b => cases hb : b.record.freeInvalidates <;> simp only [hb] at hk <;> cases hk
    | malloc | read | readCached | write | locks | invalidate =>
      simp only [NodeState.copyRecord_ctl, hx] at hk
      cases hk
    | _ => cases hk
  | _ => cases hk

/-- What is true of the sections in every run of reads and writes: a release is asked for inside a
section only, and an exclusive section shows in the table as long as exclusion holds. -/
structure Sectioned (s : State) : Prop where
  service : LockService s
  suspends : Suspends s
  sites : ∀ n l, (s.node n).ctl.site ≠ some (.call l)
  holding : ∀ n i, Holding s n i → ∃ st, st ≠ .unlocked ∧ Inside st i n (decisions s.log)
  granted : ∀ n l, pending (s.node n).ctl (s.net n) = some (l, true) → l.state ≠ .unlocked →
    Inside l.state l.id n (decisions s.log)
  exclusive : ∀ i n, Inside .exclusive i n (decisions s.log) →
    (s.node locknode).locks i = some .exclusive

theorem Sectioned.release (h : Sectioned s) {a : Action} {l : Lock} (hd : Decides s a c l)
    (hl : l.state = .unlocked) : ∃ st, st ≠ .unlocked ∧ Inside st l.id c (decisions s.log) := by
  have hS := h.service.sessions
  have hsite : ∀ k, (s.node c).ctl.site = some k → k.lock.state = .unlocked → k.holds = some k.lock.id := by
    intro k hk hs
    cases k with
    | acquire b => cases b <;> cases hs
    | release b => rfl
    | call m => exact absurd hk (h.sites c m)
  obtain ⟨-, ⟨k, hk, rfl, rfl⟩ | ⟨hsv, ch, hch, hpeer, hup⟩⟩ := hd
  · refine h.holding locknode k.lock.id (Or.inl ⟨?_, ?_⟩)
    · rw [hk]
      exact hsite k (by rw [hk]; rfl) hl
    · rw [hk]
      exact pending_of_offline rfl _
  · rcases (hS.serving_link hsv hch hpeer).of_up hup with ⟨y, hown, hy, -, rfl⟩ | ⟨y, b, -, hy, -⟩
    · cases y with
      | setLock k =>
        obtain rfl := Request.locks.inj hy
        refine h.holding c k.lock.id (Or.inl ⟨?_, ?_⟩)
        · rw [hown]
          exact hsite k (by rw [hown]; rfl) hl
        · rw [hown, hch]
          rfl
      | forward d r => exact absurd hown (((hS.stuck c).ne_forward (by rw [hown]; rfl) d r).1 _)
      | _ => cases hy
    · cases hy

theorem Moves.decisionsOf_self (hS : Sessions s) (h : Moves s n env x e) (hne : ∀ k, x ≠ .setLock k) :
    decisionsOf n e.events = [] := by
  rcases h.decides with ⟨-, hd⟩ | ⟨c, l, hcase, -, -, hd⟩
  · simp [decisionsOf, hd]
  · have hcn : c ≠ n := by
      rcases hcase with ⟨k, hk, -⟩ | ⟨-, ch, hch, hpeer, -⟩
      · exact absurd hk (hne k)
      · intro hc
        exact (hS.link c ch hch).1 (hpeer.trans hc.symm)
    simp [decisionsOf, hd, hcn]

theorem Moves.decisionsOf_aside (hS : Sessions s) (hx : (s.node n).ctl = x) (h : Moves s n env x e)
    {p : NodeId} (hp : p ≠ n) (ha : (s.node p).ctl.aside = true) : decisionsOf p e.events = [] := by
  rcases h.decides with ⟨-, hd⟩ | ⟨c, l, hcase, -, -, hd⟩
  · simp [decisionsOf, hd]
  · have hcp : c ≠ p := by
      rintro rfl
      rcases hcase with ⟨k, -, rfl, -⟩ | ⟨rfl, ch, hch, hpeer, hup⟩
      · exact hp rfl
      · rcases (hS.serving_link hx hch hpeer).of_up hup with ⟨y, hown, hy, -⟩ | ⟨y, b, -, hy, -⟩
        · rw [hown] at ha
          cases y with
          | forward d r => exact ((hS.stuck c).ne_forward (by rw [hown]; rfl) d r).1 _ hown
          | invalidate => cases hy
          | _ => cases ha
        · cases hy
    simp [decisionsOf, hd, hcp]

theorem Sectioned.holding_moves (h : Sectioned s) (hm : Moves s n env (s.node n).ctl e) (p : NodeId)
    (hold : Holding (e.apply s n) p i) :
    ∃ st, st ≠ .unlocked ∧ Inside st i p (decisions (e.apply s n).log) := by
  have hS := h.service.sessions
  have hkeep : decisionsOf p e.events = [] → Holding s p i →
      ∃ st, st ≠ .unlocked ∧ Inside st i p (decisions (e.apply s n).log) := by
    intro hnil hp
    obtain ⟨st, hst, hin⟩ := h.holding p i hp
    exact ⟨st, hst, (inside_append_of_nil hnil).mpr hin⟩
  have hmode : ∀ a : Access, a.mode ≠ .unlocked := by
    intro a
    cases a <;> simp [Access.mode]
  by_cases hpn : p = n
  · subst hpn
    rcases hold with ⟨hh, -⟩ | ⟨q, hq, hqi⟩
    · rw [Effect.apply_self] at hh
      rcases hm.holds rfl hh with ⟨hp, hd⟩ | ⟨a, rfl, hpend | hd⟩
      · exact hkeep (by simp [decisionsOf, hd]) hp
      · refine ⟨a.mode, hmode a, ?_⟩
        have hnil : decisionsOf p e.events = [] := by
          refine hm.decisionsOf_self hS fun k hk => ?_
          rw [hk, pending_of_offline rfl] at hpend
          cases hpend
        exact (inside_append_of_nil hnil).mpr (h.granted p _ hpend (hmode a))
      · refine ⟨a.mode, hmode a, ?_⟩
        rw [Effect.apply_log, decisions_append, hd]
        exact (inside_concat (d := ⟨p, ⟨a.ga.id, a.mode⟩, true⟩) rfl).mpr (Or.inl ⟨rfl, rfl⟩)
    · rw [Effect.apply_self] at hq
      have hnil : (s.node p).ctl.aside = true ∨ (∃ d, (s.node p).ctl = .exchange .again (.performWrite d)) →
          decisionsOf p e.events = [] := by
        intro ha
        refine hm.decisionsOf_self hS fun k hk => ?_
        rcases ha with ha | ⟨d, hd⟩
        · rw [hk] at ha
          cases ha
        · rw [hk] at hd
          cases hd
      rcases hm.suspends rfl with ⟨hsus, -⟩ | ⟨ha, hsus, -⟩ | ⟨d, sga, hx, hsus, -⟩
      · rw [hsus] at hq
        have ha : (s.node p).ctl.aside = true := by
          rcases h.suspends p with hnone | ⟨ha, -⟩
          · rw [hnone] at hq
            cases hq
          · exact ha
        exact hkeep (hnil (Or.inl ha)) (Or.inr ⟨q, hq, hqi⟩)
      · rw [hsus, endSession_suspended _ ((h.suspends p).imp id And.right)] at hq
        cases hq
      · rw [hsus, h.suspends.of_own hx rfl, List.mem_singleton] at hq
        subst hq
        refine hkeep (hnil (Or.inr ⟨d, hx⟩)) (Or.inl ⟨?_, ?_⟩)
        · rw [hx, ← hqi]
          rfl
        · rw [hx]
          rfl
  · have hsame : ((e.apply s n).node p) = s.node p := Effect.apply_ne hpn
    rcases hold with ⟨hh, hp⟩ | ⟨q, hq, hqi⟩
    · have hb := hm.balance hS rfl p
      rw [hp, hm.answers_ne hpn] at hb
      obtain ⟨hpend, hnil⟩ := List.append_eq_nil_iff.mp hb
      refine hkeep hnil (Or.inl ⟨by rw [← hsame]; exact hh, ?_⟩)
      cases hpe : pending (s.node p).ctl (s.net p) with
      | none => rfl
      | some v =>
        rw [hpe] at hpend
        cases hpend
    · rw [hsame] at hq
      have ha : (s.node p).ctl.aside = true := by
        rcases h.suspends p with hnone | ⟨ha, -⟩
        · rw [hnone] at hq
          cases hq
        · exact ha
      exact hkeep (hm.decisionsOf_aside hS rfl hpn ha) (Or.inr ⟨q, hq, hqi⟩)

theorem Sectioned.granted_moves (h : Sectioned s) (hm : Moves s n env (s.node n).ctl e) (p : NodeId)
    {l : Lock} (hp : pending ((e.apply s n).node p).ctl ((e.apply s n).net p) = some (l, true))
    (hl : l.state ≠ .unlocked) : Inside l.state l.id p (decisions (e.apply s n).log) := by
  have hS := h.service.sessions
  have hb := hm.balance hS rfl p
  rw [hp] at hb
  have hmem : (l, true) ∈ (pending (s.node p).ctl (s.net p)).toList ++ decisionsOf p e.events := by
    rw [hb]
    simp
  rcases List.mem_append.mp hmem with hold | hnew
  · have hpend : pending (s.node p).ctl (s.net p) = some (l, true) := by simpa using hold
    have hnil : decisionsOf p e.events = [] := by
      by_cases hpn : p = n
      · subst hpn
        refine hm.decisionsOf_self hS fun k hk => ?_
        rw [hk, pending_of_offline rfl] at hpend
        cases hpend
      · rw [hpend, hm.answers_ne hpn] at hb
        simpa using hb
    exact (inside_append_of_nil hnil).mpr (h.granted p l hpend hl)
  · rcases hm.decides with ⟨-, hd⟩ | ⟨c, m, -, -, -, hd⟩
    · simp [decisionsOf, hd] at hnew
    · by_cases hc : c = p
      · simp only [decisionsOf, hd, hc, List.filterMap_cons, List.filterMap_nil, if_true, List.mem_singleton,
          Prod.mk.injEq] at hnew
        obtain ⟨rfl, hg⟩ := hnew
        rw [Effect.apply_log, decisions_append, hd]
        exact (inside_concat (d := ⟨c, l, _⟩) hc).mpr (Or.inl ⟨rfl, hg.symm⟩)
      · simp [decisionsOf, hd, hc] at hnew

theorem Sectioned.exclusive_moves (h : Sectioned s) (hP : Exclusion s)
    (hm : Moves s n env (s.node n).ctl e) (p : NodeId)
    (hin : Inside .exclusive i p (decisions (e.apply s n).log)) :
    ((e.apply s n).node locknode).locks i = some .exclusive := by
  rw [Effect.apply_log, decisions_append] at hin
  rcases hm.decided rfl with ⟨-, hd, hl⟩ | ⟨hn, c, l, hdec, hd, hl⟩
  · rw [hd, List.append_nil] at hin
    have hlocks : ((e.apply s n).node locknode).locks = (s.node locknode).locks := by
      by_cases hn : locknode = n
      · rw [hn, Effect.apply_self, hl]
      · rw [Effect.apply_ne hn]
    rw [hlocks]
    exact h.exclusive i p hin
  · subst hn
    rw [Effect.apply_self, hl]
    rw [hd] at hin
    -- an exclusive entry changes only by a release, and the releasing node is the one inside
    have hstay : Inside .exclusive i p (decisions s.log) → (p = c → l ≠ ⟨i, .unlocked⟩) →
        ((s.node locknode).locks.setLock l.id l.state).1 i = some .exclusive := by
      intro hold hpc
      have hi := h.exclusive i p hold
      by_cases hli : i = l.id
      · subst hli
        cases hg : LockTable.grants ((s.node locknode).locks l.id) l.state with
        | false => rw [LockTable.setLock_denied (by rw [LockTable.setLock_snd, hg]), hi]
        | true =>
          exfalso
          rw [hi] at hg
          cases hst : l.state with
          | unlocked =>
            have hlock : l = ⟨l.id, .unlocked⟩ := by rw [← hst]
            have hpc' : p ≠ c := fun e => hpc e hlock
            obtain ⟨st, hst', hc⟩ := h.release ((hdec c l).mpr ⟨rfl, rfl⟩) hst
            obtain ⟨hs, hx⟩ := hP l.id p c hpc' hold
            cases st with
            | unlocked => exact hst' rfl
            | sharedlock => exact hs hc
            | exclusive => exact hx hc
          | sharedlock => simp [hst, LockTable.grants] at hg
          | exclusive => simp [hst, LockTable.grants] at hg
      · rw [LockTable.setLock_other _ _ hli, hi]
    by_cases hpc : c = p
    · rcases (inside_concat (d := ⟨c, l, _⟩) hpc).mp hin with ⟨hl', hg⟩ | ⟨hne, hold⟩
      · rw [LockTable.setLock_granted (by rw [LockTable.setLock_snd]; exact hg)]
        simp only at hl'
        rw [hl']
        exact Function.update_self ..
      · exact hstay hold fun _ => hne
    · exact hstay ((inside_concat_ne (d := ⟨c, l, _⟩) hpc).mp hin) fun e => absurd e.symm hpc

/-- The step that breaks exclusion is a grant of EXCLUSIVE while a reader is still inside. -/
theorem Sectioned.exclusion_moves (h : Sectioned s) (hP : Exclusion s)
    (hm : Moves s n env (s.node n).ctl e) :
    Exclusion (e.apply s n) ↔ FreeMeansEmpty s (.exec n env) := by
  unfold Exclusion
  rw [Effect.apply_log, decisions_append]
  rcases hm.decided rfl with ⟨hnone, hd, -⟩ | ⟨hn, c, l, hdec, hd, -⟩
  · rw [hd, List.append_nil]
    exact iff_of_true hP fun c l hcl => absurd hcl (hnone c l)
  · subst hn
    rw [hd]
    constructor
    · intro h' c' l' hcl hst hg m hm hin
      obtain ⟨rfl, rfl⟩ := (hdec c' l').mp hcl
      have hnew : Inside .exclusive l'.id c' (decisions s.log ++ [⟨c', l', _⟩]) :=
        (inside_concat (d := ⟨c', l', LockTable.grants ((s.node locknode).locks l'.id) l'.state⟩) rfl).mpr
          (Or.inl ⟨by rw [← hst], by rw [hst]; exact hg⟩)
      exact (h' l'.id c' m (Ne.symm hm) hnew).1 ((inside_concat_ne (Ne.symm hm)).mpr hin)
    · intro hC i p q hpq hp
      set g := LockTable.grants ((s.node locknode).locks l.id) l.state with hgdef
      have hback : ∀ st r, r ≠ c → Inside st i r (decisions s.log ++ [⟨c, l, g⟩]) →
          Inside st i r (decisions s.log) := by
        intro st r hr hin
        exact (inside_concat_ne (Ne.symm hr)).mp hin
      have hsplit : ∀ st, Inside st i c (decisions s.log ++ [⟨c, l, g⟩]) →
          (l = ⟨i, st⟩ ∧ g = true) ∨ Inside st i c (decisions s.log) := by
        intro st hin
        rcases (inside_concat (d := ⟨c, l, g⟩) rfl).mp hin with hnew | ⟨-, hold⟩
        · exact Or.inl hnew
        · exact Or.inr hold
      have hboth : ∀ st, st ≠ .unlocked → ¬ Inside st i q (decisions s.log ++ [⟨c, l, g⟩]) := by
        intro st hst hq
        have hclash : Inside .exclusive i p (decisions s.log) → Inside st i q (decisions s.log) → False := by
          intro hp hq
          obtain ⟨hs, hx⟩ := hP i p q hpq hp
          cases st with
          | unlocked => exact hst rfl
          | sharedlock => exact hs hq
          | exclusive => exact hx hq
        by_cases hpc : p = c
        · have hqc : q ≠ c := fun e => hpq (hpc.trans e.symm)
          rw [hpc] at hp
          rcases hsplit .exclusive hp with ⟨hl, hg⟩ | hold
          · have hqs := hback st q hqc hq
            subst hl
            cases st with
            | unlocked => exact hst rfl
            | sharedlock => exact hC c _ ((hdec c _).mpr ⟨rfl, rfl⟩) rfl hg q hqc hqs
            | exclusive =>
              have hi := h.exclusive i q hqs
              rw [hgdef, hi] at hg
              simp [LockTable.grants] at hg
          · exact hclash (hpc ▸ hold) (hback st q hqc hq)
        · have hps := hback .exclusive p hpc hp
          by_cases hqc : q = c
          · rw [hqc] at hq
            rcases hsplit st hq with ⟨hl, hg⟩ | hold
            · subst hl
              have hi := h.exclusive i p hps
              rw [hgdef, hi] at hg
              cases st with
              | unlocked => exact hst rfl
              | sharedlock => simp [LockTable.grants] at hg
              | exclusive => simp [LockTable.grants] at hg
            · exact hclash hps (hqc ▸ hold)
          · exact hclash hps (hback st q hqc hq)
      exact ⟨hboth .sharedlock (by simp), hboth .exclusive (by simp)⟩

theorem Sectioned.steps {s' : State} {a : Action} (h : Sectioned s) (hP : Exclusion s) (ha : a.accesses)
    (hs : Steps s a s') : Sectioned s' := by
  have hserv := h.service.steps hs
  have hsus := h.suspends.steps hs
  cases hs with
  | begin n op hidle hnone =>
    have hnil : ∀ p, decisionsOf p [Event.call n (op.stamp s.clock)] = [] := fun p => rfl
    have hsame : decisions (s.begun n (op.stamp s.clock)).log = decisions s.log := by
      rw [State.begun_log, decisions_append]
      exact List.append_nil _
    have hpend : ∀ p, pending ((s.begun n (op.stamp s.clock)).node p).ctl (s.net p) =
        pending (s.node p).ctl (s.net p) := by
      intro p
      by_cases hpn : p = n
      · rw [hpn, State.begun_self, hidle, pending_of_offline (by cases op <;> rfl), pending_of_offline rfl]
      · rw [State.begun_ne hpn]
    refine ⟨hserv, hsus, fun p l hk => ?_, fun p i hp => ?_, fun p l hp hl => ?_, fun i p hin => ?_⟩
    · by_cases hpn : p = n
      · subst hpn
        rw [State.begun_self] at hk
        cases op with
        | setLock m => exact ha
        | _ => cases hk
      · rw [State.begun_ne hpn] at hk
        exact h.sites p l hk
    · rw [hsame]
      by_cases hpn : p = n
      · subst hpn
        rcases hp with ⟨hh, -⟩ | ⟨q, hq, -⟩
        · rw [State.begun_self] at hh
          cases op <;> cases hh
        · rw [State.begun_self, NodeState.goto_suspended, hnone] at hq
          cases hq
      · refine h.holding p i ?_
        rw [Holding, State.begun_ne hpn] at hp
        exact hp
    · rw [hsame]
      rw [State.begun_net, hpend] at hp
      exact h.granted p l hp hl
    · rw [hsame] at hin
      rw [State.begun_node]
      exact h.exclusive i p hin
  | accept m c y hc hm hidle =>
    have hmc := ne_of_idle_connecting hc hidle
    refine ⟨hserv, hsus, fun p l hk => ?_, fun p i hp => ?_, fun p l hp hl => ?_, fun i p hin => ?_⟩
    · by_cases hpc : p = c
      · subst hpc
        rw [State.accepted_client] at hk
        refine h.sites p l ?_
        rw [hc]
        cases y <;> exact hk
      · by_cases hpm : p = m
        · subst hpm
          rw [State.accepted_server hmc] at hk
          cases hk
        · rw [State.accepted_ne hpc hpm] at hk
          exact h.sites p l hk
    · refine h.holding p i ?_
      by_cases hpc : p = c
      · subst hpc
        rcases hp with ⟨hh, -⟩ | ⟨q, hq, hqi⟩
        · rw [State.accepted_client] at hh
          refine Or.inl ⟨?_, by rw [hc]; rfl⟩
          rw [hc]
          cases y <;> exact hh
        · rw [State.accepted_client] at hq
          exact Or.inr ⟨q, hq, hqi⟩
      · by_cases hpm : p = m
        · subst hpm
          rcases hp with ⟨hh, -⟩ | ⟨q, hq, hqi⟩
          · rw [State.accepted_server hmc] at hh
            cases hh
          · rw [State.accepted_server hmc] at hq
            exact Or.inr ⟨q, hq, hqi⟩
        · rw [Holding, State.accepted_ne hpc hpm, State.accepted_net_ne hpc] at hp
          exact hp
    · refine h.granted p l ?_ hl
      by_cases hpc : p = c
      · subst hpc
        rw [State.accepted_client] at hp
        cases hp
      · by_cases hpm : p = m
        · subst hpm
          rw [State.accepted_server hmc, pending_of_offline rfl] at hp
          cases hp
        · rw [State.accepted_ne hpc hpm, State.accepted_net_ne hpc] at hp
          exact hp
    · rw [State.accepted_node]
      exact h.exclusive i p hin
  | exec n env e _ hm =>
    refine ⟨hserv, hsus, fun p l hk => ?_, fun p i => h.holding_moves hm p,
      fun p l => h.granted_moves hm p, fun i p => h.exclusive_moves hP hm p⟩
    by_cases hpn : p = n
    · subst hpn
      rw [Effect.apply_self] at hk
      exact h.sites p l (hm.site_call rfl hk)
    · rw [Effect.apply_ne hpn] at hk
      exact h.sites p l hk

theorem Sectioned.exclusion_steps {s' : State} {a : Action} (h : Sectioned s) (hP : Exclusion s)
    (hs : Steps s a s') : Exclusion s' ↔ FreeMeansEmpty s a := by
  cases hs with
  | begin n op hidle hnone =>
    have hsame : decisions (s.begun n (op.stamp s.clock)).log = decisions s.log := by
      rw [State.begun_log, decisions_append]
      exact List.append_nil _
    refine iff_of_true ?_ (by rintro c l ⟨⟨env, he⟩, -⟩; cases he)
    unfold Exclusion
    rw [hsame]
    exact hP
  | accept m c y hc hm hidle => exact iff_of_true hP (by rintro c l ⟨⟨env, he⟩, -⟩; cases he)
  | exec n env e _ hm => exact h.exclusion_moves hP hm

theorem Quiet.sectioned (h : Quiet s) (hempty : (s.node locknode).locks = LockTable.empty) :
    Sectioned s := by
  have hin : ∀ st i n, ¬ Inside st i n (decisions s.log) := by
    intro st i n
    rw [h.log]
    exact not_held_nil
  refine ⟨h.lockService hempty, h.suspends, fun n l hk => ?_, fun n i hn => ?_, fun n l hp => ?_,
    fun i n hi => absurd hi (hin _ i n)⟩
  · rw [h.idle n] at hk
    cases hk
  · rcases hn with ⟨hh, -⟩ | ⟨p, hp, -⟩
    · rw [h.idle n] at hh
      cases hh
    · rw [h.suspended n] at hp
      cases hp
  · rw [h.idle n, pending_of_offline rfl] at hp
    cases hp

end

/-- In a run of reads and writes no state has two clashing critical sections, if and only if every
EXCLUSIVE request that finds its entry free finds no reader inside. -/
theorem exclusion_iff {s : State} (hs : Quiet s) (hempty : (s.node locknode).locks = LockTable.empty)
    {as : List Action} (ha : ∀ a ∈ as, a.accesses) :
    Always step Exclusion s as ↔ Meets step FreeMeansEmpty s as := by
  have hP : Exclusion s := by
    intro i n m _ hn
    rw [hs.log] at hn
    exact absurd hn not_held_nil
  exact always_iff_meets_of (J := Sectioned)
    (fun u a v ha hu hP huv _ => hu.steps hP ha (steps_of_step huv))
    (fun u a v _ hu hP huv => hu.exclusion_steps hP (steps_of_step huv)) ha (hs.sectioned hempty) hP

/-- Two readers enter, one of them leaves, and a writer enters. -/
def twoReadersOneWriter : List Action :=
  [.begin 3000 (.read ⟨8, 4096, 3000⟩), go 3000] ++ talk 3000 2000 ++
  [.begin 4000 (.read ⟨8, 4096, 3000⟩), go 4000] ++ talk 4000 2000 ++
  [go 3000, go 3000] ++ talk 3000 2000 ++
  [.begin 2000 (.write ⟨8, 7, ⟨8, 4096, 3000⟩⟩), go 2000]

theorem run_twoReadersOneWriter : ∃ t, run step (.start homeBlock) twoReadersOneWriter = some t ∧
    decisions t.log = [⟨3000, ⟨3000, .sharedlock⟩, true⟩, ⟨4000, ⟨3000, .sharedlock⟩, true⟩,
      ⟨3000, ⟨3000, .unlocked⟩, true⟩, ⟨2000, ⟨3000, .exclusive⟩, true⟩] ∧
    (t.node 4000).ctl = .access (.read ⟨8, 4096, 3000⟩) ∧
    ∃ w, (t.node 2000).ctl = .access (.write ⟨8, w, ⟨8, 4096, 3000⟩⟩) := by
  have hrun : (run step (.start homeBlock) twoReadersOneWriter).map
      (fun t => (decisions t.log, (t.node 4000).ctl, (t.node 2000).ctl)) =
      some ([⟨3000, ⟨3000, .sharedlock⟩, true⟩, ⟨4000, ⟨3000, .sharedlock⟩, true⟩,
        ⟨3000, ⟨3000, .unlocked⟩, true⟩, ⟨2000, ⟨3000, .exclusive⟩, true⟩],
        .access (.read ⟨8, 4096, 3000⟩), .access (.write ⟨8, ⟨7, 10⟩, ⟨8, 4096, 3000⟩⟩)) := by decide
  obtain ⟨t, ht, hall⟩ := Option.map_eq_some_iff.mp hrun
  obtain ⟨hd, hctls⟩ := Prod.mk.inj hall
  obtain ⟨hr, hw⟩ := Prod.mk.inj hctls
  exact ⟨t, ht, hd, hr, _, hw⟩

theorem clash {s : State} (h : decisions s.log = [⟨3000, ⟨3000, .sharedlock⟩, true⟩,
    ⟨4000, ⟨3000, .sharedlock⟩, true⟩, ⟨3000, ⟨3000, .unlocked⟩, true⟩, ⟨2000, ⟨3000, .exclusive⟩, true⟩]) :
    Inside .exclusive 3000 2000 (decisions s.log) ∧ Inside .sharedlock 3000 4000 (decisions s.log) := by
  rw [h]
  exact ⟨⟨[], ⟨2000, ⟨3000, .exclusive⟩, true⟩, [], rfl, rfl, rfl, by simp⟩,
    ⟨[], ⟨4000, ⟨3000, .sharedlock⟩, true⟩, [], rfl, rfl, rfl, by simp⟩⟩

/-- The node 2000 is in its write while 4000 is in its read of the same address. -/
theorem writer_meets_reader : ∃ t, run step (.start homeBlock) twoReadersOneWriter = some t ∧
    (t.node 4000).ctl = .access (.read ⟨8, 4096, 3000⟩) ∧
    (∃ w, (t.node 2000).ctl = .access (.write ⟨8, w, ⟨8, 4096, 3000⟩⟩)) ∧
    Inside .exclusive 3000 2000 (decisions t.log) ∧ Inside .sharedlock 3000 4000 (decisions t.log) ∧
    ¬ Exclusion t := by
  obtain ⟨t, ht, hd, hr, hw⟩ := run_twoReadersOneWriter
  obtain ⟨hx, hs⟩ := clash hd
  exact ⟨t, ht, hr, hw, hx, hs, fun h => (h 3000 2000 4000 (by decide) hx).1 hs⟩

theorem exclusion_iff_twoReaders : ¬ Meets step FreeMeansEmpty (.start homeBlock) twoReadersOneWriter := by
  intro hC
  obtain ⟨t, ht, hd, -⟩ := run_twoReadersOneWriter
  obtain ⟨hx, hs⟩ := clash hd
  have has : ∀ a ∈ twoReadersOneWriter, a.accesses := by simp [twoReadersOneWriter, talk, go, Action.accesses]
  have hA := (exclusion_iff (State.quiet_start homeBlock) rfl has).mpr hC
  exact (always_iff_passed.mp hA _ t (List.prefix_refl _) ht 3000 2000 4000 (by decide) hx).1 hs

end CacheCoherence.Protocol
