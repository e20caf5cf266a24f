import CacheCoherence.Foundation.TransitionRuns
import CacheCoherence.Protocol.Inversion

/-! # The life of a connection

`Link` lists the joint states of a client, its connection and its server. That every connection
is in one of them is the invariant that all results about several nodes rest on.
-/
namespace CacheCoherence.Protocol
open TransitionRuns

/-- The request that a thread is still working on for a client. -/
def Broadcaster.handles (ga : GlobalAddress) : Broadcaster → Option (NodeId × Request)
  | .handleFree c srcID => some (c, .free (ga.sendable srcID))
  | _ => none

def Exchange.handles : Exchange → Option (NodeId × Request)
  | .invalidate _ _ ga b => b.handles ga
  | .forward c r => some (c, r)
  | _ => none

def Ctl.handles : Ctl → Option (NodeId × Request)
  | .broadcast _ ga b => b.handles ga
  | .discard ga (some (c, srcID)) => some (c, .free (ga.sendable srcID))
  | .exchange _ e => e.handles
  | .closing e _ => e.handles
  | _ => none

def Ctl.client : Ctl → Option NodeId
  | .serving c => some c
  | .startInvalidations c _ _ _ => some c
  | x => x.handles.map Prod.fst

def Ctl.answers : Ctl → Option NodeId
  | .serving c => some c
  | .startInvalidations c _ _ _ => some c
  | .discard _ (some (c, _)) => some c
  | _ => none

def Ctl.online : Ctl → Bool
  | .exchange .connecting _ => false
  | .exchange _ _ => true
  | .closing _ _ => true
  | _ => false

/-- The kind of reply that each request gets. -/
def Request.answeredBy : Request → Reply → Bool
  | .malloc _, .address _ => true
  | .read _, .data _ => true
  | .free _, .address _ => true
  | .write _, .address _ => true
  | .locks _, .lock _ => true
  | .invalidate _, .removed _ => true
  | .reset, .reset => true
  | _, _ => false

inductive Link (n : NodeId) : Ctl → Channel → Ctl → Prop where
  | connected (e : Exchange) :
      Link n (.exchange .connected e) ⟨e.target, none, [], true⟩ (.serving n)
  | asked (e : Exchange) (he : e.request n ≠ .reset) :
      Link n (.exchange .waiting e) ⟨e.target, some (e.request n), [], true⟩ (.serving n)
  | handled (e : Exchange) (sv : Ctl) (he : e.request n ≠ .reset)
      (hsv : sv.handles = some (n, e.request n)) :
      Link n (.exchange .waiting e) ⟨e.target, none, [], true⟩ sv
  | answered (e : Exchange) (r : Reply) (hr : (e.request n).answeredBy r = true)
      (he : e.request n ≠ .reset) : Link n (.exchange .waiting e) ⟨e.target, none, [r], true⟩ (.serving n)
  | invalidating (d : Data Word) (sga : SendGlobalAddr) (nodes : List NodeId) :
      Link n (.exchange .waiting (.performWrite d)) ⟨port, none, [.invalidate sga], true⟩
        (.startInvalidations n d nodes n)
  | invalidated (d : Data Word) (sga sga' : SendGlobalAddr) (sv : Ctl) :
      Link n (.exchange .waiting (.performWrite d))
        ⟨port, none, [.invalidate sga, .address sga'], false⟩ sv
  | again (d : Data Word) (nodes : List NodeId) :
      Link n (.exchange .again (.performWrite d)) ⟨port, none, [], true⟩ (.startInvalidations n d nodes n)
  | againAnswered (d : Data Word) (sga : SendGlobalAddr) (sv : Ctl) :
      Link n (.exchange .again (.performWrite d)) ⟨port, none, [.address sga], false⟩ sv
  | closing (e : Exchange) (r : Reply) (hr : (e.request n).answeredBy r = true) :
      Link n (.closing e r) ⟨e.target, some .reset, [], true⟩ (.serving n)
  | closed (e : Exchange) (r : Reply) (sv : Ctl) (hr : (e.request n).answeredBy r = true) :
      Link n (.closing e r) ⟨e.target, none, [.reset], false⟩ sv
  | serverDown (e : Exchange) (up : Option Request) :
      Link n (.exchange .waiting e) ⟨e.target, up, [], true⟩ .crashed
  | clientDown (m : NodeId) (down : List Reply) : Link n .crashed ⟨m, none, down, true⟩ (.serving n)

/-- A forwarded request goes back to the node it came from, which never accepts it. -/
def Stuck (n : NodeId) (x : Ctl) : Prop :=
  (∀ ph c r, x = .exchange ph (.forward c r) → ph = .connecting ∧ (Exchange.forward c r).target = n) ∧
    ∀ c r a, x ≠ .closing (.forward c r) a

structure Sessions (s : State) : Prop where
  link : ∀ n ch, s.net n = some ch → ch.peer ≠ n ∧ Link n (s.node n).ctl ch (s.node ch.peer).ctl
  offline : ∀ n, s.net n = none → (s.node n).ctl.online = false
  stuck : ∀ n, Stuck n (s.node n).ctl
  busy : ∀ m c, (s.node m).ctl.client = some c → (s.node m).ctl = .serving c ∨
    ∃ ch, s.net c = some ch ∧ ch.peer = m ∧ ch.isOpen = true

section
variable {n m : NodeId} {own sv : Ctl} {ch : Channel}

theorem Link.client_of_open (h : Link n own ch sv) (ho : ch.isOpen = true) :
    sv = .crashed ∨ sv.client = some n := by
  cases h with
  | handled e sv he hsv =>
    right
    cases sv <;> simp_all [Ctl.client, Ctl.handles]
  | invalidated => cases ho
  | againAnswered => cases ho
  | closed => cases ho
  | serverDown => exact Or.inl rfl
  | _ => exact Or.inr rfl

theorem Link.of_closed (h : Link n own ch sv) (hc : ch.isOpen = false) (sv' : Ctl) :
    Link n own ch sv' := by
  cases h with
  | invalidated d sga sga' => exact .invalidated d sga sga' sv'
  | againAnswered d sga => exact .againAnswered d sga sv'
  | closed e r _ hr => exact .closed e r sv' hr
  | _ => cases hc

theorem Link.keep (h : Link n own ch sv) (hdown : sv ≠ .crashed) (hserve : sv ≠ .serving n)
    (hinv : ∀ d nodes, sv ≠ .startInvalidations n d nodes n) {sv' : Ctl}
    (hsv : sv' = .crashed ∨ sv.handles = none ∨ sv'.handles = sv.handles) : Link n own ch sv' := by
  cases ho : ch.isOpen with
  | false => exact h.of_closed ho sv'
  | true =>
    cases h with
    | handled e _ he hh =>
      rcases hsv with rfl | hnone | heq
      · exact .serverDown e none
      · rw [hh] at hnone
        cases hnone
      · exact .handled e sv' he (heq.trans hh)
    | invalidating d sga nodes => exact absurd rfl (hinv d nodes)
    | again d nodes => exact absurd rfl (hinv d nodes)
    | invalidated => cases ho
    | againAnswered => cases ho
    | closed => cases ho
    | serverDown => exact absurd rfl hdown
    | _ => exact absurd rfl hserve

theorem Link.of_connected {e : Exchange} (h : Link n (.exchange .connected e) ch sv) :
    ch = ⟨e.target, none, [], true⟩ ∧ sv = .serving n := by
  cases h
  exact ⟨rfl, rfl⟩

theorem Link.of_waiting {e : Exchange} {r : Reply} {rest : List Reply}
    (h : Link n (.exchange .waiting e) ch sv) (hd : ch.down = r :: rest) :
    (ch = ⟨e.target, none, [r], true⟩ ∧ rest = [] ∧ (e.request n).answeredBy r = true ∧
      e.request n ≠ .reset ∧ sv = .serving n) ∨
    ∃ d sga, e = .performWrite d ∧ r = .invalidate sga ∧
      ((ch = ⟨port, none, [r], true⟩ ∧ rest = [] ∧ ∃ nodes, sv = .startInvalidations n d nodes n) ∨
        ∃ sga', ch = ⟨port, none, [r, .address sga'], false⟩ ∧ rest = [.address sga']) := by
  cases h with
  | answered _ a ha he =>
    cases hd
    exact Or.inl ⟨rfl, rfl, ha, he, rfl⟩
  | invalidating d sga nodes =>
    cases hd
    exact Or.inr ⟨d, sga, rfl, rfl, Or.inl ⟨rfl, rfl, nodes, rfl⟩⟩
  | invalidated d sga sga' =>
    cases hd
    exact Or.inr ⟨d, sga, rfl, rfl, Or.inr ⟨sga', rfl, rfl⟩⟩
  | _ => cases hd

theorem Link.of_again {e : Exchange} {r : Reply} {rest : List Reply}
    (h : Link n (.exchange .again e) ch sv) (hd : ch.down = r :: rest) :
    ∃ d sga, e = .performWrite d ∧ r = .address sga ∧ rest = [] ∧ ch = ⟨port, none, [r], false⟩ := by
  cases h with
  | againAnswered d sga =>
    cases hd
    exact ⟨d, sga, rfl, rfl, rfl, rfl⟩
  | _ => cases hd

theorem Link.of_closing {e : Exchange} {a r : Reply} {rest : List Reply}
    (h : Link n (.closing e a) ch sv) (hd : ch.down = r :: rest) :
    ch = ⟨e.target, none, [.reset], false⟩ ∧ (e.request n).answeredBy a = true := by
  cases h with
  | closed _ _ _ ha => exact ⟨rfl, ha⟩
  | _ => cases hd

theorem Link.online_or_down (h : Link n own ch sv) : own.online = true ∨ own = .crashed := by
  cases h <;> simp [Ctl.online]

end

section
variable {s : State} {e : Effect} {n p : NodeId}

@[simp] theorem Effect.apply_self : (e.apply s n).node n = e.self := by simp [Effect.apply]

theorem Effect.apply_ne (h : p ≠ n) : (e.apply s n).node p = s.node p := by
  simp [Effect.apply, Function.update_of_ne h]

theorem Effect.net_local (h : e.wire = none) : (e.apply s n).net = s.net := by simp [Effect.apply, h]

theorem Effect.net_wire {c : NodeId} {ch : Option Channel} (h : e.wire = some (c, ch)) :
    (e.apply s n).net = Function.update s.net c ch := by simp [Effect.apply, h]

theorem Effect.net_cases {c : NodeId} {ch : Channel} (h : (e.apply s n).net c = some ch) :
    s.net c = some ch ∨ e.wire = some (c, some ch) := by
  cases hw : e.wire with
  | none =>
    rw [net_local hw] at h
    exact Or.inl h
  | some w =>
    obtain ⟨d, dh⟩ := w
    rw [net_wire hw] at h
    by_cases hc : c = d
    · subst hc
      rw [Function.update_self] at h
      rw [h]
      exact Or.inr rfl
    · rw [Function.update_of_ne hc] at h
      exact Or.inl h

@[simp] theorem Effect.apply_log : (e.apply s n).log = s.log ++ e.events := rfl

@[simp] theorem State.begun_self {op : Op Word} : (s.begun n op).node n = (s.node n).goto op.start :=
  Effect.apply_self

theorem State.begun_ne {op : Op Word} (h : p ≠ n) : (s.begun n op).node p = s.node p := Effect.apply_ne h

@[simp] theorem State.begun_net {op : Op Word} : (s.begun n op).net = s.net := rfl

@[simp] theorem State.begun_log {op : Op Word} : (s.begun n op).log = s.log ++ [.call n op] := rfl

theorem State.begun_node (op : Op Word) (p : NodeId) :
    (s.begun n op).node p = (s.node p).goto ((s.begun n op).node p).ctl := by
  by_cases h : p = n
  · subst h
    rw [begun_self]
    rfl
  · rw [begun_ne h]
    rfl

section
variable {m c : NodeId} {x : Exchange}

@[simp] theorem State.accepted_client : (s.accepted m c x).node c = (s.node c).goto (.exchange .connected x) :=
  Function.update_self ..

theorem State.accepted_server (h : m ≠ c) : (s.accepted m c x).node m = (s.node m).goto (.serving c) := by
  simp [accepted, Function.update_of_ne h]

theorem State.accepted_ne (hc : p ≠ c) (hm : p ≠ m) : (s.accepted m c x).node p = s.node p := by
  simp [accepted, Function.update_of_ne hc, Function.update_of_ne hm]

@[simp] theorem State.accepted_net_client : (s.accepted m c x).net c = some ⟨m, none, [], true⟩ :=
  Function.update_self ..

theorem State.accepted_net_ne (h : p ≠ c) : (s.accepted m c x).net p = s.net p := Function.update_of_ne h _ _

@[simp] theorem State.accepted_log : (s.accepted m c x).log = s.log := rfl

theorem State.accepted_node (p : NodeId) :
    (s.accepted m c x).node p = (s.node p).goto ((s.accepted m c x).node p).ctl := by
  by_cases hc : p = c
  · rw [hc, accepted_client]
    rfl
  · by_cases hm : p = m
    · subst hm
      rw [accepted_server hc]
      rfl
    · rw [accepted_ne hc hm]
      rfl

theorem ne_of_idle_connecting (hc : (s.node c).ctl = .exchange .connecting x) (hm : (s.node m).ctl = .idle) :
    m ≠ c := by
  rintro rfl
  rw [hc] at hm
  cases hm

end

theorem Serves.wire {ns : NodeState} {env : Env} {c : NodeId} {ch : Channel} {t : ℕ} {r : Request}
    (h : Serves n ns env c ch t r e) : e.wire = none ∨ ∃ ch', e.wire = some (c, some ch') ∧ ch'.peer = ch.peer := by
  cases h with
  | readNull => exact Or.inl rfl
  | _ => exact Or.inr ⟨_, rfl, rfl⟩

theorem Moves.net_ne {env : Env} {x : Ctl} (h : Moves s n env x e) (hp : p ≠ n) (hc : x.answers ≠ some p) :
    (e.apply s n).net p = s.net p := by
  cases h with
  | discardFor ga c srcID ch hch =>
    rw [Effect.net_wire rfl, Function.update_of_ne]
    rintro rfl
    exact hc rfl
  | startInvalidations c d nodes srcID ch b hch hb =>
    rw [Effect.net_wire rfl, Function.update_of_ne]
    rintro rfl
    exact hc rfl
  | serve c ch r e hch hpeer hr hs =>
    rcases hs.wire with hw | ⟨ch', hw, -⟩
    · rw [Effect.net_local hw]
    · rw [Effect.net_wire hw, Function.update_of_ne]
      rintro rfl
      exact hc rfl
  | swept ga b => cases b <;> rw [Effect.net_local rfl]
  | lockGrant | connect | readLocal | readCached | writeLocal | memcpy | freeLocal | mallocLocal
  | discardOwn | sendCrash | fetchCrash | misread => rw [Effect.net_local rfl]
  | _ => rw [Effect.net_wire rfl, Function.update_of_ne hp]

theorem Sessions.net_none (h : Sessions s) (hoff : (s.node n).ctl.online = false)
    (hup : (s.node n).ctl ≠ .crashed) : s.net n = none := by
  cases hch : s.net n with
  | none => rfl
  | some ch =>
    rcases (h.link n ch hch).2.online_or_down with ho | hd
    · rw [hoff] at ho
      cases ho
    · exact absurd hd hup

def Ctl.detached : Ctl → Bool
  | .crashed | .serving _ | .startInvalidations .. => false
  | _ => true

theorem Ctl.client_of_detached {x : Ctl} (h : x.detached = true) : x.client = x.handles.map Prod.fst := by
  cases x <;> simp_all [Ctl.detached, Ctl.client]

/-- A step that changes no connection but the one of the acting node. -/
theorem Sessions.apply_own (h : Sessions s) (hnet : ∀ p, p ≠ n → (e.apply s n).net p = s.net p)
    (hx : (s.node n).ctl.detached = true)
    (hkeep : e.self.ctl = .crashed ∨ e.self.ctl.detached = true ∧ e.self.ctl.handles = (s.node n).ctl.handles)
    (hown : ∀ ch, (e.apply s n).net n = some ch →
      ch.peer ≠ n ∧ Link n e.self.ctl ch (s.node ch.peer).ctl)
    (hopen : ∀ ch, s.net n = some ch → ch.isOpen = true → (s.node ch.peer).ctl = .serving n ∨
      ∃ ch', (e.apply s n).net n = some ch' ∧ ch'.peer = ch.peer ∧ ch'.isOpen = true)
    (hoff : (e.apply s n).net n = none → e.self.ctl.online = false) (hstuck : Stuck n e.self.ctl) :
    Sessions (e.apply s n) := by
  have hserve : ∀ c, (s.node n).ctl ≠ .serving c := by
    intro c hc
    rw [hc] at hx
    cases hx
  have hhandles : e.self.ctl = .crashed ∨ (s.node n).ctl.handles = none ∨
      e.self.ctl.handles = (s.node n).ctl.handles := by
    rcases hkeep with hc | ⟨-, heq⟩
    · exact Or.inl hc
    · exact Or.inr (Or.inr heq)
  refine ⟨?_, ?_, ?_, ?_⟩
  · intro p ch hch
    by_cases hp : p = n
    · subst hp
      obtain ⟨hne, hl⟩ := hown ch hch
      refine ⟨hne, ?_⟩
      rw [Effect.apply_self, Effect.apply_ne hne]
      exact hl
    · rw [hnet p hp] at hch
      obtain ⟨hne, hl⟩ := h.link p ch hch
      refine ⟨hne, ?_⟩
      rw [Effect.apply_ne hp]
      by_cases hpeer : ch.peer = n
      · rw [hpeer] at hl ⊢
        rw [Effect.apply_self]
        refine hl.keep ?_ (hserve p) ?_ hhandles
        · intro hc
          rw [hc] at hx
          cases hx
        · intro d nodes hc
          rw [hc] at hx
          cases hx
      · rw [Effect.apply_ne hpeer]
        exact hl
  · intro p hp
    by_cases hpn : p = n
    · subst hpn
      rw [Effect.apply_self]
      exact hoff hp
    · rw [Effect.apply_ne hpn]
      rw [hnet p hpn] at hp
      exact h.offline p hp
  · intro p
    by_cases hpn : p = n
    · subst hpn
      rw [Effect.apply_self]
      exact hstuck
    · rw [Effect.apply_ne hpn]
      exact h.stuck p
  · intro m c hc
    by_cases hmn : m = n
    · subst hmn
      rw [Effect.apply_self] at hc ⊢
      rcases hkeep with hcr | ⟨hdet, heq⟩
      · rw [hcr] at hc
        cases hc
      · have hclient : (s.node m).ctl.client = some c := by
          rw [Ctl.client_of_detached hx, ← heq, ← Ctl.client_of_detached hdet, hc]
        rcases h.busy m c hclient with hs | ⟨ch, hch, hpeer, ho⟩
        · exact absurd hs (hserve c)
        · have hcm : c ≠ m := fun e => (h.link c ch hch).1 (hpeer.trans e.symm)
          exact Or.inr ⟨ch, (hnet c hcm).trans hch, hpeer, ho⟩
    · rw [Effect.apply_ne hmn] at hc ⊢
      rcases h.busy m c hc with hs | ⟨ch, hch, hpeer, ho⟩
      · exact Or.inl hs
      · by_cases hcn : c = n
        · subst hcn
          rw [← hpeer]
          rcases hopen ch hch ho with hs | ⟨ch', hch', hpeer', ho'⟩
          · exact Or.inl hs
          · exact Or.inr ⟨ch', hch', hpeer', ho'⟩
        · exact Or.inr ⟨ch, (hnet c hcn).trans hch, hpeer, ho⟩

def Settles (hd : Option (NodeId × Request)) (x : Ctl) : Prop :=
  x = .crashed ∨ x.detached = true ∧ x.handles = hd ∧ x.online = false ∧
    ∀ ph c r, x ≠ .exchange ph (.forward c r)

section
variable {hd : Option (NodeId × Request)} {x : Ctl}

theorem Settles.offline (h : Settles hd x) : x.online = false := by
  rcases h with rfl | ⟨-, -, h, -⟩
  · rfl
  · exact h

theorem Settles.stuck (h : Settles hd x) : Stuck n x := by
  refine ⟨fun ph c r hx => ?_, fun c r a hx => ?_⟩
  · rcases h with rfl | ⟨-, -, -, hf⟩
    · cases hx
    · exact absurd hx (hf ph c r)
  · have hoff := h.offline
    rw [hx] at hoff
    cases hoff

theorem Settles.ne_forward (h : Settles hd x) (ph : Phase) (c : NodeId) (r : Request) :
    x ≠ .exchange ph (.forward c r) := by
  rcases h with rfl | ⟨-, -, -, hf⟩
  · simp
  · exact hf ph c r

theorem Settles.keep (h : Settles hd x) : x = .crashed ∨ x.detached = true ∧ x.handles = hd := by
  rcases h with h | ⟨hdet, hh, -⟩
  · exact Or.inl h
  · exact Or.inr ⟨hdet, hh⟩

end

theorem Sessions.apply_local (h : Sessions s) (hw : e.wire = none) (hx : (s.node n).ctl.detached = true)
    (hoff : (s.node n).ctl.online = false) (hset : Settles (s.node n).ctl.handles e.self.ctl) :
    Sessions (e.apply s n) := by
  have hnone : s.net n = none := by
    refine h.net_none hoff fun hc => ?_
    rw [hc] at hx
    cases hx
  refine h.apply_own (by simp [Effect.net_local hw]) hx hset.keep ?_ (by simp [hnone])
    (fun _ => hset.offline) hset.stuck
  intro ch hch
  rw [Effect.net_local hw, hnone] at hch
  cases hch

/-- A step on the connection of the client `c` that the thread attends to. -/
theorem Sessions.apply_server {c : NodeId} {ch ch' : Channel} (h : Sessions s)
    (hclient : (s.node n).ctl.client = some c) (hch : s.net c = some ch) (hpeer : ch.peer = n)
    (hw : (e.apply s n).net = Function.update s.net c (some ch')) (hpeer' : ch'.peer = n)
    (hlink : Link c (s.node c).ctl ch' e.self.ctl)
    (hclient' : e.self.ctl.client = none ∨ e.self.ctl.client = some c ∧ ch'.isOpen = true)
    (hoff : (s.node n).ctl.online = false) (hoff' : e.self.ctl.online = false)
    (hstuck : Stuck n e.self.ctl) : Sessions (e.apply s n) := by
  have hup : (s.node n).ctl ≠ .crashed := by
    intro hc
    rw [hc] at hclient
    cases hclient
  have hnone : s.net n = none := h.net_none hoff hup
  have hcn : c ≠ n := fun e => (h.link c ch hch).1 (hpeer.trans e.symm)
  have hnet : ∀ p, p ≠ c → (e.apply s n).net p = s.net p := by
    intro p hp
    rw [hw, Function.update_of_ne hp]
  have hnetc : (e.apply s n).net c = some ch' := by
    rw [hw, Function.update_self]
  refine ⟨?_, ?_, ?_, ?_⟩
  · intro p dh hdh
    by_cases hp : p = c
    · subst hp
      obtain rfl : ch' = dh := Option.some.inj (hnetc.symm.trans hdh)
      refine ⟨fun e => hcn (e.symm.trans hpeer'), ?_⟩
      rw [Effect.apply_ne hcn, hpeer', Effect.apply_self]
      exact hlink
    · rw [hnet p hp] at hdh
      obtain ⟨hne, hl⟩ := h.link p dh hdh
      refine ⟨hne, ?_⟩
      by_cases hpn : p = n
      · subst hpn
        rw [hnone] at hdh
        cases hdh
      · rw [Effect.apply_ne hpn]
        by_cases hdn : dh.peer = n
        · rw [hdn] at hl ⊢
          cases hod : dh.isOpen with
          | false => exact hl.of_closed hod _
          | true =>
            rcases hl.client_of_open hod with hcr | hcl
            · exact absurd hcr hup
            · exact absurd (Option.some.inj (hcl.symm.trans hclient)) hp
        · rw [Effect.apply_ne hdn]
          exact hl
  · intro p hp
    by_cases hpn : p = n
    · subst hpn
      rw [Effect.apply_self]
      exact hoff'
    · rw [Effect.apply_ne hpn]
      by_cases hpc : p = c
      · subst hpc
        rw [hnetc] at hp
        cases hp
      · rw [hnet p hpc] at hp
        exact h.offline p hp
  · intro p
    by_cases hpn : p = n
    · subst hpn
      rw [Effect.apply_self]
      exact hstuck
    · rw [Effect.apply_ne hpn]
      exact h.stuck p
  · intro m d hd
    by_cases hmn : m = n
    · subst hmn
      rw [Effect.apply_self] at hd
      rcases hclient' with hnc | ⟨hsc, ho'⟩
      · rw [hnc] at hd
        cases hd
      · obtain rfl : c = d := Option.some.inj (hsc.symm.trans hd)
        exact Or.inr ⟨ch', hnetc, hpeer', ho'⟩
    · rw [Effect.apply_ne hmn] at hd ⊢
      rcases h.busy m d hd with hs | ⟨dh, hdh, hdpeer, hdo⟩
      · exact Or.inl hs
      · by_cases hdc : d = c
        · subst hdc
          obtain rfl : ch = dh := Option.some.inj (hch.symm.trans hdh)
          exact absurd (hdpeer.symm.trans hpeer) hmn
        · exact Or.inr ⟨dh, (hnet d hdc).trans hdh, hdpeer, hdo⟩

theorem Stuck.ne_forward {x : Ctl} (h : Stuck n x) (hx : x.online = true) (c : NodeId) (r : Request) :
    (∀ ph, x ≠ .exchange ph (.forward c r)) ∧ ∀ a, x ≠ .closing (.forward c r) a := by
  refine ⟨?_, h.2 c r⟩
  rintro ph rfl
  obtain ⟨rfl, -⟩ := h.1 ph c r rfl
  cases hx

theorem stuck_of_ne {x : Ctl} (hx : ∀ ph c r, x ≠ .exchange ph (.forward c r))
    (hx' : ∀ c r a, x ≠ .closing (.forward c r) a) : Stuck n x :=
  ⟨fun ph c r h => absurd h (hx ph c r), hx'⟩

theorem Sessions.serving_link {c : NodeId} {ch : Channel} (h : Sessions s)
    (hx : (s.node n).ctl = .serving c) (hch : s.net c = some ch) (hpeer : ch.peer = n) :
    Link c (s.node c).ctl ch (.serving c) := by
  have hl := (h.link c ch hch).2
  rwa [hpeer, hx] at hl

theorem Sessions.client_link {c : NodeId} {x : Ctl} (h : Sessions s) (hx : (s.node n).ctl = x)
    (hc : x.client = some c) (hs : x ≠ .serving c) :
    ∃ ch, s.net c = some ch ∧ ch.peer = n ∧ ch.isOpen = true ∧ Link c (s.node c).ctl ch x := by
  rcases h.busy n c (hx ▸ hc) with hsv | ⟨ch, hch, hpeer, ho⟩
  · exact absurd (hx.symm.trans hsv) hs
  · have hl := (h.link c ch hch).2
    rw [hpeer, hx] at hl
    exact ⟨ch, hch, hpeer, ho, hl⟩

theorem Link.of_handles {c : NodeId} {own x : Ctl} {ch : Channel} {r : Request} (h : Link c own ch x)
    (ho : ch.isOpen = true) (hh : x.handles = some (c, r)) :
    ∃ e, own = .exchange .waiting e ∧ r = e.request c ∧ r ≠ .reset ∧ ch = ⟨e.target, none, [], true⟩ := by
  cases h with
  | handled e _ he hsv =>
    obtain rfl : e.request c = r := by
      rw [hsv] at hh
      exact (Prod.mk.inj (Option.some.inj hh)).2
    exact ⟨e, rfl, rfl, he, rfl⟩
  | invalidated => cases ho
  | againAnswered => cases ho
  | closed => cases ho
  | _ => cases hh

theorem Link.of_startInvalidations {c srcID : NodeId} {own : Ctl} {ch : Channel} {d : Data Word}
    {nodes : List NodeId} (h : Link c own ch (.startInvalidations c d nodes srcID)) (ho : ch.isOpen = true) :
    srcID = c ∧ ((∃ sga, own = .exchange .waiting (.performWrite d) ∧ ch = ⟨port, none, [.invalidate sga], true⟩) ∨
      own = .exchange .again (.performWrite d) ∧ ch = ⟨port, none, [], true⟩) := by
  cases h with
  | invalidating d sga nodes => exact ⟨rfl, Or.inl ⟨sga, rfl, rfl⟩⟩
  | again d nodes => exact ⟨rfl, Or.inr ⟨rfl, rfl⟩⟩
  | handled e _ _ hh => cases hh
  | invalidated => cases ho
  | againAnswered => cases ho
  | closed => cases ho

theorem Link.of_up {c : NodeId} {own : Ctl} {ch : Channel} {r : Request}
    (h : Link c own ch (.serving c)) (hr : ch.up = some r) :
    (∃ e, own = .exchange .waiting e ∧ r = e.request c ∧ r ≠ .reset ∧
      ch = ⟨e.target, some r, [], true⟩) ∨
    ∃ e a, own = .closing e a ∧ r = .reset ∧ (e.request c).answeredBy a = true ∧
      ch = ⟨e.target, some .reset, [], true⟩ := by
  cases h with
  | asked e he =>
    obtain rfl := Option.some.inj hr
    exact Or.inl ⟨e, rfl, rfl, he, rfl⟩
  | closing e a ha =>
    obtain rfl := Option.some.inj hr
    exact Or.inr ⟨e, a, rfl, rfl, ha, rfl⟩
  | _ => cases hr

theorem Sessions.apply_answer {c : NodeId} {ch : Channel} {r : Request} {a : Reply} (h : Sessions s)
    (hx : (s.node n).ctl = .serving c) (hch : s.net c = some ch) (hpeer : ch.peer = n)
    (hr : ch.up = some r) (hw : e.wire = some (c, some (ch.reply a))) (hself : e.self.ctl = .serving c)
    (hne : r ≠ .reset) (ha : r.answeredBy a = true) : Sessions (e.apply s n) := by
  have hl := h.serving_link hx hch hpeer
  rcases hl.of_up hr with ⟨x, hown, rfl, hreset, rfl⟩ | ⟨x, b, hown, rfl, -⟩
  · refine h.apply_server (by rw [hx]; rfl) hch hpeer (Effect.net_wire hw) hpeer ?_ ?_ (by rw [hx]; rfl)
      (by rw [hself]; rfl) ?_
    · rw [hown, hself]
      exact .answered x a ha hreset
    · exact Or.inr ⟨by rw [hself]; rfl, rfl⟩
    · rw [hself]
      exact stuck_of_ne (by simp) (by simp)
  · exact absurd rfl hne

theorem Forwards.target {env : Env} {c : NodeId} {x : Exchange} (hf : Forwards n env (x.request c))
    (hx : x.target = n) (hnf : ∀ d r, x ≠ .forward d r) : (Exchange.forward c (x.request c)).target = n := by
  cases x with
  | invalidate => cases hf
  | reconnect => cases hf
  | forward d r => exact absurd rfl (hnf d r)
  | _ => exact hx

theorem Sessions.serves {c : NodeId} {ch : Channel} {r : Request} {env : Env} {t : ℕ} (h : Sessions s)
    (hx : (s.node n).ctl = .serving c) (hch : s.net c = some ch) (hpeer : ch.peer = n)
    (hr : ch.up = some r) (hs : Serves n (s.node n) env c ch t r e) : Sessions (e.apply s n) := by
  have hclient : (s.node n).ctl.client = some c := by rw [hx]; rfl
  have hoff : (s.node n).ctl.online = false := by rw [hx]; rfl
  have hl := h.serving_link hx hch hpeer
  cases hs with
  | malloc => exact h.apply_answer hx hch hpeer hr rfl hx (by simp) rfl
  | read => exact h.apply_answer hx hch hpeer hr rfl hx (by simp) rfl
  | readNull sga =>
    rcases hl.of_up hr with ⟨x, hown, hrx, -, rfl⟩ | ⟨x, b, -, hreset, -⟩
    · refine h.apply_server hclient hch hpeer ?_ hpeer ?_ (Or.inl rfl) hoff rfl ?_
      · rw [Effect.net_local rfl, ← hch, Function.update_eq_self]
      · rw [hown]
        exact .serverDown x _
      · exact stuck_of_ne (by simp [NodeState.goto]) (by simp [NodeState.goto])
    · cases hreset
  | readCached => exact h.apply_answer hx hch hpeer hr rfl hx (by simp) rfl
  | write => exact h.apply_answer hx hch hpeer hr rfl hx (by simp) rfl
  | writeShared sd =>
    rcases hl.of_up hr with ⟨x, hown, hrx, -, rfl⟩ | ⟨x, b, -, hreset, -⟩
    · have hnf := (h.stuck c).ne_forward (by rw [hown]; rfl)
      cases x with
      | performWrite d =>
        simp only [Exchange.request, Request.write.injEq] at hrx
        subst hrx
        refine h.apply_server hclient hch hpeer (Effect.net_wire rfl) hpeer ?_ (Or.inr ⟨rfl, rfl⟩) hoff rfl ?_
        · rw [hown]
          exact .invalidating d _ _
        · exact stuck_of_ne (by simp [NodeState.goto]) (by simp [NodeState.goto])
      | forward d r => exact absurd hown ((hnf d r).1 _)
      | _ => cases hrx
    · cases hreset
  | free sga b =>
    rcases hl.of_up hr with ⟨x, hown, hrx, hne, rfl⟩ | ⟨x, b, -, hreset, -⟩
    · have hh : ((s.node n).goto (if b.record.freeInvalidates then
          .broadcast b.record.sharerNodes (.ofSendable sga) (.handleFree c sga.srcID)
          else .discard (.ofSendable sga) (some (c, sga.srcID)))).ctl.handles = some (c, .free sga) := by
        cases b.record.freeInvalidates <;> rfl
      refine h.apply_server hclient hch hpeer (Effect.net_wire rfl) hpeer ?_ (Or.inr ⟨?_, rfl⟩) hoff ?_ ?_
      · rw [hown]
        exact .handled x _ (hrx ▸ hne) (hrx ▸ hh)
      · cases b.record.freeInvalidates <;> rfl
      · cases b.record.freeInvalidates <;> rfl
      · cases b.record.freeInvalidates <;>
          exact stuck_of_ne (by simp [NodeState.goto]) (by simp [NodeState.goto])
    · cases hreset
  | locks => exact h.apply_answer hx hch hpeer hr rfl hx (by simp) rfl
  | reset =>
    rcases hl.of_up hr with ⟨x, -, -, hne, -⟩ | ⟨x, b, hown, -, hb, rfl⟩
    · exact absurd rfl hne
    · refine h.apply_server hclient hch hpeer (Effect.net_wire rfl) hpeer ?_ (Or.inl ?_) hoff ?_ ?_
      · rw [hown]
        exact .closed x b _ hb
      · cases hsus : (s.node n).suspended <;> simp [NodeState.endSession, hsus] <;> rfl
      · cases hsus : (s.node n).suspended <;> simp [NodeState.endSession, hsus] <;> rfl
      · cases hsus : (s.node n).suspended <;>
          exact stuck_of_ne (by simp [NodeState.endSession, hsus, NodeState.goto])
            (by simp [NodeState.endSession, hsus, NodeState.goto])
  | invalidate => exact h.apply_answer hx hch hpeer hr rfl hx (by simp) rfl
  | forward _ hf =>
    rcases hl.of_up hr with ⟨x, hown, rfl, hne, rfl⟩ | ⟨x, b, -, rfl, -⟩
    · have hnf := (h.stuck c).ne_forward (by rw [hown]; rfl)
      have htarget := hf.target hpeer fun d r hd => (hnf d r).1 .waiting (hd ▸ hown)
      refine h.apply_server hclient hch hpeer (Effect.net_wire rfl) hpeer ?_ (Or.inr ⟨rfl, rfl⟩) hoff rfl ?_
      · rw [hown]
        exact .handled x _ hne rfl
      · refine ⟨?_, by simp [forward, NodeState.goto]⟩
        rintro ph d r hd
        cases hd
        exact ⟨rfl, htarget⟩
    · cases hf

theorem lockAnswer_ctl (ns : NodeState) (granted : Bool) (k : LockSite) :
    (ns.lockAnswer n granted k).1.ctl = .crashed ∨ (ns.lockAnswer n granted k).1.ctl = .idle ∨
      ∃ a, (ns.lockAnswer n granted k).1.ctl = .access a := by
  unfold NodeState.lockAnswer
  split
  · split
    · exact Or.inr (Or.inr ⟨_, rfl⟩)
    · exact Or.inr (Or.inl rfl)
  · split
    · exact Or.inr (Or.inl rfl)
    · exact Or.inl rfl
  · exact Or.inr (Or.inl rfl)
  · exact Or.inr (Or.inl rfl)

theorem lockAnswer_access {ns : NodeState} {granted : Bool} {k : LockSite} {a : Access}
    (h : (ns.lockAnswer n granted k).1.ctl = .access a) : k = .acquire a ∧ granted = true := by
  unfold NodeState.lockAnswer at h
  split at h
  · cases granted with
    | true =>
      cases h
      exact ⟨rfl, rfl⟩
    | false => cases h
  · split at h <;> cases h
  · cases h
  · cases h

theorem settles_lockAnswer (ns : NodeState) (granted : Bool) (k : LockSite) :
    Settles none (ns.lockAnswer n granted k).1.ctl := by
  rcases lockAnswer_ctl ns granted k with h | h | ⟨a, h⟩
  · exact Or.inl h
  · rw [h]
    exact Or.inr ⟨rfl, rfl, rfl, by simp⟩
  · rw [h]
    exact Or.inr ⟨rfl, rfl, rfl, by simp⟩

theorem settles_closed (ns : NodeState) (x : Exchange) (r : Reply) :
    Settles (Ctl.closing x r).handles (ns.closed n x r).1.ctl := by
  unfold NodeState.closed
  split
  · exact settles_lockAnswer ns _ _
  all_goals first
    | exact Or.inl rfl
    | exact Or.inr ⟨rfl, rfl, rfl, by simp [NodeState.goto]⟩

theorem endSession_ctl (ns : NodeState) :
    ns.endSession.ctl = .idle ∨ ∃ d result, ns.endSession.ctl = .exchange .connecting (.reconnect d result) := by
  unfold NodeState.endSession
  split
  · exact Or.inr ⟨_, _, rfl⟩
  · exact Or.inl rfl

theorem settles_endSession (ns : NodeState) : Settles none ns.endSession.ctl := by
  rcases endSession_ctl ns with h | ⟨d, result, h⟩
  · rw [h]
    exact Or.inr ⟨rfl, rfl, rfl, by simp⟩
  · rw [h]
    exact Or.inr ⟨rfl, rfl, rfl, by simp⟩

theorem settles_swept (ns : NodeState) (ga : GlobalAddress) (b : Broadcaster) :
    Settles (b.handles ga) (stepBroadcast ns ga b []).self.ctl := by
  cases b with
  | startInvalidations d srcID => exact settles_endSession ns
  | _ => exact Or.inr ⟨rfl, rfl, rfl, by simp [stepBroadcast, NodeState.goto]⟩

theorem Opens.settles {env : Env} {ns : NodeState} {x : Ctl} {y : Exchange} (h : Opens n ns env x y) :
    x.detached = true ∧ x.online = false ∧ Settles x.handles (.exchange .connecting y) := by
  cases h <;> exact ⟨rfl, rfl, Or.inr ⟨rfl, rfl, rfl, by simp⟩⟩

theorem Sessions.apply_client {ch ch' : Channel} (h : Sessions s) (hch : s.net n = some ch)
    (hx : (s.node n).ctl.detached = true) (hnet : (e.apply s n).net = Function.update s.net n (some ch'))
    (hpeer : ch'.peer = ch.peer) (ho : ch'.isOpen = ch.isOpen)
    (hlink : Link n e.self.ctl ch' (s.node ch.peer).ctl)
    (hkeep : e.self.ctl = .crashed ∨ e.self.ctl.detached = true ∧ e.self.ctl.handles = (s.node n).ctl.handles)
    (hstuck : Stuck n e.self.ctl) : Sessions (e.apply s n) := by
  have hself : (e.apply s n).net n = some ch' := by rw [hnet, Function.update_self]
  refine h.apply_own (fun p hp => ?_) hx hkeep ?_ ?_ (fun hnone => ?_) hstuck
  · rw [hnet, Function.update_of_ne hp]
  · intro dh hdh
    obtain rfl : ch' = dh := Option.some.inj (hself.symm.trans hdh)
    rw [hpeer]
    exact ⟨(h.link n ch hch).1, hlink⟩
  · intro dh hdh hod
    obtain rfl : ch = dh := Option.some.inj (hch.symm.trans hdh)
    exact Or.inr ⟨ch', hself, hpeer, ho.trans hod⟩
  · rw [hself] at hnone
    cases hnone

theorem Sessions.apply_close {ch : Channel} (h : Sessions s) (hch : s.net n = some ch)
    (hx : (s.node n).ctl.detached = true) (hw : e.wire = some (n, none))
    (hgone : ch.isOpen = true → (s.node ch.peer).ctl = .serving n)
    (hset : Settles (s.node n).ctl.handles e.self.ctl) : Sessions (e.apply s n) := by
  have hself : (e.apply s n).net n = none := by rw [Effect.net_wire hw, Function.update_self]
  refine h.apply_own (fun p hp => ?_) hx hset.keep ?_ ?_ (fun _ => hset.offline) hset.stuck
  · rw [Effect.net_wire hw, Function.update_of_ne hp]
  · intro dh hdh
    rw [hself] at hdh
    cases hdh
  · intro dh hdh hod
    obtain rfl : ch = dh := Option.some.inj (hch.symm.trans hdh)
    exact Or.inl (hgone hod)

theorem Sessions.apply_crash {ch : Channel} (h : Sessions s) (hch : s.net n = some ch)
    (hx : (s.node n).ctl.detached = true) (hw : e.wire = none) (hself : e.self.ctl = .crashed)
    (hup : ch.up = none) (ho : ch.isOpen = true) (hsv : (s.node ch.peer).ctl = .serving n) :
    Sessions (e.apply s n) := by
  refine h.apply_client hch hx ?_ rfl rfl ?_ (Or.inl hself) ?_
  · rw [Effect.net_local hw, ← hch, Function.update_eq_self]
  · rw [hself, hsv]
    obtain ⟨m, up, down, op⟩ := ch
    cases hup
    cases ho
    exact .clientDown m down
  · rw [hself]
    exact stuck_of_ne (by simp) (by simp)

theorem Sessions.moves {env : Env} {x : Ctl} (h : Sessions s) (hx : (s.node n).ctl = x)
    (hm : Moves s n env x e) : Sessions (e.apply s n) := by
  have hlink : ∀ ch, s.net n = some ch → Link n x ch (s.node ch.peer).ctl := by
    intro ch hch
    exact hx ▸ (h.link n ch hch).2
  have hstuck : Stuck n x := hx ▸ h.stuck n
  cases hm with
  | lockGrant k locks granted =>
    exact h.apply_local rfl (by rw [hx]; rfl) (by rw [hx]; rfl) (by rw [hx]; exact settles_lockAnswer _ _ _)
  | connect x y hopen =>
    obtain ⟨hdet, hoff, hset⟩ := hopen.settles
    exact h.apply_local rfl (by rwa [hx]) (by rwa [hx]) (by rwa [hx])
  | writeLocal d b =>
    refine h.apply_local rfl (by rw [hx]; rfl) (by rw [hx]; rfl) ?_
    rw [hx]
    cases b.record.writeInvalidates <;> exact Or.inr ⟨rfl, rfl, rfl, by simp [NodeState.goto]⟩
  | freeLocal ga b =>
    refine h.apply_local rfl (by rw [hx]; rfl) (by rw [hx]; rfl) ?_
    rw [hx]
    cases b.record.freeInvalidates <;> exact Or.inr ⟨rfl, rfl, rfl, by simp [NodeState.goto]⟩
  | swept ga b =>
    refine h.apply_local (by cases b <;> rfl) (by rw [hx]; rfl) (by rw [hx]; rfl) ?_
    rw [hx]
    exact settles_swept _ ga b
  | discardFor ga c srcID ch hch =>
    have hclient : (s.node n).ctl.client = some c := by rw [hx]; rfl
    obtain ⟨dh, hdh, hpeer, ho, hl⟩ := h.client_link hx rfl (by simp)
    obtain rfl : ch = dh := Option.some.inj (hch.symm.trans hdh)
    obtain ⟨y, hown, hreq, hne, rfl⟩ := hl.of_handles ho rfl
    refine h.apply_server hclient hch hpeer (Effect.net_wire rfl) hpeer ?_ (Or.inr ⟨rfl, rfl⟩)
      (by rw [hx]; rfl) rfl (stuck_of_ne (by simp) (by simp))
    rw [hown]
    exact .answered y _ (hreq ▸ rfl) (hreq ▸ hne)
  | sendWrite d ch cache hch =>
    obtain ⟨rfl, hsv⟩ := (hlink ch hch).of_connected
    refine h.apply_client hch (by rw [hx]; rfl) (Effect.net_wire rfl) rfl rfl ?_
      (Or.inr ⟨rfl, by rw [hx]; rfl⟩) (stuck_of_ne (by simp [NodeState.goto]) (by simp [NodeState.goto]))
    rw [hsv]
    exact .asked (.performWrite d) (by simp [Exchange.request])
  | sendReset d result ch hch =>
    obtain ⟨rfl, hsv⟩ := (hlink ch hch).of_connected
    refine h.apply_client hch (by rw [hx]; rfl) (Effect.net_wire rfl) rfl rfl ?_
      (Or.inr ⟨rfl, by rw [hx]; rfl⟩) (stuck_of_ne (by simp [NodeState.goto]) (by simp [NodeState.goto]))
    rw [hsv]
    exact .closing (.reconnect d result) .reset rfl
  | send y ch hch hnw hnr =>
    obtain ⟨rfl, hsv⟩ := (hlink ch hch).of_connected
    have hnf := hstuck.ne_forward rfl
    refine h.apply_client hch (by rw [hx]; rfl) (Effect.net_wire rfl) rfl rfl ?_
      (Or.inr ⟨rfl, by rw [hx]; rfl⟩) (stuck_of_ne ?_ (by simp [NodeState.goto]))
    · rw [hsv]
      refine .asked y ?_
      cases y with
      | reconnect d result => exact absurd rfl (hnr d result)
      | forward c r => exact absurd rfl ((hnf c r).1 _)
      | _ => simp [Exchange.request]
    · rintro ph c r hf
      cases hf
      exact (hnf c r).1 _ rfl
  | fetched ga w rest ch cache hch hd hadd =>
    rcases (hlink ch hch).of_waiting hd with ⟨rfl, rfl, ha, -, hsv⟩ | ⟨d, sga, he, -⟩
    · refine h.apply_client hch (by rw [hx]; rfl) (Effect.net_wire rfl) rfl rfl ?_
        (Or.inr ⟨rfl, by rw [hx]; rfl⟩) (stuck_of_ne (by simp [NodeState.goto]) (by simp [NodeState.goto]))
      rw [hsv]
      exact .closing (.performRead ga) _ ha
    · cases he
  | invalidated d sga rest ch hch hd =>
    rcases (hlink ch hch).of_waiting hd with ⟨-, -, ha, -⟩ | ⟨d', sga', he, -, hcase⟩
    · cases ha
    · cases he
      refine h.apply_client hch (by rw [hx]; rfl) (Effect.net_wire rfl) rfl rfl ?_
        (Or.inr ⟨rfl, by rw [hx]; rfl⟩) (stuck_of_ne (by simp [NodeState.goto]) (by simp [NodeState.goto]))
      rcases hcase with ⟨rfl, rfl, nodes, hsv⟩ | ⟨sga'', rfl, rfl⟩
      · rw [hsv]
        exact .again d nodes
      · exact .againAnswered d _ _
  | received y r rest ch hch hd hplain hninv =>
    rcases (hlink ch hch).of_waiting hd with ⟨rfl, rfl, ha, -, hsv⟩ | ⟨d, sga, he, hr, -⟩
    · have hnf := hstuck.ne_forward rfl
      refine h.apply_client hch (by rw [hx]; rfl) (Effect.net_wire rfl) rfl rfl ?_
        (Or.inr ⟨rfl, by rw [hx]; rfl⟩) (stuck_of_ne (by simp [NodeState.goto]) ?_)
      · rw [hsv]
        exact .closing y r ha
      · rintro c q a hf
        cases hf
        exact (hnf c q).1 _ rfl
    · exact absurd hr (hninv d sga he)
  | mallocReturn size sga rest ch hch hd =>
    rcases (hlink ch hch).of_waiting hd with ⟨-, -, -, -, hsv⟩ | ⟨d, sga, he, -⟩
    · exact h.apply_close hch (by rw [hx]; rfl) rfl (fun _ => hsv)
        (by rw [hx]; exact Or.inr ⟨rfl, rfl, rfl, by simp [NodeState.goto]⟩)
    · cases he
  | suspend d sga rest ch hch hd =>
    obtain ⟨-, -, -, -, -, rfl⟩ := (hlink ch hch).of_again hd
    exact h.apply_close hch (by rw [hx]; rfl) rfl (by simp)
      (by rw [hx]; exact Or.inr ⟨rfl, rfl, rfl, by simp [NodeState.goto]⟩)
  | sendCrash d ch hch ha =>
    obtain ⟨rfl, hsv⟩ := (hlink ch hch).of_connected
    exact h.apply_crash hch (by rw [hx]; rfl) rfl rfl rfl rfl hsv
  | fetchCrash ga w rest ch hch hd ha =>
    rcases (hlink ch hch).of_waiting hd with ⟨rfl, -, -, -, hsv⟩ | ⟨d, sga, he, -⟩
    · exact h.apply_crash hch (by rw [hx]; rfl) rfl rfl rfl rfl hsv
    · cases he
  | misread y r rest ch hch hd hmis =>
    cases hmis with
    | read ga _ hne =>
      rcases (hlink ch hch).of_waiting hd with ⟨rfl, -, -, -, hsv⟩ | ⟨d, sga, he, -⟩
      · exact h.apply_crash hch (by rw [hx]; rfl) rfl rfl rfl rfl hsv
      · cases he
    | malloc size _ hne =>
      rcases (hlink ch hch).of_waiting hd with ⟨rfl, -, -, -, hsv⟩ | ⟨d, sga, he, -⟩
      · exact h.apply_crash hch (by rw [hx]; rfl) rfl rfl rfl rfl hsv
      · cases he
    | again d _ hne =>
      obtain ⟨d', sga, -, hr, -⟩ := (hlink ch hch).of_again hd
      exact absurd hr (hne sga)
  | closed y r rest ch hch hd =>
    obtain ⟨rfl, -⟩ := (hlink ch hch).of_closing hd
    exact h.apply_close hch (by rw [hx]; rfl) rfl (by simp) (by rw [hx]; exact settles_closed _ _ _)
  | serve c ch r e hch hpeer hr hs => exact h.serves hx hch hpeer hr hs
  | startInvalidations c d nodes srcID ch b hch hb =>
    have hclient : (s.node n).ctl.client = some c := by rw [hx]; rfl
    obtain ⟨dh, hdh, hpeer, ho, hl⟩ := h.client_link hx rfl (by simp)
    obtain rfl : ch = dh := Option.some.inj (hch.symm.trans hdh)
    obtain ⟨rfl, hcase⟩ := hl.of_startInvalidations ho
    refine h.apply_server hclient hch hpeer (Effect.net_wire rfl) hpeer ?_ (Or.inl rfl)
      (by rw [hx]; rfl) rfl (stuck_of_ne (by simp) (by simp))
    rcases hcase with ⟨sga, hown, rfl⟩ | ⟨hown, rfl⟩
    · rw [hown]
      exact .invalidated d sga _ _
    · rw [hown]
      exact .againAnswered d _ _
  | readLocal | readCached | memcpy | mallocLocal | discardOwn =>
    exact h.apply_local rfl (by rw [hx]; rfl) (by rw [hx]; rfl)
      (by rw [hx]; exact Or.inr ⟨rfl, rfl, rfl, by simp [NodeState.goto]⟩)

section
variable {m c : NodeId} {x : Exchange}

theorem Sessions.accept (h : Sessions s) (hc : (s.node c).ctl = .exchange .connecting x) (hm : x.target = m)
    (hidle : (s.node m).ctl = .idle) : Sessions (s.accepted m c x) := by
  have hmc : m ≠ c := ne_of_idle_connecting hc hidle
  have hnone : s.net c = none := h.net_none (by rw [hc]; rfl) (by rw [hc]; simp)
  have hnf : ∀ d r, x ≠ .forward d r := by
    rintro d r rfl
    exact hmc (hm.symm.trans ((h.stuck c).1 _ d r hc).2)
  refine ⟨?_, ?_, ?_, ?_⟩
  · intro p ch hch
    by_cases hpc : p = c
    · subst hpc
      obtain rfl := Option.some.inj (State.accepted_net_client.symm.trans hch)
      rw [State.accepted_client, State.accepted_server hmc]
      exact ⟨hmc, hm ▸ .connected x⟩
    · rw [State.accepted_net_ne hpc] at hch
      obtain ⟨hne, hl⟩ := h.link p ch hch
      refine ⟨hne, ?_⟩
      have hpm : p ≠ m := by
        rintro rfl
        rw [h.net_none (by rw [hidle]; rfl) (by rw [hidle]; simp)] at hch
        cases hch
      rw [State.accepted_ne hpc hpm]
      by_cases hqc : ch.peer = c
      · rw [hqc] at hl ⊢
        rw [State.accepted_client]
        refine hl.keep (by rw [hc]; simp) (by rw [hc]; simp) (by rw [hc]; simp) (Or.inr (Or.inr ?_))
        rw [hc]
        rfl
      · by_cases hqm : ch.peer = m
        · rw [hqm] at hl ⊢
          rw [State.accepted_server hmc]
          exact hl.keep (by rw [hidle]; simp) (by rw [hidle]; simp) (by rw [hidle]; simp)
            (Or.inr (Or.inl (by rw [hidle]; rfl)))
        · rw [State.accepted_ne hqc hqm]
          exact hl
  · intro p hp
    by_cases hpc : p = c
    · subst hpc
      rw [State.accepted_net_client] at hp
      cases hp
    · rw [State.accepted_net_ne hpc] at hp
      by_cases hpm : p = m
      · subst hpm
        rw [State.accepted_server hmc]
        rfl
      · rw [State.accepted_ne hpc hpm]
        exact h.offline p hp
  · intro p
    by_cases hpc : p = c
    · subst hpc
      rw [State.accepted_client]
      refine stuck_of_ne ?_ (by simp [NodeState.goto])
      rintro ph d r hd
      cases hd
      exact hnf d r rfl
    · by_cases hpm : p = m
      · subst hpm
        rw [State.accepted_server hmc]
        exact stuck_of_ne (by simp [NodeState.goto]) (by simp [NodeState.goto])
      · rw [State.accepted_ne hpc hpm]
        exact h.stuck p
  · intro p d hd
    have hkeep : ∀ q, (s.node q).ctl.client = some d → (s.node q).ctl = .serving d ∨
        ∃ ch, (s.accepted m c x).net d = some ch ∧ ch.peer = q ∧ ch.isOpen = true := by
      intro q hq
      rcases h.busy q d hq with hs | ⟨ch, hch, hpeer, ho⟩
      · exact Or.inl hs
      · have hdc : d ≠ c := by
          rintro rfl
          rw [hnone] at hch
          cases hch
        exact Or.inr ⟨ch, (State.accepted_net_ne hdc).trans hch, hpeer, ho⟩
    by_cases hpc : p = c
    · subst hpc
      rw [State.accepted_client] at hd ⊢
      rcases hkeep p (by rw [hc]; exact hd) with hs | hex
      · rw [hc] at hs
        cases hs
      · exact Or.inr hex
    · by_cases hpm : p = m
      · subst hpm
        rw [State.accepted_server hmc] at hd ⊢
        obtain rfl := Option.some.inj hd
        exact Or.inl rfl
      · rw [State.accepted_ne hpc hpm] at hd ⊢
        exact hkeep p hd

end

/-- Whatever the nodes do and in whatever order, every connection is in one of the listed states. -/
theorem Sessions.steps {s' : State} {a : Action} (h : Sessions s) (hs : Steps s a s') : Sessions s' := by
  cases hs with
  | begin n op hidle hsus =>
    refine h.apply_local rfl (by rw [hidle]; rfl) (by rw [hidle]; rfl) ?_
    rw [hidle]
    cases op <;> exact Or.inr ⟨rfl, rfl, rfl, by simp [NodeState.goto, Op.stamp, Op.start]⟩
  | accept m c x hc hm hidle => exact h.accept hc hm hidle
  | exec n env e _ hm => exact h.moves rfl hm

/-- Before the first call: no node is in a call, no connection exists, nothing has happened. -/
structure Quiet (s : State) : Prop where
  idle : ∀ n, (s.node n).ctl = .idle
  suspended : ∀ n, (s.node n).suspended = []
  net : ∀ n, s.net n = none
  log : s.log = []

theorem Quiet.sessions (h : Quiet s) : Sessions s := by
  refine ⟨?_, ?_, ?_, ?_⟩
  · intro n ch hch
    rw [h.net n] at hch
    cases hch
  · intro n _
    rw [h.idle n]
    rfl
  · intro n
    rw [h.idle n]
    exact stuck_of_ne (by simp) (by simp)
  · intro m c hc
    rw [h.idle m] at hc
    cases hc

def Action.nodes : Action → List NodeId
  | .begin n _ | .exec n _ => [n]
  | .accept m c => [m, c]

theorem Steps.node_ne {s t : State} {a : Action} {n : NodeId} (hs : Steps s a t) (hn : n ∉ a.nodes) :
    t.node n = s.node n := by
  cases hs with
  | begin p op => exact State.begun_ne (by simpa [Action.nodes] using hn)
  | accept m c y =>
    obtain ⟨hm, hc⟩ := not_or.mp (by simpa [Action.nodes] using hn)
    exact State.accepted_ne hc hm
  | exec p env e => exact Effect.apply_ne (by simpa [Action.nodes] using hn)

theorem run_untouched {s t : State} {as : List Action} {n : NodeId} (hn : ∀ a ∈ as, n ∉ a.nodes)
    (h : run step s as = some t) : t.node n = s.node n :=
  run_invariant_of_meets (I := fun u => u.node n = s.node n) (C := fun _ a => n ∉ a.nodes)
    (fun _ _ _ hu ha huv => ((steps_of_step huv).node_ne ha).trans hu) rfl (meets_of_forall hn) h

def State.start (mem : NodeId → UInt64 → Option Block) : State where
  node n := ⟨LockTable.empty, Cache.new, mem n, [], .idle⟩
  net _ := none
  log := []

theorem State.quiet_start (mem : NodeId → UInt64 → Option Block) : Quiet (State.start mem) :=
  ⟨fun _ => rfl, fun _ => rfl, fun _ => rfl, rfl⟩

/-- A block of 8 bytes at 4096 in the memory of 3000, written by its home. -/
def homeBlock (m : NodeId) (ptr : UInt64) : Option Block :=
  if m = 3000 ∧ ptr = 4096 then some ⟨8, .written ⟨1, 0⟩ 3000⟩ else none

def go (n : NodeId) : Action := .exec n ⟨0, none⟩

/-- Client `c` connects to `m`, makes its request, takes the reply and closes with RESET. -/
def talk (c m : NodeId) : List Action := [.accept m c, go c, go m, go c, go m, go c]

end
end CacheCoherence.Protocol
