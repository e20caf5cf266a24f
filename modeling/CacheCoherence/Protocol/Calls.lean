import CacheCoherence.Protocol.Suspension

/-! # The call a node is in

The history has the beginning and the end of every call, and the control of a thread tells which
call it is in. A write is named by its stamp, the place of its call in the history.
-/
namespace CacheCoherence.Protocol

def Access.op : Access → Op Word
  | .read ga => .read ga
  | .write d => .write d

def Accessed.op : Accessed → Op Word
  | .read ga _ => .read ga
  | .write d _ => .write d

def LockSite.op : LockSite → Op Word
  | .acquire a => a.op
  | .release a => a.op
  | .call l => .setLock l

def Broadcaster.op (ga : GlobalAddress) : Broadcaster → Option (Op Word)
  | .write d => some (.write d)
  | .free => some (.free ga)
  | _ => none

def Exchange.op : Exchange → Option (Op Word)
  | .setLock k => some k.op
  | .performRead ga => some (.read ga)
  | .performWrite d => some (.write d)
  | .free ga => some (.free ga)
  | .malloc size => some (.malloc size)
  | .invalidate _ _ ga b => b.op ga
  | .reconnect d _ => some (.write d)
  | .forward _ _ => none

def Ctl.op : Ctl → Option (Op Word)
  | .setLock k => some k.op
  | .access a => some a.op
  | .memcpy d => some (.write d)
  | .free ga => some (.free ga)
  | .malloc size => some (.malloc size)
  | .broadcast _ ga b => b.op ga
  | .discard ga none => some (.free ga)
  | .exchange _ e => e.op
  | .closing e _ => e.op
  | _ => none

def NodeState.calling (ns : NodeState) : Option (Op Word) :=
  match ns.suspended with
  | (d, _) :: _ => some (.write d)
  | [] => ns.ctl.op

def Outcome.ends : Outcome → Op Word → Prop
  | .read ga _, .read ga' => ga = ga'
  | .write d _, .write d' => d = d'
  | .free ga _, .free ga' => ga = ga'
  | .malloc _, .malloc _ => True
  | .setLock l _, .setLock l' => l = l'
  | _, _ => False

def Event.inner : Event → Bool
  | .call _ _ | .ret _ _ => false
  | _ => true

/-- The last call of `n` in the log is `op`, and it has not returned. -/
def Open (n : NodeId) (op : Op Word) (log : List Event) : Prop :=
  ∃ pre mid, log = pre ++ .call n op :: mid ∧ (∀ op', .call n op' ∉ mid) ∧ (∀ o, .ret n o ∉ mid) ∧
    ∀ d, op = .write d → d.data.stamp = pre.length + 1

/-- The stamp of the write is the place of its call. -/
def CallAt (log : List Event) (n : NodeId) (d : Data Word) : Prop :=
  1 ≤ d.data.stamp ∧ log[d.data.stamp - 1]? = some (.call n (.write d))

/-- Between the states `ns` and `ns'` node `n` reports `es`: it stays in its call, or ends it last. -/
def Proceeds (n : NodeId) (ns ns' : NodeState) (es : List Event) : Prop :=
  ((ns'.calling = ns.calling ∨ ns'.calling = none) ∧ ∀ ev ∈ es, ev.inner = true) ∨
  ∃ fs o op, es = fs ++ [.ret n o] ∧ (∀ ev ∈ fs, ev.inner = true) ∧ ns.calling = some op ∧ o.ends op ∧
    ns'.calling = none

structure Calls (s : State) : Prop where
  opened : ∀ n op, (s.node n).calling = some op → Open n op s.log
  returned : ∀ n d r, .ret n (.write d r) ∈ s.log → CallAt s.log n d ∧ (s.node n).calling ≠ some (.write d)

section
variable {s : State} {n m p : NodeId} {e : Effect} {env : Env} {x : Ctl} {ns ns' : NodeState}
variable {log : List Event} {d d' : Data Word} {op : Op Word}

theorem Open.append (h : Open n op log) {es : List Event} (hc : ∀ op', .call n op' ∉ es)
    (hr : ∀ o, .ret n o ∉ es) : Open n op (log ++ es) := by
  obtain ⟨pre, mid, rfl, hcall, hret, hstamp⟩ := h
  refine ⟨pre, mid ++ es, by simp, ?_, ?_, hstamp⟩
  · intro op' hmem
    rcases List.mem_append.mp hmem with h | h
    · exact hcall op' h
    · exact hc op' h
  · intro o hmem
    rcases List.mem_append.mp hmem with h | h
    · exact hret o h
    · exact hr o h

theorem Open.callAt (h : Open n (.write d) log) : CallAt log n d := by
  obtain ⟨pre, mid, rfl, -, -, hstamp⟩ := h
  have hs := hstamp d rfl
  refine ⟨by omega, ?_⟩
  rw [hs, Nat.add_sub_cancel, List.getElem?_append_right (by omega)]
  simp

theorem CallAt.append (h : CallAt log n d) (es : List Event) : CallAt (log ++ es) n d := by
  obtain ⟨hs, hcall⟩ := h
  obtain ⟨hlt, -⟩ := List.getElem?_eq_some_iff.mp hcall
  exact ⟨hs, by rw [List.getElem?_append_left hlt, hcall]⟩

theorem CallAt.stamp_le (h : CallAt log n d) : d.data.stamp ≤ log.length := by
  obtain ⟨hs, hcall⟩ := h
  obtain ⟨hlt, -⟩ := List.getElem?_eq_some_iff.mp hcall
  omega

theorem CallAt.unique (h : CallAt log n d) (h' : CallAt log m d') (hs : d.data.stamp = d'.data.stamp) :
    n = m ∧ d = d' := by
  have hcall := h.2
  rw [hs, h'.2] at hcall
  cases hcall
  exact ⟨rfl, rfl⟩

theorem calling_congr (hs : ns'.suspended = ns.suspended) (ho : ns'.ctl.op = ns.ctl.op) :
    ns'.calling = ns.calling := by
  rw [NodeState.calling, NodeState.calling, hs, ho]

theorem calling_of_own (hs : ns.suspended = []) : ns.calling = ns.ctl.op := by rw [NodeState.calling, hs]

theorem calling_of_crash (hs : ns'.suspended = ns.suspended) (hc : ns'.ctl = .crashed) :
    ns'.calling = ns.calling ∨ ns'.calling = none := by
  rw [NodeState.calling, NodeState.calling, hs, hc]
  cases ns.suspended with
  | nil => exact Or.inr rfl
  | cons p ps => exact Or.inl rfl

theorem lockAnswer_proceeds (n : NodeId) (ns : NodeState) (g : Bool) (k : LockSite) (hs : ns.suspended = [])
    (hop : ns.ctl.op = some k.op) (es : List Event) (hes : ∀ ev ∈ es, ev.inner = true) :
    Proceeds n ns (ns.lockAnswer n g k).1 (es ++ (ns.lockAnswer n g k).2) := by
  have hns : ns.calling = some k.op := (calling_of_own hs).trans hop
  have hgoto : ∀ y : Ctl, (ns.goto y).calling = y.op := by
    intro y
    exact calling_of_own (show (ns.goto y).suspended = [] from hs)
  cases k with
  | acquire a =>
    cases g with
    | true => exact Or.inl ⟨Or.inl ((hgoto (.access a)).trans hns.symm), by simpa [NodeState.lockAnswer] using hes⟩
    | false =>
      refine Or.inr ⟨es, a.denied, _, rfl, hes, hns, ?_, hgoto .idle⟩
      cases a <;> rfl
  | release a =>
    cases a with
    | read ga f =>
      simp only [NodeState.lockAnswer]
      cases hf : f.deref ns.mem with
      | none => exact Or.inl ⟨Or.inr (hgoto .crashed), by simpa using hes⟩
      | some w => exact Or.inr ⟨es, _, _, rfl, hes, hns, rfl, hgoto .idle⟩
    | write d result => exact Or.inr ⟨es, _, _, rfl, hes, hns, rfl, hgoto .idle⟩
  | call l => exact Or.inr ⟨es, _, _, rfl, hes, hns, rfl, hgoto .idle⟩

theorem endSession_calling (h : ns.suspended = [] ∨ ∃ p, ns.suspended = [p]) (ho : ns.ctl.op = none) :
    ns.endSession.calling = ns.calling := by
  rcases h with h | ⟨⟨d, result⟩, h⟩
  · rw [calling_of_own h, ho]
    simp [NodeState.endSession, NodeState.calling, h, NodeState.goto, Ctl.op]
  · simp [NodeState.endSession, NodeState.calling, h, Ctl.op, Exchange.op]

/-- A move stays within the call of its node, or ends it and reports that last. -/
theorem Moves.proceeds (hsus : Suspends s) (hx : (s.node n).ctl = x) (h : Moves s n env x e) :
    Proceeds n (s.node n) e.self e.events := by
  have hown : x.aside = false → (s.node n).suspended = [] ∧ (s.node n).calling = x.op := by
    intro ha
    have hs := hsus.of_own hx ha
    exact ⟨hs, by rw [calling_of_own hs, hx]⟩
  have hend : ∀ y : NodeState, y.suspended = (s.node n).suspended → y.ctl = .idle → x.aside = false →
      y.calling = none := by
    intro y hys hyc ha
    rw [calling_of_own (hys.trans (hown ha).1), hyc]
    rfl
  have hkeep : e.self.suspended = (s.node n).suspended → e.self.ctl.op = x.op → e.events = [] →
      Proceeds n (s.node n) e.self e.events := by
    intro hs ho hev
    exact Or.inl ⟨Or.inl (calling_congr hs (ho.trans (by rw [hx]))), by simp [hev]⟩
  have hcrash : e.self.suspended = (s.node n).suspended → e.self.ctl = .crashed → e.events = [] →
      Proceeds n (s.node n) e.self e.events := by
    intro hs hc hev
    exact Or.inl ⟨calling_of_crash hs hc, by simp [hev]⟩
  cases h with
  | lockGrant k locks granted hn hset =>
    have hlocks : ({ s.node n with locks := locks } : NodeState).calling = (s.node n).calling := calling_congr rfl rfl
    have hans := lockAnswer_proceeds n { s.node n with locks := locks } granted k (hown rfl).1 (by rw [hx]; rfl)
      [.lock n k.lock granted, .answered n k.lock granted] (by simp [Event.inner])
    rwa [Proceeds, hlocks] at hans
  | connect x y hopen => exact hkeep rfl (by cases hopen <;> rfl) rfl
  | writeLocal d b => exact hkeep rfl (by cases b.record.writeInvalidates <;> rfl) rfl
  | freeLocal ga b => exact hkeep rfl (by cases b.record.freeInvalidates <;> rfl) rfl
  | memcpy d b hb =>
    refine Or.inl ⟨Or.inl (calling_congr rfl ?_), by simp [Event.inner]⟩
    rw [hx]
    rfl
  | mallocLocal size ptr content hb =>
    exact Or.inr ⟨[.alloc ⟨size, ptr, n⟩ ⟨content.data, s.clock⟩], _, _, rfl, by simp [Event.inner],
      (hown rfl).2, trivial, hend _ rfl rfl rfl⟩
  | swept ga b =>
    cases b with
    | startInvalidations d srcID =>
      exact Or.inl ⟨Or.inl (endSession_calling ((hsus n).imp id And.right) (by rw [hx]; rfl)), by simp [stepBroadcast]⟩
    | _ => exact hkeep rfl rfl rfl
  | discardOwn ga =>
    exact Or.inr ⟨[.freed ga], _, _, rfl, by simp [Event.inner], (hown rfl).2, rfl, hend _ rfl rfl rfl⟩
  | discardFor ga c srcID ch hch =>
    refine Or.inl ⟨Or.inl (calling_congr rfl ?_), by simp [Event.inner]⟩
    rw [hx]
    rfl
  | mallocReturn size sga rest ch hch hd =>
    exact Or.inr ⟨[], _, _, rfl, by simp, (hown rfl).2, trivial, hend _ rfl rfl rfl⟩
  | suspend d sga rest ch hch hd =>
    refine Or.inl ⟨Or.inl ?_, by simp⟩
    rw [(hown rfl).2]
    rfl
  | sendCrash | fetchCrash | misread => exact hcrash rfl rfl rfl
  | closed y r rest ch hch hd =>
    cases y with
    | setLock k =>
      cases r with
      | lock granted =>
        exact lockAnswer_proceeds n (s.node n) granted k (hown rfl).1 (by rw [hx]; rfl)
          [.answered n k.lock granted] (by simp [Event.inner])
      | _ => exact hcrash rfl rfl rfl
    | performRead ga =>
      cases r with
      | data w => exact hkeep rfl rfl rfl
      | _ => exact hcrash rfl rfl rfl
    | performWrite d =>
      cases r with
      | address sga => exact hkeep rfl rfl rfl
      | _ => exact hcrash rfl rfl rfl
    | free ga =>
      cases r with
      | address sga => exact Or.inr ⟨[], _, _, rfl, by simp, (hown rfl).2, rfl, hend _ rfl rfl rfl⟩
      | _ => exact hcrash rfl rfl rfl
    | invalidate m rest ga b => exact hkeep rfl rfl rfl
    | reconnect d result => exact hkeep rfl rfl rfl
    | malloc size => exact hcrash rfl rfl rfl
    | forward c q => exact hcrash rfl rfl rfl
  | serve c ch r e hch hpeer hup hs =>
    have hserving : ∀ es : NodeState, es.suspended = (s.node n).suspended → es.ctl = (s.node n).ctl →
        es.calling = (s.node n).calling := fun es hs hc => calling_congr hs (by rw [hc])
    cases hs with
    | malloc | locks | write =>
      exact Or.inl ⟨Or.inl (hserving _ rfl rfl), by simp [Event.inner]⟩
    | reset => exact Or.inl ⟨Or.inl (endSession_calling ((hsus n).imp id And.right) (by rw [hx]; rfl)), by simp⟩
    | readNull => exact hcrash rfl rfl rfl
    | free sga b => exact hkeep rfl (by cases b.record.freeInvalidates <;> rfl) rfl
    | writeShared | forward => exact hkeep rfl rfl rfl
    | _ => exact Or.inl ⟨Or.inl (hserving _ rfl rfl), by simp⟩
  | startInvalidations c d nodes srcID ch b hch hb =>
    refine Or.inl ⟨Or.inl (calling_congr rfl ?_), by simp [Event.inner]⟩
    rw [hx]
    rfl
  | _ => exact hkeep rfl rfl rfl

theorem Calls.not_returned (h : Calls s) (hc : (s.node n).calling = some (.write d)) (r : Option GlobalAddress) :
    .ret n (.write d r) ∉ s.log := fun hr => (h.returned n d r hr).2 hc

theorem Calls.callAt (h : Calls s) (hc : (s.node n).calling = some (.write d)) : CallAt s.log n d :=
  (h.opened n _ hc).callAt

theorem State.begun_calling (op : Op Word) (hsus : (s.node n).suspended = []) :
    ((s.begun n op).node n).calling = some op := by
  have hs : ((s.node n).goto op.start).suspended = [] := hsus
  rw [begun_self, calling_of_own hs]
  cases op <;> rfl

theorem State.accepted_calling {y : Exchange} {c : NodeId} (hc : (s.node c).ctl = .exchange .connecting y)
    (hidle : (s.node m).ctl = .idle) (p : NodeId) : ((s.accepted m c y).node p).calling = (s.node p).calling := by
  by_cases hpc : p = c
  · subst hpc
    rw [accepted_client]
    exact calling_congr rfl (by rw [hc]; rfl)
  · by_cases hpm : p = m
    · subst hpm
      rw [accepted_server hpc]
      exact calling_congr rfl (by rw [hidle]; rfl)
    · rw [accepted_ne hpc hpm]

theorem Calls.begin {op : Op UInt64} (h : Calls s) (hsus : (s.node n).suspended = []) :
    Calls (s.begun n (op.stamp s.clock)) := by
  have hself := State.begun_calling (op.stamp s.clock) hsus
  refine ⟨?_, ?_⟩
  · intro p op' hp
    by_cases hpn : p = n
    · subst hpn
      rw [hself] at hp
      cases hp
      refine ⟨s.log, [], rfl, by simp, by simp, ?_⟩
      intro d hd
      cases op with
      | write d' =>
        cases hd
        rfl
      | _ => cases hd
    · rw [State.begun_ne hpn] at hp
      have hnp : n ≠ p := Ne.symm hpn
      exact (h.opened p op' hp).append (by simp [hpn]) (by simp)
  · intro p d r hr
    have hold : .ret p (.write d r) ∈ s.log := by simpa using hr
    obtain ⟨hat, hne⟩ := h.returned p d r hold
    refine ⟨hat.append _, ?_⟩
    by_cases hpn : p = n
    · subst hpn
      rw [hself]
      intro heq
      cases op with
      | write d' =>
        cases heq
        have hle := hat.stamp_le
        simp only [State.clock] at hle
        omega
      | _ => cases heq
    · rw [State.begun_ne hpn]
      exact hne

theorem Calls.moves (hsus : Suspends s) (h : Calls s) (hm : Moves s n env (s.node n).ctl e) :
    Calls (e.apply s n) := by
  rcases hm.proceeds hsus rfl with ⟨hcall, hin⟩ | ⟨es, o, op, hev, hin, hcall, ho, hnone⟩
  · have hnc : ∀ m op', .call m op' ∉ e.events := fun m op' hmem => Bool.noConfusion (hin _ hmem)
    have hnr : ∀ m o, .ret m o ∉ e.events := fun m o hmem => Bool.noConfusion (hin _ hmem)
    have hback : ∀ p op', ((e.apply s n).node p).calling = some op' → (s.node p).calling = some op' := by
      intro p op' hp
      by_cases hpn : p = n
      · subst hpn
        rw [Effect.apply_self] at hp
        rcases hcall with hc | hc
        · rw [← hc, hp]
        · rw [hc] at hp
          cases hp
      · rwa [Effect.apply_ne hpn] at hp
    refine ⟨fun p op' hp => (h.opened p op' (hback p op' hp)).append (hnc p) (hnr p), fun p d r hr => ?_⟩
    rcases List.mem_append.mp hr with hr | hr
    · obtain ⟨hat, hne⟩ := h.returned p d r hr
      exact ⟨hat.append _, fun hp => hne (hback p _ hp)⟩
    · exact absurd hr (hnr p _)
  · have hnc : ∀ m op', .call m op' ∉ e.events := by
      intro m op' hmem
      rw [hev] at hmem
      rcases List.mem_append.mp hmem with hmem | hmem
      · exact Bool.noConfusion (hin _ hmem)
      · cases List.mem_singleton.mp hmem
    have hret : ∀ m o', .ret m o' ∈ e.events → m = n ∧ o' = o := by
      intro m o' hmem
      rw [hev] at hmem
      rcases List.mem_append.mp hmem with hmem | hmem
      · exact Bool.noConfusion (hin _ hmem)
      · cases List.mem_singleton.mp hmem
        exact ⟨rfl, rfl⟩
    refine ⟨fun p op' hp => ?_, fun p d r hr => ?_⟩
    · by_cases hpn : p = n
      · subst hpn
        rw [Effect.apply_self, hnone] at hp
        cases hp
      · rw [Effect.apply_ne hpn] at hp
        exact (h.opened p op' hp).append (hnc p) fun o' hmem => hpn (hret p o' hmem).1
    · have hpast : (p ≠ n → (s.node p).calling ≠ some (.write d)) →
          ((e.apply s n).node p).calling ≠ some (.write d) := by
        intro hne
        by_cases hpn : p = n
        · subst hpn
          rw [Effect.apply_self, hnone]
          simp
        · rw [Effect.apply_ne hpn]
          exact hne hpn
      rcases List.mem_append.mp hr with hr | hr
      · obtain ⟨hat, hne⟩ := h.returned p d r hr
        exact ⟨hat.append _, hpast fun _ => hne⟩
      · obtain ⟨rfl, rfl⟩ := hret p _ hr
        have hop : op = .write d := by
          cases op with
          | write d' =>
            have hd : d = d' := ho
            rw [hd]
          | _ => exact absurd ho id
        rw [hop] at hcall
        exact ⟨(h.callAt hcall).append _, hpast fun hne => absurd rfl hne⟩

theorem Calls.steps {t : State} {a : Action} (hsus : Suspends s) (h : Calls s) (hs : Steps s a t) : Calls t := by
  cases hs with
  | begin n op hidle hsn => exact h.begin hsn
  | accept m c y hc hm hidle =>
    have hcalling := State.accepted_calling (m := m) hc hidle
    refine ⟨fun p op hp => h.opened p op (by rw [← hcalling, hp]), fun p d r hr => ?_⟩
    rw [hcalling]
    exact h.returned p d r hr
  | exec n env e _ hm => exact h.moves hsus hm

theorem Quiet.calls (h : Quiet s) : Calls s := by
  refine ⟨fun n op hop => ?_, fun n d r hr => ?_⟩
  · rw [calling_of_own (h.suspended n), h.idle n] at hop
    cases hop
  · rw [h.log] at hr
    cases hr

section
variable {t : State} {a : Action} {c : NodeId} {pre pre' mid mid' es : List Event} {op' : Op Word}

theorem call_split_unique (h : pre ++ .call n op :: mid = pre' ++ .call n op' :: mid')
    (hm : ∀ o, .call n o ∉ mid) (hm' : ∀ o, .call n o ∉ mid') : pre = pre' ∧ mid = mid' := by
  rcases List.append_eq_append_iff.mp h with ⟨as, rfl, has⟩ | ⟨as, rfl, has⟩
  all_goals
    cases as with
    | nil =>
      cases has
      exact ⟨by simp, rfl⟩
    | cons ev as =>
      cases has
      first
        | exact absurd (List.mem_append_right as List.mem_cons_self) (hm _)
        | exact absurd (List.mem_append_right as List.mem_cons_self) (hm' _)

theorem split_append {ev : Event} {post : List Event} (h : log ++ es = mid ++ ev :: post) :
    (∃ post', log = mid ++ ev :: post' ∧ post = post' ++ es) ∨ ∃ fs, mid = log ++ fs ∧ es = fs ++ ev :: post := by
  rcases List.append_eq_append_iff.mp h with ⟨fs, rfl, hes⟩ | ⟨fs, rfl, hpost⟩
  · exact Or.inr ⟨fs, rfl, hes⟩
  · cases fs with
    | nil =>
      right
      exact ⟨[], by simp, by simpa using hpost.symm⟩
    | cons ev' fs =>
      cases hpost
      exact Or.inl ⟨fs, rfl, rfl⟩

theorem split_old {ev : Event} {post : List Event} (h : log ++ es = mid ++ ev :: post) (hno : ev ∉ es) :
    ∃ post', log = mid ++ ev :: post' ∧ post = post' ++ es := by
  rcases split_append h with hold | ⟨fs, -, hes⟩
  · exact hold
  · exact absurd (by rw [hes]; exact List.mem_append_right fs List.mem_cons_self) hno

theorem Steps.log_append (hs : Steps s a t) : ∃ es, t.log = s.log ++ es := by
  cases hs with
  | begin p op hidle hsus => exact ⟨_, rfl⟩
  | accept q c y hc hm hidle => exact ⟨[], by simp⟩
  | exec p env e _ hm => exact ⟨_, rfl⟩

theorem Moves.no_call (hsus : Suspends s) (h : Moves s n env (s.node n).ctl e) (m : NodeId) (op : Op Word) :
    .call m op ∉ e.events := by
  intro hmem
  rcases h.proceeds hsus rfl with ⟨-, hin⟩ | ⟨fs, o, op', hes, hin, -⟩
  · exact Bool.noConfusion (hin _ hmem)
  · rw [hes] at hmem
    rcases List.mem_append.mp hmem with hmem | hmem
    · exact Bool.noConfusion (hin _ hmem)
    · cases List.mem_singleton.mp hmem

theorem Steps.no_call (hsus : Suspends s) (hs : Steps s a t) (hbusy : (s.node n).ctl ≠ .idle) :
    ∃ es, t.log = s.log ++ es ∧ ∀ op, .call n op ∉ es := by
  cases hs with
  | begin q op hidle hsus =>
    refine ⟨_, State.begun_log .., fun op' hmem => ?_⟩
    cases List.mem_singleton.mp hmem
    exact hbusy hidle
  | accept q p y hc hm hidle => exact ⟨[], by simp, fun _ => List.not_mem_nil⟩
  | exec q env e _ hm => exact ⟨e.events, rfl, hm.no_call hsus n⟩

end
end
end CacheCoherence.Protocol
