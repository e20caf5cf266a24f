import CacheCoherence.Coherence.BlockSizes
import CacheCoherence.Protocol.Waiting
import CacheCoherence.Protocol.Work

/-! # Why a system stops

Nodes that are in no call wait in `accept` for as long as nobody makes one. Whoever else cannot go on waits, along a
chain of nodes, for a thread that is lost or for itself.
-/
namespace CacheCoherence.Protocol
open TransitionRuns WaitChains

/-- No thread can go on; all that may happen is that a node makes a call. -/
def Stopped (s : State) : Prop := ∀ a, a.begins = false → step s a = none

/-- The thread has crashed, accesses memory that is not allocated, or serves a client that is gone: it has crashed,
or has closed its socket without RESET. -/
inductive Lost (s : State) (n : NodeId) : Prop where
  | crashed : (s.node n).ctl = .crashed → Lost s n
  | fault (ptr : UInt64) : s.accesses n = some ptr → (s.node n).mem ptr = none → Lost s n
  | deserted (c : NodeId) : (s.node n).ctl = .serving c →
      (∀ ch, s.net c = some ch → ch.peer = n → (s.node c).ctl = .crashed) → Lost s n

section
variable {s t : State} {n m c : NodeId} {x : Ctl} {y : Exchange} {ch : Channel} {r : Request}

theorem Stopped.exec (h : Stopped s) (n : NodeId) : exec n (s.node n) ⟨0, none⟩ s = none := by
  have hstep := h (go n) rfl
  have hsound : Env.sound (s.node n) ⟨0, none⟩ = true := rfl
  simpa only [step, go, if_pos hsound, Option.map_eq_none_iff] using hstep

theorem Stopped.accept (h : Stopped s) (hc : (s.node c).ctl = .exchange .connecting y) :
    (s.node y.target).ctl ≠ .idle := by
  intro hidle
  have hstep := h (.accept y.target c) rfl
  simp [step, acceptFrom, hc, hidle] at hstep

theorem accesses_of_receive_none {ns : NodeState} {env : Env} {k : ℕ} (h : receive n ns env c ch k r = none) :
    ∃ ptr, r.accesses n = some ptr ∧ ns.mem ptr = none := by
  cases r with
  | read sga =>
    simp only [receive, handleRead] at h
    by_cases hl : sga.id = n
    · rw [if_pos ((isLocal_iff n (.ofSendable sga)).mpr hl)] at h
      refine ⟨sga.ptr, if_pos hl, ?_⟩
      cases hmem : ns.mem sga.ptr with
      | none => rfl
      | some b =>
        simp only [GlobalAddress.ofSendable, hmem, Option.bind_eq_bind, Option.bind_some] at h
        split at h <;> cases h
    · rw [isLocal_of_ne hl, if_neg Bool.false_ne_true] at h
      split at h <;> cases h
  | write sd =>
    simp only [receive, handleWrite] at h
    by_cases hl : sd.sga.id = n
    · rw [if_pos ((isLocal_iff n (Data.ofSendable sd).ga).mpr hl)] at h
      refine ⟨sd.sga.ptr, if_pos hl, ?_⟩
      cases hmem : ns.mem sd.sga.ptr with
      | none => rfl
      | some b =>
        simp only [Data.ofSendable, GlobalAddress.ofSendable, hmem, Option.bind_eq_bind, Option.bind_some] at h
        split at h <;> cases h
    · rw [isLocal_of_ne hl, if_neg Bool.false_ne_true] at h
      cases h
  | free sga =>
    simp only [receive, handleFree] at h
    by_cases hl : sga.id = n
    · rw [if_pos ((isLocal_iff n (.ofSendable sga)).mpr hl)] at h
      refine ⟨sga.ptr, if_pos hl, ?_⟩
      cases hmem : ns.mem sga.ptr with
      | none => rfl
      | some b =>
        simp only [GlobalAddress.ofSendable, hmem, Option.bind_eq_bind, Option.bind_some] at h
        cases h
    · rw [isLocal_of_ne hl, if_neg Bool.false_ne_true] at h
      cases h
  | _ => cases h

theorem Link.open_of_unanswered {own sv : Ctl} (h : Link n own ch sv) (hd : ch.down = []) : ch.isOpen = true := by
  cases h with
  | invalidated | againAnswered | closed => cases hd
  | _ => rfl

theorem Stopped.no_reply (h : Stopped s) (hS : Sessions s) (hp : (s.node n).ctl.polls = true)
    (hch : s.net n = some ch) : ch.down = [] := by
  have hnone := h.exec n
  have hl := (hS.link n ch hch).2
  cases hd : ch.down with
  | nil => rfl
  | cons a rest =>
    generalize hx : (s.node n).ctl = x at hl hp
    cases x with
    | exchange ph y =>
      cases ph with
      | connecting => cases hp
      | connected => cases hp
      | waiting => simp [Protocol.exec, hx, hch, hd] at hnone
      | again =>
        obtain ⟨d, sga, rfl, rfl, rfl, rfl⟩ := hl.of_again hd
        simp [Protocol.exec, hx, hch] at hnone
    | closing y a' =>
      obtain ⟨rfl, -⟩ := hl.of_closing hd
      simp [Protocol.exec, hx, hch] at hnone
    | _ => cases hp

theorem Stopped.not_connected (h : Stopped s) (hS : Sessions s) : (s.node n).ctl ≠ .exchange .connected y := by
  intro hx
  cases hch : s.net n with
  | none =>
    have hoff := hS.offline n hch
    rw [hx] at hoff
    cases hoff
  | some ch =>
    have hnone := h.exec n
    simp [Protocol.exec, hx, hch] at hnone

theorem Stopped.serving (h : Stopped s) (hS : Sessions s) (hx : (s.node n).ctl = .serving c) : Lost s n := by
  by_cases hgone : ∀ ch, s.net c = some ch → ch.peer = n → (s.node c).ctl = .crashed
  · exact .deserted c hx hgone
  · push Not at hgone
    obtain ⟨ch, hch, hpeer, hup⟩ := hgone
    have hl := (hS.link c ch hch).2
    rw [hpeer, hx] at hl
    have hasked : ∀ r, ch.up = some r → Lost s n := by
      intro r hr
      have hnone := h.exec n
      simp only [Protocol.exec, hx, hch, hpeer, if_true, hr, Option.bind_some] at hnone
      obtain ⟨ptr, hptr, hmem⟩ := accesses_of_receive_none hnone
      exact .fault ptr (by simp [State.accesses, hx, hch, hpeer, hr, hptr]) hmem
    have hpolls : (s.node c).ctl.polls = true → ch.down = [] := fun hp => h.no_reply hS hp hch
    generalize hy : (s.node c).ctl = own at hl hup hpolls
    cases hl with
    | connected y => exact absurd hy (h.not_connected hS)
    | asked y => exact hasked _ rfl
    | handled y _ he hsv => cases hsv
    | closing y r => exact hasked _ rfl
    | clientDown => exact absurd rfl hup
    | _ => cases hpolls rfl

theorem Waits.busy (hS : Sessions s) (h : Waits s n m) : (s.node m).ctl ≠ .idle := by
  cases h with
  | connecting y hy hm hbusy => exact hbusy
  | reply ch hp hch hpeer ho hd =>
    intro hidle
    rcases (hS.link n ch hch).2.client_of_open ho with hsv | hsv
    · rw [hpeer, hidle] at hsv
      cases hsv
    · rw [hpeer, hidle] at hsv
      cases hsv

/-- Who cannot go on is lost or waits. -/
theorem Stopped.blocked (h : Stopped s) (hS : Sessions s) (hn : (s.node n).ctl ≠ .idle) :
    Lost s n ∨ ∃ m, Waits s n m := by
  have hnone := h.exec n
  have hpolls : (s.node n).ctl.polls = true → ∃ m, Waits s n m := by
    intro hp
    cases hch : s.net n with
    | none =>
      have hoff := hS.offline n hch
      rw [online_of_polls hp] at hoff
      cases hoff
    | some ch =>
      have hd := h.no_reply hS hp hch
      exact ⟨ch.peer, .reply ch hp hch rfl ((hS.link n ch hch).2.open_of_unanswered hd) hd⟩
  have hclient : ∀ c, (s.node n).ctl.client = some c → (s.node n).ctl ≠ .serving c → ∃ ch, s.net c = some ch := by
    intro c hc hserve
    rcases hS.busy n c hc with hsv | ⟨ch, hch, -⟩
    · exact absurd hsv hserve
    · exact ⟨ch, hch⟩
  cases hx : (s.node n).ctl with
  | idle => exact absurd hx hn
  | crashed => exact Or.inl (.crashed hx)
  | setLock k => simp [Protocol.exec, hx] at hnone
  | access a =>
    left
    simp only [Protocol.exec, hx] at hnone
    cases a with
    | read ga =>
      simp only [stepAccess] at hnone
      by_cases hl : ga.id = n
      · rw [if_pos ((isLocal_iff n ga).mpr hl)] at hnone
        refine .fault ga.ptr (by simp [State.accesses, hx, Access.ga, hl]) ?_
        exact Option.eq_none_iff_forall_ne_some.mpr (by simpa using hnone)
      · rw [isLocal_of_ne hl, if_neg Bool.false_ne_true] at hnone
        split at hnone <;> cases hnone
    | write d =>
      simp only [stepAccess] at hnone
      by_cases hl : d.ga.id = n
      · rw [if_pos ((isLocal_iff n d.ga).mpr hl)] at hnone
        refine .fault d.ga.ptr (by simp [State.accesses, hx, Access.ga, hl]) ?_
        exact Option.eq_none_iff_forall_ne_some.mpr (by simpa using hnone)
      · rw [isLocal_of_ne hl, if_neg Bool.false_ne_true] at hnone
        cases hnone
  | memcpy d =>
    simp only [Protocol.exec, hx] at hnone
    refine Or.inl (.fault d.ga.ptr (by simp [State.accesses, hx]) ?_)
    exact Option.eq_none_iff_forall_ne_some.mpr (by simpa [stepMemcpy] using hnone)
  | free ga =>
    left
    simp only [Protocol.exec, hx, stepFree] at hnone
    by_cases hl : ga.id = n
    · rw [if_pos ((isLocal_iff n ga).mpr hl)] at hnone
      refine .fault ga.ptr (by simp [State.accesses, hx, hl]) ?_
      exact Option.eq_none_iff_forall_ne_some.mpr (by simpa using hnone)
    · rw [isLocal_of_ne hl, if_neg Bool.false_ne_true] at hnone
      cases hnone
  | malloc size => simp [Protocol.exec, hx] at hnone
  | broadcast nodes ga b => simp [Protocol.exec, hx] at hnone
  | discard ga client =>
    cases client with
    | none => simp [Protocol.exec, hx, stepDiscard] at hnone
    | some p =>
      obtain ⟨c, srcID⟩ := p
      obtain ⟨ch, hch⟩ := hclient c (by rw [hx]; rfl) (by rw [hx]; simp)
      simp [Protocol.exec, hx, stepDiscard, hch] at hnone
  | exchange ph y =>
    cases ph with
    | connecting => exact Or.inr ⟨y.target, .connecting y hx rfl (h.accept hx)⟩
    | connected => exact absurd hx (h.not_connected hS)
    | waiting => exact Or.inr (hpolls (by rw [hx]; rfl))
    | again => exact Or.inr (hpolls (by rw [hx]; rfl))
  | closing y r => exact Or.inr (hpolls (by rw [hx]; rfl))
  | serving c => exact Or.inl (h.serving hS hx)
  | startInvalidations c d nodes srcID =>
    obtain ⟨ch, hch⟩ := hclient c (by rw [hx]; rfl) (by rw [hx]; simp)
    simp only [Protocol.exec, hx, hch] at hnone
    refine Or.inl (.fault d.ga.ptr (by simp [State.accesses, hx]) ?_)
    exact Option.eq_none_iff_forall_ne_some.mpr (by simpa [stepStartInvalidations] using hnone)

theorem stopped_chain (hS : Sessions s) (hstop : Stopped s) (hn : (s.node n).ctl ≠ .idle) :
    ∃ m, Relation.ReflTransGen (Waits s) n m ∧ (Relation.TransGen (Waits s) m m ∨ Lost s m) := by
  obtain ⟨m, hchain, hend⟩ := exists_sink_or_cycle (Waits s) n
  refine ⟨m, hchain, hend.imp_right fun hsink => ?_⟩
  have hbusy : (s.node m).ctl ≠ .idle := by
    rcases Relation.ReflTransGen.cases_tail hchain with rfl | ⟨k, -, hk⟩
    · exact hn
    · exact hk.busy hS
  rcases hstop.blocked hS hbusy with hlost | ⟨k, hk⟩
  · exact hlost
  · exact absurd hk (hsink k)

/-- A run in which no thread can go on any more has left each node in `accept`, or waiting along a chain of nodes for
a thread that is lost or for a cycle of threads. -/
theorem stopped_run {as : List Action} (hs : Quiet s) (h : run step s as = some t) (hstop : Stopped t) (n : NodeId) :
    (t.node n).ctl = .idle ∨
      ∃ m, Relation.ReflTransGen (Waits t) n m ∧ (Relation.TransGen (Waits t) m m ∨ Lost t m) := by
  have hS : Sessions t := run_invariant (fun s a t hS ht => hS.steps (steps_of_step ht)) hs.sessions h
  by_cases hn : (t.node n).ctl = .idle
  · exact Or.inl hn
  · exact Or.inr (stopped_chain hS hstop hn)

theorem lockAnswer_kept {ns : NodeState} {g : Bool} {k : LockSite}
    (hop : ns.ctl.op = some k.op) (hup : (ns.lockAnswer n g k).1.ctl ≠ .crashed) :
    (ns.lockAnswer n g k).1.calling = ns.calling ∨ ∃ o, .ret n o ∈ (ns.lockAnswer n g k).2 := by
  cases k with
  | acquire a =>
    cases g with
    | true => exact Or.inl (calling_congr rfl hop.symm)
    | false => exact Or.inr ⟨a.denied, List.mem_singleton.mpr rfl⟩
  | release a =>
    cases a with
    | read ga f =>
      simp only [NodeState.lockAnswer] at hup ⊢
      cases hf : f.deref ns.mem with
      | none =>
        rw [hf] at hup
        exact absurd rfl hup
      | some w => exact Or.inr ⟨.read ga (some w), List.mem_singleton.mpr rfl⟩
    | write d result => exact Or.inr ⟨.write d (some result), List.mem_singleton.mpr rfl⟩
  | call l => exact Or.inr ⟨.setLock l g, List.mem_singleton.mpr rfl⟩

theorem Moves.kept {e : Effect} {env : Env} (hsus : Suspends s) (hx : (s.node n).ctl = x) (h : Moves s n env x e)
    (hup : e.self.ctl ≠ .crashed) : e.self.calling = (s.node n).calling ∨ ∃ o, .ret n o ∈ e.events := by
  have hkeep : e.self.suspended = (s.node n).suspended → e.self.ctl.op = x.op →
      e.self.calling = (s.node n).calling := fun hs ho => calling_congr hs (ho.trans (by rw [hx]))
  have hend : x.op = none → (s.node n).endSession.calling = (s.node n).calling :=
    fun ho => endSession_calling ((hsus n).imp id And.right) (by rw [hx, ho])
  cases h with
  | lockGrant k locks granted hn hset =>
    have hlocks : ({ s.node n with locks := locks } : NodeState).calling = (s.node n).calling := calling_congr rfl rfl
    rcases lockAnswer_kept (by rw [hx]; rfl) hup with hcall | ⟨o, ho⟩
    · exact Or.inl (hcall.trans hlocks)
    · exact Or.inr ⟨o, List.mem_cons_of_mem _ (List.mem_cons_of_mem _ ho)⟩
  | connect x y hopen => exact Or.inl (hkeep rfl (by cases hopen <;> rfl))
  | writeLocal d b => exact Or.inl (hkeep rfl (by cases b.record.writeInvalidates <;> rfl))
  | freeLocal ga b => exact Or.inl (hkeep rfl (by cases b.record.freeInvalidates <;> rfl))
  | mallocLocal size ptr content hb => exact Or.inr ⟨_, List.mem_cons_of_mem _ (List.mem_singleton.mpr rfl)⟩
  | swept ga b =>
    cases b with
    | startInvalidations d srcID => exact Or.inl (hend rfl)
    | _ => exact Or.inl (hkeep rfl rfl)
  | discardOwn ga => exact Or.inr ⟨_, List.mem_cons_of_mem _ (List.mem_singleton.mpr rfl)⟩
  | mallocReturn size sga rest ch hch hd => exact Or.inr ⟨_, List.mem_singleton.mpr rfl⟩
  | suspend d sga rest ch hch hd =>
    left
    rw [calling_of_own (hsus.of_own hx rfl), hx]
    rfl
  | sendCrash | fetchCrash | misread => exact absurd rfl hup
  | closed y r rest ch hch hd =>
    cases y with
    | setLock k =>
      cases r with
      | lock granted =>
        rcases lockAnswer_kept (by rw [hx]; rfl) hup with hcall | ⟨o, ho⟩
        · exact Or.inl hcall
        · exact Or.inr ⟨o, List.mem_cons_of_mem _ ho⟩
      | _ => exact absurd rfl hup
    | performRead ga =>
      cases r with
      | data w => exact Or.inl (hkeep rfl rfl)
      | _ => exact absurd rfl hup
    | performWrite d =>
      cases r with
      | address sga => exact Or.inl (hkeep rfl rfl)
      | _ => exact absurd rfl hup
    | free ga =>
      cases r with
      | address sga => exact Or.inr ⟨_, List.mem_singleton.mpr rfl⟩
      | _ => exact absurd rfl hup
    | invalidate m rest ga b => exact Or.inl (hkeep rfl rfl)
    | reconnect d result => exact Or.inl (hkeep rfl rfl)
    | malloc size => exact absurd rfl hup
    | forward c q => exact absurd rfl hup
  | serve c ch r e hch hpeer hr hs =>
    cases hs with
    | reset => exact Or.inl (hend rfl)
    | readNull => exact absurd rfl hup
    | free sga b => exact Or.inl (hkeep rfl (by cases b.record.freeInvalidates <;> rfl))
    | writeShared | forward => exact Or.inl (hkeep rfl rfl)
    | _ => exact Or.inl (calling_congr rfl rfl)
  | _ => exact Or.inl (hkeep rfl rfl)

theorem Open.of_append {log es : List Event} {op : Op Word} (h : Open n op (log ++ es))
    (hc : ∀ op', .call n op' ∉ es) : Open n op log ∧ ∀ o, .ret n o ∉ es := by
  obtain ⟨pre, mid, heq, hcall, hret, hstamp⟩ := h
  obtain ⟨post, hlog, rfl⟩ := split_old heq (hc op)
  refine ⟨⟨pre, post, hlog, ?_, ?_, hstamp⟩, fun o hmem => hret o (List.mem_append_right post hmem)⟩
  · exact fun op' hmem => hcall op' (List.mem_append_left es hmem)
  · exact fun o hmem => hret o (List.mem_append_left es hmem)

/-- A call that has not returned is the one that its node is in, unless the thread has crashed. -/
def Pursued (s : State) : Prop :=
  ∀ n op, Open n op s.log → (s.node n).calling = some op ∨ (s.node n).ctl = .crashed

theorem Pursued.steps {a : Action} (h : Pursued s) (hsus : Suspends s) (hs : Steps s a t) : Pursued t := by
  cases hs with
  | begin p op hidle hsp =>
    intro n op' hopen
    rw [State.begun_log] at hopen
    by_cases hnp : n = p
    · subst hnp
      obtain ⟨pre, mid, heq, hcall, -⟩ := hopen
      have hend : s.log ++ .call n (op.stamp s.clock) :: [] = pre ++ .call n op' :: mid := heq
      have hlast := call_split_unique hend (by simp) hcall
      rw [← hlast.1, ← hlast.2, List.append_cancel_left_eq] at heq
      cases heq
      exact Or.inl (State.begun_calling _ hsp)
    · have hold := (hopen.of_append (by simp [hnp])).1
      rw [State.begun_ne hnp]
      exact h n op' hold
  | accept m c y hc hm hidle =>
    intro n op hopen
    rw [State.accepted_calling hc hidle]
    rcases h n op hopen with hcall | hcrash
    · exact Or.inl hcall
    · right
      have hnc : n ≠ c := by
        rintro rfl
        rw [hc] at hcrash
        cases hcrash
      have hnm : n ≠ m := by
        rintro rfl
        rw [hidle] at hcrash
        cases hcrash
      rw [State.accepted_ne hnc hnm, hcrash]
  | exec p env e hsound hm =>
    intro n op hopen
    obtain ⟨hold, hnoret⟩ := hopen.of_append fun op' => hm.no_call hsus n op'
    by_cases hnp : n = p
    · subst hnp
      rw [Effect.apply_self]
      by_cases hcrash : e.self.ctl = .crashed
      · exact Or.inr hcrash
      · rcases hm.kept hsus rfl hcrash with hcall | ⟨o, ho⟩
        · rcases h n op hold with hcall' | hcrash'
          · exact Or.inl (hcall.trans hcall')
          · exact absurd hcrash' hm.awake.2
        · exact absurd ho (hnoret o)
    · rw [Effect.apply_ne hnp]
      exact h n op hold

theorem Quiet.pursued (h : Quiet s) : Pursued s := by
  rintro n op ⟨pre, mid, heq, -⟩
  rw [h.log] at heq
  cases pre <;> cases heq

theorem Quiet.homeShares (hs : Quiet s)
    (hrec : ∀ n ptr b, n ≠ port → (s.node n).mem ptr = some b → b.record.sharerNodes = []) : HomeShares s := by
  refine ⟨hrec, ?_, ?_, ?_, ?_⟩
  all_goals
    intro n
    rw [hs.idle n]
  · rintro _ _ _ _ ⟨⟩
  · rintro _ _ _ _ ⟨⟩
  · rintro _ ⟨⟩
  · rintro _ ⟨⟩

theorem Quiet.noCycle (hs : Quiet s) : NoCycle s := by
  rintro ⟨n, hn⟩
  obtain ⟨m, hm, -⟩ := Relation.TransGen.head'_iff.mp hn
  exact waits_not_idle hm (hs.idle n)

/-- Reads, writes, `Free` and `setLock` come to an end, as long as no node enters `connectClientSocket` of one that
waits for it, or that waits for one that waits for it, and at the start only blocks of `port` list sharers: when no
thread can go on and none is lost, all nodes are in `accept` and every call has returned, but for writes in
`prepareForInvalidate` to whose nodes no connection has been opened. -/
theorem calls_return {as : List Action} (hs : Quiet s)
    (hrec : ∀ n ptr b, n ≠ port → (s.node n).mem ptr = some b → b.record.sharerNodes = [])
    (ha : ∀ a ∈ as, a.noMalloc) (hC : Meets step EntersClear s as) (h : run step s as = some t)
    (hstop : Stopped t) (hlost : ∀ m, ¬ Lost t m) (n : NodeId) : (t.node n).ctl = .idle ∧
      ∀ op, Open n op t.log → ∃ d result, op = .write d ∧ (t.node n).suspended = [(d, result)] := by
  have hJ : Sessions t ∧ HomeShares t ∧ NoCycle t := by
    have hmeets : Meets step (fun u a => a.noMalloc ∧ EntersClear u a) s as := meets_and (meets_of_forall ha) hC
    refine run_invariant_of_meets (I := fun u => Sessions u ∧ HomeShares u ∧ NoCycle u) ?_
      ⟨hs.sessions, hs.homeShares hrec, hs.noCycle⟩ hmeets h
    intro u a v hu hua huv
    exact ⟨hu.1.steps (steps_of_step huv), hu.2.1.steps hu.1 hua.1 (steps_of_step huv),
      (hu.2.2.steps hu.1 hu.2.1 hua.1 huv).mpr hua.2⟩
  have hP : Suspends t ∧ Pursued t := by
    refine run_invariant (I := fun u => Suspends u ∧ Pursued u) (fun u a v hu huv => ?_) ⟨hs.suspends, hs.pursued⟩ h
    exact ⟨hu.1.steps (steps_of_step huv), hu.2.steps hu.1 (steps_of_step huv)⟩
  have hidle : (t.node n).ctl = .idle := by
    by_contra hn
    obtain ⟨m, -, hcycle | hm⟩ := stopped_chain hJ.1 hstop hn
    · exact hJ.2.2 ⟨m, hcycle⟩
    · exact hlost m hm
  refine ⟨hidle, fun op hopen => ?_⟩
  rcases hP.2 n op hopen with hcall | hcrash
  · rcases hP.1 n with hsus | ⟨-, ⟨d, result⟩, hsus⟩
    · rw [calling_of_own hsus, hidle] at hcall
      cases hcall
    · rw [NodeState.calling, hsus] at hcall
      exact ⟨d, result, (Option.some.inj hcall).symm, hsus⟩
  · rw [hidle] at hcrash
    cases hcrash

theorem exec_idle {env : Env} (hidle : (s.node n).ctl = .idle) : step s (.exec n env) = none := by
  simp [step, Protocol.exec, hidle]

theorem stopped_of_idle (h : ∀ n, (s.node n).ctl = .idle) : Stopped s := by
  intro a ha
  cases a with
  | begin n op => cases ha
  | accept m c => simp [step, acceptFrom, h c]
  | exec n env => exact exec_idle (h n)

theorem not_lost_of_idle (h : (s.node n).ctl = .idle) : ¬ Lost s n := by
  intro hlost
  cases hlost with
  | crashed hx => rw [h] at hx; cases hx
  | fault ptr hptr => simp [State.accesses, h] at hptr
  | deserted c hx => rw [h] at hx; cases hx

end

/-- The two nodes wait for each other, and nobody else is in a call. -/
theorem sharerFrees_stops : ∃ t, run step (.start homeBlock) sharerFrees = some t ∧ (t.node 2000).ctl ≠ .idle ∧
    ((t.node 2000).ctl = .idle ∨ ∃ m, Relation.ReflTransGen (Waits t) 2000 m ∧
      (Relation.TransGen (Waits t) m m ∨ Lost t m)) := by
  obtain ⟨t, ht, hc, hh, hn⟩ := run_sharerFrees
  have hothers : ∀ n, n ≠ 2000 → n ≠ 3000 → (t.node n).ctl = .idle := by
    intro n hn2 hn3
    rw [run_untouched (by simp [sharerFrees, talk, go, Action.nodes, hn2, hn3]) ht]
    rfl
  have hstop : Stopped t := by
    intro a ha
    cases a with
    | begin n op => cases ha
    | accept m c =>
      by_cases hc2 : c = 2000
      · simp [step, acceptFrom, hc2, hc]
      · by_cases hc3 : c = 3000
        · have htarget : ∀ m, 2000 = m → (t.node m).ctl ≠ .idle := by
            rintro m rfl
            simp [hc]
          simpa [step, acceptFrom, hc3, hh, Exchange.target] using htarget m
        · simp [step, acceptFrom, hothers c hc2 hc3]
    | exec n env =>
      by_cases hn2 : n = 2000
      · simp [step, Protocol.exec, hn2, hc, hn]
      · by_cases hn3 : n = 3000
        · simp [step, Protocol.exec, hn3, hh]
        · exact exec_idle (hothers n hn2 hn3)
  exact ⟨t, ht, by simp [hc], stopped_run (State.quiet_start homeBlock) ht hstop 2000⟩

/-- Who enters `connectClientSocket` in this step does so while the other node is in `accept`. -/
def EntersIdle (s : State) (a : Action) : Bool :=
  match a, step s a with
  | .exec n _, some t =>
    match (t.node n).ctl with
    | .exchange .connecting e => decide (e.target ≠ n ∧ (s.node e.target).ctl = .idle)
    | _ => true
  | _, _ => true

theorem entersClear_of_idle {s : State} {a : Action} (h : EntersIdle s a = true) : EntersClear s a := by
  rintro n m ⟨env, e, t, rfl, ht, hx, rfl⟩
  simp only [EntersIdle, ht, hx, decide_eq_true_eq] at h
  exact ⟨h.1, fun hw => waits_not_idle hw.1 h.2, fun k hw => absurd h.2 (waits_not_idle hw)⟩

theorem fetchThenWrite_returns : ∃ t, run step (.start homeBlock) fetchThenWrite = some t ∧
    ((t.node 3000).ctl = .idle ∧
      ∀ op, Open 3000 op t.log → ∃ d result, op = .write d ∧ (t.node 3000).suspended = [(d, result)]) := by
  have hrun : (run step (.start homeBlock) fetchThenWrite).map (fun t => ((t.node 2000).ctl, (t.node 3000).ctl)) =
      some (.idle, .idle) := by decide
  obtain ⟨t, ht, hall⟩ := Option.map_eq_some_iff.mp hrun
  obtain ⟨hreader, hwriter⟩ := Prod.mk.inj hall
  have hidle : ∀ n, (t.node n).ctl = .idle := by
    intro n
    by_cases hn2 : n = 2000
    · rw [hn2, hreader]
    · by_cases hn3 : n = 3000
      · rw [hn3, hwriter]
      · rw [run_untouched (by simp [fetchThenWrite, talk, go, Action.nodes, hn2, hn3]) ht]
        rfl
  have hrec : ∀ n ptr b, n ≠ port → ((State.start homeBlock).node n).mem ptr = some b →
      b.record.sharerNodes = [] := by
    intro n ptr b hn hb
    simp [State.start, homeBlock, show n ≠ 3000 from hn] at hb
  have hclear : Meets step EntersClear (.start homeBlock) fetchThenWrite := by
    have hmeets : Meets step (fun s a => EntersIdle s a = true) (.start homeBlock) fetchThenWrite := by decide
    exact meets_mono (fun _ _ => entersClear_of_idle) hmeets
  exact ⟨t, ht, calls_return (State.quiet_start homeBlock) hrec
    (by simp [fetchThenWrite, talk, go, Action.noMalloc]) hclear ht (stopped_of_idle hidle)
    (fun m => not_lost_of_idle (hidle m)) 3000⟩

end CacheCoherence.Protocol
