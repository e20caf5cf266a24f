import CacheCoherence.Coherence.Stores

/-! # Reads and writes of one home

The runs in which every call is a `Node::read` or `Node::write` of an address of the node 3000, and
what a step of such a run does to the records there.
-/
namespace CacheCoherence.Protocol

def Action.accessesIn (G : GlobalAddress → Prop) : Action → Prop
  | .begin _ (.read ga) => G ga
  | .begin _ (.write d) => G d.ga
  | .begin _ _ => False
  | _ => True

section
variable (G : GlobalAddress → Prop) (n : NodeId)

def Accessed.Within : Accessed → Prop
  | .read ga f => G ga ∧ (n = port ∧ f = .record ga.ptr ∨ n ≠ port ∧ ∃ w, f = .copy w)
  | .write d _ => G d.ga

def LockSite.Within : LockSite → Prop
  | .acquire a => G a.ga
  | .release a => a.Within G n
  | .call _ => False

def Broadcaster.Within (ga : GlobalAddress) : Broadcaster → Prop
  | .write d | .startInvalidations d _ => d.ga = ga
  | _ => False

def Exchange.Within : Exchange → Prop
  | .setLock k => k.Within G n
  | .performRead ga => G ga ∧ n ≠ port
  | .performWrite d => G d.ga ∧ n ≠ port
  | .invalidate _ _ ga b => n = port ∧ G ga ∧ b.Within ga
  | .reconnect d _ => G d.ga ∧ n ≠ port
  | _ => False

def Ctl.Within : Ctl → Prop
  | .setLock k => k.Within G n
  | .access a => G a.ga
  | .memcpy d => n = port ∧ G d.ga
  | .broadcast _ ga b => n = port ∧ G ga ∧ b.Within ga
  | .exchange _ e => e.Within G n
  | .closing e _ => e.Within G n
  | .startInvalidations _ d _ _ => n = port ∧ G d.ga
  | .free _ | .malloc _ | .discard _ _ => False
  | _ => True

end

structure Workload (G : GlobalAddress → Prop) (s : State) : Prop where
  home : ∀ ga, G ga → ga.id = port
  within : ∀ n, (s.node n).ctl.Within G n
  suspended : ∀ n p, p ∈ (s.node n).suspended → G p.1.ga ∧ n ≠ port
  block : ∀ ga, G ga → ∃ b, (s.node port).mem ga.ptr = some b ∧ b.size = ga.size ∧ b.record.Regular

/-- What a move of node `n` does to the records of home: nothing, or it registers a reader, or it
is one of the three places at which a write is applied. -/
inductive HomeStep (G : GlobalAddress → Prop) (s : State) (n : NodeId) : Ctl → Effect → Prop where
  | same (x : Ctl) (e : Effect) : (n = port → e.self.mem = (s.node port).mem) →
      (∀ m ga w, .store m ga w ∉ e.events) → HomeStep G s n x e
  | register (c : NodeId) (ga : GlobalAddress) (b : Block) : n = port → G ga →
      (s.node c).ctl = .exchange .waiting (.performRead ga) →
      s.net c = some ⟨port, some (.read (ga.sendable c)), [], true⟩ → (s.node port).mem ga.ptr = some b →
      HomeStep G s n (.serving c)
        ⟨(s.node n).copyRecord ga.ptr (b.record.register c),
          some (c, some ⟨port, none, [.data b.record.data], true⟩), []⟩
  | take (c : NodeId) (d : Data Word) (b : Block) : n = port → G d.ga →
      (s.node c).ctl = .exchange .waiting (.performWrite d) →
      s.net c = some ⟨port, some (.write (d.sendable c)), [], true⟩ → (s.node port).mem d.ga.ptr = some b →
      b.record.sharerNodes = [] →
      HomeStep G s n (.serving c)
        ⟨(s.node n).copyRecord d.ga.ptr (.owned d.data c),
          some (c, some ⟨port, none, [.address (d.ga.sendable c)], true⟩), [.store c d.ga d.data]⟩
  | takeShared (c : NodeId) (d : Data Word) (nodes : List NodeId) (ch : Channel) (b : Block) : n = port →
      G d.ga → (s.node c).ctl.sent = some d → s.net c = some ch → (∀ sga, .address sga ∉ ch.down) →
      (s.node port).mem d.ga.ptr = some b →
      HomeStep G s n (.startInvalidations c d nodes c)
        ⟨((s.node n).copyRecord d.ga.ptr (.owned d.data c)).goto (.broadcast nodes d.ga (.startInvalidations d c)),
          some (c, some { ch.reply (.address (d.ga.sendable c)) with isOpen := false }), [.store c d.ga d.data]⟩
  | memcpy (d : Data Word) (b : Block) : n = port → G d.ga → (s.node port).mem d.ga.ptr = some b →
      HomeStep G s n (.memcpy d)
        ⟨((s.node n).copyRecord d.ga.ptr (.written d.data n)).goto (.setLock (.release (.write d d.ga))), none,
          [.store n d.ga d.data]⟩

section
variable {G : GlobalAddress → Prop} {s t : State} {n m p c : NodeId} {e : Effect} {env : Env} {x : Ctl}
variable {d : Data Word} {ga ga' : GlobalAddress}

/-- Two addresses in use that name the same block are the same. -/
theorem Workload.ptr_injective (h : Workload G s) (hga : G ga) (hga' : G ga') (hp : ga.ptr = ga'.ptr) : ga = ga' := by
  obtain ⟨b, hb, hsize, -⟩ := h.block ga hga
  obtain ⟨b', hb', hsize', -⟩ := h.block ga' hga'
  rw [hp, hb'] at hb
  cases hb
  have hid : ga.id = ga'.id := (h.home ga hga).trans (h.home ga' hga').symm
  have hs : ga.size = ga'.size := hsize.symm.trans hsize'
  cases ga
  cases ga'
  simp_all

theorem Workload.same_key {size : UInt64} (h : Workload G s) (hsize : ∀ ga, G ga → ga.size = size) (hga : G ga)
    (hga' : G ga') (hk : ga.hash = ga'.hash) : ga = ga' :=
  GlobalAddress.hash_injOn ((hsize ga hga).trans (hsize ga' hga').symm)
    ((h.home ga hga).trans (h.home ga' hga').symm) hk

/-- Home broadcasts before a write of its own as soon as the record has a sharer. -/
theorem Workload.invalidates {b : Block} (h : Workload G s) (hga : G ga) (hb : (s.node port).mem ga.ptr = some b)
    (hmem : n ∈ b.record.sharerNodes) : b.record.writeInvalidates = true := by
  obtain ⟨b', hb', -, hreg⟩ := h.block ga hga
  obtain rfl : b = b' := Option.some.inj (hb.symm.trans hb')
  rw [hreg.writeInvalidates]
  cases hns : b.record.sharerNodes with
  | nil =>
    rw [hns] at hmem
    cases hmem
  | cons r rs => rfl

theorem lockAnswer_within {ns : NodeState} {g : Bool} {k : LockSite} (hk : k.Within G n) :
    (ns.lockAnswer n g k).1.ctl.Within G n := by
  rcases lockAnswer_ctl (n := n) ns g k with hc | hc | ⟨a, hc⟩
  · rw [hc]
    trivial
  · rw [hc]
    trivial
  · obtain ⟨rfl, -⟩ := lockAnswer_access hc
    rw [hc]
    exact hk

theorem Workload.endSession (h : Workload G s) : (s.node n).endSession.ctl.Within G n := by
  unfold NodeState.endSession
  split
  · rename_i d result rest hsus
    exact h.suspended n (d, result) (by rw [hsus]; exact List.mem_cons_self)
  · trivial

theorem Workload.request (hS : Sessions s) (h : Workload G s) {ch : Channel} {r : Request}
    (hx : (s.node n).ctl = .serving c) (hch : s.net c = some ch) (hpeer : ch.peer = n) (hup : ch.up = some r) :
    (∃ k, r = .locks k ∧ n = locknode) ∨ r = .reset ∨ (∃ sga, r = .invalidate sga) ∨
    (n = port ∧ ch = ⟨port, some r, [], true⟩ ∧
      ((∃ ga, G ga ∧ c ≠ port ∧ (s.node c).ctl = .exchange .waiting (.performRead ga) ∧ r = .read (ga.sendable c)) ∨
        ∃ d, G d.ga ∧ c ≠ port ∧ (s.node c).ctl = .exchange .waiting (.performWrite d) ∧
          r = .write (d.sendable c))) := by
  rcases (hS.serving_link hx hch hpeer).of_up hup with ⟨y, hown, rfl, hr, rfl⟩ | ⟨y, a, -, rfl, -⟩
  · have hy := h.within c
    rw [hown] at hy
    cases y with
    | setLock k => exact Or.inl ⟨_, rfl, hpeer.symm⟩
    | performRead ga =>
      exact Or.inr (Or.inr (Or.inr ⟨hpeer.symm, rfl, Or.inl ⟨ga, hy.1, hy.2, hown, rfl⟩⟩))
    | performWrite d =>
      exact Or.inr (Or.inr (Or.inr ⟨hpeer.symm, rfl, Or.inr ⟨d, hy.1, hy.2, hown, rfl⟩⟩))
    | invalidate m rest ga b => exact Or.inr (Or.inr (Or.inl ⟨_, rfl⟩))
    | reconnect d result => exact absurd rfl hr
    | free ga => exact absurd hy id
    | malloc size => exact absurd hy id
    | forward c' q => exact absurd hy id
  · exact Or.inr (Or.inl rfl)

theorem Workload.not_forwards (hS : Sessions s) (h : Workload G s) {ch : Channel} {r : Request}
    (hx : (s.node n).ctl = .serving c) (hch : s.net c = some ch) (hpeer : ch.peer = n) (hup : ch.up = some r) :
    ¬ Forwards n env r := by
  intro hf
  rcases h.request hS hx hch hpeer hup
    with ⟨k, rfl, hn⟩ | rfl | ⟨sga, rfl⟩ | ⟨hn, -, ⟨ga, hga, -, -, rfl⟩ | ⟨d, hd, -, -, rfl⟩⟩
  · cases hf with
    | locks _ hne => exact hne hn
  · cases hf
  · cases hf
  · cases hf with
    | read _ hne => exact hne ((h.home ga hga).trans hn.symm)
  · cases hf with
    | write _ hne => exact hne ((h.home d.ga hd).trans hn.symm)

theorem Moves.within (hS : Sessions s) (hW : Workload G s) (hx : (s.node n).ctl = x) (h : Moves s n env x e) :
    e.self.ctl.Within G n := by
  have hin : x.Within G n := hx ▸ hW.within n
  cases h with
  | lockGrant k locks granted hn hset => exact lockAnswer_within hin
  | connect x y hopen =>
    cases hopen with
    | setLock k hne => exact hin
    | miss ga hne hmiss => exact ⟨hin, fun hn => hne ((hW.home ga hin).trans hn.symm)⟩
    | write d hne => exact ⟨hin, fun hn => hne ((hW.home d.ga hin).trans hn.symm)⟩
    | free ga hne => exact absurd hin id
    | malloc size hb => exact absurd hin id
    | invalidate m rest ga b => exact hin
  | readLocal ga b hl hb =>
    have hn : n = port := hl.symm.trans (hW.home ga hin)
    subst hn
    obtain ⟨b', hb', -, hreg⟩ := hW.block ga hin
    rw [hb] at hb'
    cases hb'
    refine ⟨hin, Or.inl ⟨rfl, ?_⟩⟩
    rw [if_pos hreg.1]
  | readCached ga it hne hit =>
    exact ⟨hin, Or.inr ⟨fun hn => hne ((hW.home ga hin).trans hn.symm), _, rfl⟩⟩
  | writeLocal d b hl hb =>
    have hn : n = port := hl.symm.trans (hW.home d.ga hin)
    cases hwi : b.record.writeInvalidates with
    | true => exact ⟨hn, hin, rfl⟩
    | false => exact ⟨hn, hin⟩
  | memcpy d b hb => exact hin.2
  | freeLocal ga b => exact absurd hin id
  | mallocLocal size => exact absurd hin id
  | swept ga b =>
    obtain ⟨hn, hga, hb⟩ := hin
    cases b with
    | write d =>
      have hd : d.ga = ga := hb
      exact ⟨hn, by rw [hd]; exact hga⟩
    | startInvalidations d srcID => exact hW.endSession
    | _ => exact absurd hb id
  | discardOwn | discardFor => exact absurd hin id
  | suspend d sga rest ch hch hd => trivial
  | closed y r rest ch hch hd =>
    cases y with
    | setLock k =>
      cases r with
      | lock granted => exact lockAnswer_within hin
      | _ => trivial
    | performRead ga =>
      cases r with
      | data w => exact ⟨hin.1, Or.inr ⟨hin.2, w, rfl⟩⟩
      | _ => trivial
    | performWrite d =>
      cases r with
      | address sga => exact hin.1
      | _ => trivial
    | invalidate m rest ga b => exact hin
    | reconnect d result => exact hin.1
    | _ => exact absurd hin id
  | serve c ch r e hch hpeer hup hs =>
    cases hs with
    | reset => exact hW.endSession
    | readNull => trivial
    | writeShared sd b hl hb hinv =>
      rcases hW.request hS hx hch hpeer hup
        with ⟨k, hr, -⟩ | hr | ⟨sga, hr⟩ | ⟨hn, -, ⟨ga, -, -, -, hr⟩ | ⟨d, hd, -, -, hr⟩⟩
      · cases hr
      · cases hr
      · cases hr
      · cases hr
      · cases hr
        exact ⟨hn, hd⟩
    | free sga b =>
      rcases hW.request hS hx hch hpeer hup
        with ⟨k, hr, -⟩ | hr | ⟨sga, hr⟩ | ⟨hn, -, ⟨ga, -, -, -, hr⟩ | ⟨d, hd, -, -, hr⟩⟩
      all_goals cases hr
    | forward r hf => exact absurd hf (hW.not_forwards hS hx hch hpeer hup)
    | malloc | read | readCached | write | locks | invalidate =>
      simp only [NodeState.copyRecord_ctl, hx]
      trivial
  | startInvalidations c d nodes srcID ch b hch hb => exact ⟨hin.1, hin.2, rfl⟩
  | mallocReturn | sendCrash | fetchCrash | misread => trivial
  | _ => exact hin

theorem Moves.home (hS : Sessions s) (hW : Workload G s) (hx : (s.node n).ctl = x) (h : Moves s n env x e) :
    HomeStep G s n x e := by
  have hin : x.Within G n := hx ▸ hW.within n
  cases h.memory hS hx with
  | same _ _ hmem hev =>
    exact .same _ _ (fun hp => by rw [hmem, hp]) fun m ga w hst => Bool.noConfusion (hev _ hst)
  | register c ga b hn hga hown hch hb =>
    have hclient := hW.within c
    rw [hown] at hclient
    exact .register c ga b hn hclient.1 hown hch (hn ▸ hb)
  | take c d b hn hd hown hch hb hinv =>
    have hclient := hW.within c
    rw [hown] at hclient
    have hb' : (s.node port).mem d.ga.ptr = some b := hn ▸ hb
    obtain ⟨b', hb'', -, hreg⟩ := hW.block d.ga hclient.1
    obtain rfl : b = b' := Option.some.inj (hb'.symm.trans hb'')
    have hnil : b.record.sharerNodes = [] := by
      rw [hreg.1, hreg.handleInvalidates] at hinv
      simpa using hinv
    exact .take c d b hn hclient.1 hown hch hb' hnil
  | takeShared c d nodes ch b hown hch hna hb =>
    obtain ⟨hn, hd⟩ := hin
    exact .takeShared c d nodes ch b hn hd hown hch hna (hn ▸ hb)
  | memcpy d b hb =>
    obtain ⟨hn, hd⟩ := hin
    exact .memcpy d b hn hd (hn ▸ hb)
  | alloc _ _ size ptr content es hfor =>
    exfalso
    rcases hfor with rfl | ⟨c, ch, sga, rfl, hch, hpeer, hup⟩
    · exact hin
    · rcases hW.request hS hx hch hpeer hup
        with ⟨k, hr, -⟩ | hr | ⟨sga, hr⟩ | ⟨hn, -, ⟨ga, -, -, -, hr⟩ | ⟨d, hd, -, -, hr⟩⟩
      all_goals cases hr
  | discard _ ga client es => exact absurd hin id

theorem HomeStep.mem (hW : Workload G s) (h : HomeStep G s n x e) (hga : G ga) :
    (((e.apply s n).node port).mem ga.ptr = (s.node port).mem ga.ptr ∧ ∀ m w, .store m ga w ∉ e.events) ∨
    n = port ∧ ∃ b r, (s.node port).mem ga.ptr = some b ∧
      ((e.apply s n).node port).mem ga.ptr = some { b with record := r } ∧ r.Regular ∧
      (((∃ c, r = b.record.register c) ∧ e.events = []) ∨
        ∃ (m : NodeId) (w : Word), e.events = [.store m ga w] ∧ r.data = w) := by
  have hcopy : ∀ (ga' : GlobalAddress) (b : Block) (r : SaveData Word), n = port → G ga' →
      (s.node port).mem ga'.ptr = some b → e.self.mem = ((s.node n).copyRecord ga'.ptr r).mem →
      (((e.apply s n).node port).mem ga.ptr = (s.node port).mem ga.ptr ∧ ga' ≠ ga) ∨
        ga' = ga ∧ ((e.apply s n).node port).mem ga.ptr = some { b with record := r } := by
    intro ga' b r hn hga' hb hmem
    subst hn
    rw [Effect.apply_self, hmem]
    by_cases hp : ga.ptr = ga'.ptr
    · obtain rfl := hW.ptr_injective hga hga' hp
      rw [NodeState.copyRecord_mem_self, hb]
      exact Or.inr ⟨rfl, rfl⟩
    · refine Or.inl ⟨NodeState.copyRecord_mem_ne hp, ?_⟩
      rintro rfl
      exact hp rfl
  have hother : ∀ (m : NodeId) (ga' : GlobalAddress) (w : Word), ga' ≠ ga → e.events = [.store m ga' w] →
      ∀ m' w', .store m' ga w' ∉ e.events := by
    intro m ga' w hne hev m' w' hmem
    rw [hev] at hmem
    cases List.mem_singleton.mp hmem
    exact hne rfl
  cases h with
  | same _ _ hmem hev =>
    refine Or.inl ⟨?_, fun m => hev m ga⟩
    by_cases hn : port = n
    · rw [← hn, Effect.apply_self, hmem hn.symm]
    · rw [Effect.apply_ne hn]
  | register c ga' b hn hga' hown hch hb =>
    rcases hcopy ga' b (b.record.register c) hn hga' hb rfl with ⟨hsame, hne⟩ | ⟨rfl, hnew⟩
    · exact Or.inl ⟨hsame, by simp⟩
    · exact Or.inr ⟨hn, b, _, hb, hnew, SaveData.regular_register c, Or.inl ⟨⟨c, rfl⟩, rfl⟩⟩
  | take c d b hn hd hown hch hb hnil =>
    rcases hcopy d.ga b (.owned d.data c) hn hd hb rfl with ⟨hsame, hne⟩ | ⟨rfl, hnew⟩
    · exact Or.inl ⟨hsame, hother c d.ga d.data hne rfl⟩
    · exact Or.inr ⟨hn, b, _, hb, hnew, SaveData.regular_owned _ _, Or.inr ⟨c, _, rfl, rfl⟩⟩
  | takeShared c d nodes ch b hn hd hown hch hna hb =>
    rcases hcopy d.ga b (.owned d.data c) hn hd hb rfl with ⟨hsame, hne⟩ | ⟨rfl, hnew⟩
    · exact Or.inl ⟨hsame, hother c d.ga d.data hne rfl⟩
    · exact Or.inr ⟨hn, b, _, hb, hnew, SaveData.regular_owned _ _, Or.inr ⟨c, _, rfl, rfl⟩⟩
  | memcpy d b hn hd hb =>
    rcases hcopy d.ga b (.written d.data n) hn hd hb rfl with ⟨hsame, hne⟩ | ⟨rfl, hnew⟩
    · exact Or.inl ⟨hsame, hother n d.ga d.data hne rfl⟩
    · exact Or.inr ⟨hn, b, _, hb, hnew, SaveData.regular_written _ _, Or.inr ⟨n, _, rfl, rfl⟩⟩

theorem HomeStep.quiet (h : HomeStep G s n x e) (hn : n ≠ port) (m : NodeId) (ga : GlobalAddress) (w : Word) :
    .store m ga w ∉ e.events := by
  cases h with
  | same _ _ _ hno => exact hno m ga w
  | register _ _ _ hp => exact absurd hp hn
  | take _ _ _ hp => exact absurd hp hn
  | takeShared _ _ _ _ _ hp => exact absurd hp hn
  | memcpy _ _ hp => exact absurd hp hn

theorem Workload.moves (hS : Sessions s) (h : Workload G s) (hm : Moves s n env (s.node n).ctl e) :
    Workload G (e.apply s n) := by
  refine ⟨h.home, fun p => ?_, fun p q hq => ?_, fun ga hga => ?_⟩
  · by_cases hpn : p = n
    · subst hpn
      rw [Effect.apply_self]
      exact hm.within hS h rfl
    · rw [Effect.apply_ne hpn]
      exact h.within p
  · by_cases hpn : p = n
    · subst hpn
      rw [Effect.apply_self] at hq
      have hsession : ∀ r, r ∈ (s.node p).endSession.suspended → r ∈ (s.node p).suspended := by
        intro r hr
        unfold NodeState.endSession at hr
        split at hr
        · rename_i hsus
          rw [hsus]
          exact List.mem_cons_of_mem _ hr
        · exact hr
      rcases hm.suspends rfl with ⟨hsus, -⟩ | ⟨-, hsus, -⟩ | ⟨d, sga, hx, hsus, -⟩
      · exact h.suspended p q (hsus ▸ hq)
      · exact h.suspended p q (hsession q (hsus ▸ hq))
      · rw [hsus] at hq
        rcases List.mem_cons.mp hq with rfl | hq
        · have hin := h.within p
          rw [hx] at hin
          exact hin
        · exact h.suspended p q hq
    · rw [Effect.apply_ne hpn] at hq
      exact h.suspended p q hq
  · obtain ⟨b, hb, hsize, hreg⟩ := h.block ga hga
    rcases (hm.home hS h rfl).mem h hga with ⟨hsame, -⟩ | ⟨-, b', r, hb', hnew, hr, -⟩
    · exact ⟨b, hsame.trans hb, hsize, hreg⟩
    · obtain rfl : b = b' := Option.some.inj (hb.symm.trans hb')
      exact ⟨_, hnew, hsize, hr⟩

theorem Workload.steps {a : Action} (hS : Sessions s) (h : Workload G s) (ha : a.accessesIn G)
    (hs : Steps s a t) : Workload G t := by
  cases hs with
  | begin n op hidle hsus =>
    refine ⟨h.home, fun p => ?_, fun p q hq => ?_, fun ga hga => ?_⟩
    · by_cases hpn : p = n
      · subst hpn
        rw [State.begun_self]
        cases op with
        | read ga => exact ha
        | write d => exact ha
        | _ => exact absurd ha id
      · rw [State.begun_ne hpn]
        exact h.within p
    · rw [State.begun_node] at hq
      exact h.suspended p q hq
    · rw [State.begun_node]
      exact h.block ga hga
  | accept m c y hc hm hidle =>
    refine ⟨h.home, fun p => ?_, fun p q hq => ?_, fun ga hga => ?_⟩
    · by_cases hpc : p = c
      · subst hpc
        rw [State.accepted_client]
        have hin := h.within p
        rw [hc] at hin
        exact hin
      · by_cases hpm : p = m
        · subst hpm
          rw [State.accepted_server hpc]
          trivial
        · rw [State.accepted_ne hpc hpm]
          exact h.within p
    · rw [State.accepted_node] at hq
      exact h.suspended p q hq
    · rw [State.accepted_node]
      exact h.block ga hga
  | exec n env e _ hm => exact h.moves hS hm

end
end CacheCoherence.Protocol
