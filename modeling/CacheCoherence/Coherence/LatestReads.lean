import CacheCoherence.Coherence.MonotonicReads

/-! # Reads of the latest value

Home invalidates the sharers in its record, and a node that caches its own write is not among them. While
every copy is listed when home takes up a write, a read that overlaps no write returns home's value.
-/
namespace CacheCoherence.Protocol
open TransitionRuns VersionOrder

/-- A read of `ga` by `n`, called after `pre` and returning after `mid`: some write of `ga` has returned
before it, and every write called before its return has returned before it. -/
structure LoneRead (n : NodeId) (ga : GlobalAddress) (pre mid : List Event) : Prop where
  own : (∀ op, .call n op ∉ mid) ∧ ∀ o, .ret n o ∉ mid
  after : ∃ m d r, .ret m (.write d (some r)) ∈ pre ∧ d.ga = ga
  alone : ∀ m d, d.ga = ga → .call m (.write d) ∈ pre ++ mid → ∃ r, .ret m (.write d r) ∈ pre

/-- The reads that overlap no write return the version that home applied last. -/
def ReadsLatest (s₀ : State) (log : List Event) : Prop :=
  ∀ n ga w pre mid post, log = (pre ++ .call n (.read ga) :: mid) ++ .ret n (.read ga (some w)) :: post →
    LoneRead n ga pre mid → (versions s₀ ga (pre ++ .call n (.read ga) :: mid)).getLast? = some w

/-- The writer and the address of the write that home looks up the record for in this step. -/
def State.takesUp (s : State) : Action → Option (NodeId × GlobalAddress)
  | .exec n _ =>
    if n = port then
      match (s.node port).ctl with
      | .access (.write d) => some (port, d.ga)
      | .serving c =>
        match (s.net c).bind Channel.up with
        | some (.write sd) => some (c, .ofSendable sd.sga)
        | _ => none
      | _ => none
    else none
  | _ => none

/-- The record of `ga` has every node among its sharers that caches `ga`, but for the writer. -/
def Listed (s : State) (writer : NodeId) (ga : GlobalAddress) : Prop :=
  ∀ n k c, n ≠ writer → (s.node n).cache.Stores k ga c →
    ∃ b, (s.node port).mem ga.ptr = some b ∧ n ∈ b.record.sharerNodes

def WritesListed (s : State) (a : Action) : Prop :=
  ∀ writer ga, s.takesUp a = some (writer, ga) → Listed s writer ga

def Overlapped (log : List Event) (n : NodeId) (ga : GlobalAddress) : Prop :=
  ∃ pre mid, log = pre ++ .call n (.read ga) :: mid ∧ (∀ op, .call n op ∉ mid) ∧
    ∃ m d, d.ga = ga ∧ .call m (.write d) ∈ log ∧ ∀ r, .ret m (.write d r) ∉ pre

structure Fresh (s₀ s : State) : Prop where
  items : ∀ n k ga c, (s.node n).cache.Stores k ga c → s.homeWord ga = some c.word ∨ Ahead s n ga ∨
    ∃ d, Unapplied s n d ∧ d.ga = ga ∧ d.data = c.word
  decided : ∀ d, (s.node port).ctl.decided = some d →
    ∀ n k c, (s.node n).cache.Stores k d.ga c → Ahead s n d.ga
  taken : ∀ p d nodes srcID, (s.node port).ctl = .startInvalidations p d nodes srcID →
    ∀ n k c, (s.node n).cache.Stores k d.ga c → n = p ∨ n ∈ nodes
  found : ∀ n ga w, (s.node n).ctl.found = some (ga, .copy w) → s.homeWord ga = some w ∨ Overlapped s.log n ga
  latest : ReadsLatest s₀ s.log

section
variable {G : GlobalAddress → Prop} {size : UInt64} {s t s₀ : State} {n m p : NodeId} {e : Effect} {env : Env}
variable {ga ga' : GlobalAddress} {k : UInt64} {v w : Word} {c : Copy} {d : Data Word} {a : Action}
variable {pre pre' mid mid' log es : List Event} {op op' : Op Word}

theorem Overlapped.append (h : Overlapped log n ga) (hc : ∀ op, .call n op ∉ es) : Overlapped (log ++ es) n ga := by
  obtain ⟨pre, mid, rfl, hcall, m, d, hga, hmem, hret⟩ := h
  refine ⟨pre, mid ++ es, by simp, fun op hop => ?_, m, d, hga, List.mem_append_left _ hmem, hret⟩
  rcases List.mem_append.mp hop with hop | hop
  · exact hcall op hop
  · exact hc op hop

theorem LoneRead.not_overlapped (h : LoneRead n ga pre mid) (ho : Overlapped (pre ++ .call n (.read ga) :: mid) n ga) :
    False := by
  obtain ⟨pre', mid', heq, hcall, m, d, hga, hmem, hret⟩ := ho
  obtain ⟨rfl, rfl⟩ := call_split_unique heq h.own.1 hcall
  have hwrite : .call m (.write d) ∈ pre ++ mid := by
    rcases List.mem_append.mp hmem with hmem | hmem
    · exact List.mem_append_left _ hmem
    · rcases List.mem_cons.mp hmem with heq | hmem
      · cases heq
      · exact List.mem_append_right _ hmem
  obtain ⟨r, hr⟩ := h.alone m d hga hwrite
  exact hret r hr

theorem Calls.overlapped (hC : Calls s) (hread : (s.node n).calling = some (.read ga))
    (hwrite : (s.node m).calling = some (.write d)) (hga : d.ga = ga) : Overlapped s.log n ga := by
  obtain ⟨pre, mid, hlog, hcall, -⟩ := hC.opened n _ hread
  refine ⟨pre, mid, hlog, hcall, m, d, hga, List.mem_of_getElem? (hC.callAt hwrite).2, fun r hr => ?_⟩
  exact hC.not_returned hwrite r (by rw [hlog]; exact List.mem_append_left _ hr)

theorem History.ahead_writer (hH : History G s₀ s) (hga : G ga) (h : Ahead s n ga) :
    ∃ m d, (s.node m).calling = some (.write d) ∧ d.ga = ga := by
  have hid := hH.workload.home ga hga
  have hin := hH.workload.within port
  have hown : ∀ b : Broadcaster, b.Within ga → b.early = (s.node port).ctl.early → b.sweeps = (s.node port).ctl.sweeps →
      ∃ m d, (s.node m).calling = some (.write d) ∧ d.ga = ga := by
    intro b hb hearly hsw
    cases b with
    | write d => exact ⟨port, d, Pends.calling hH.suspends (Or.inl hearly.symm), hb⟩
    | startInvalidations d srcID => exact ⟨srcID, d, (hH.detained d srcID hsw.symm).calling hH.suspends, hb⟩
    | _ => exact absurd hb id
  rcases h.aside_free with ⟨nodes, b, hctl⟩ | ⟨ph, m, rest, b, hctl⟩ | ⟨m, rest, b, r, hctl⟩
  all_goals rw [hid] at hctl
  · rw [hctl] at hin
    exact hown b hin.2.2 (by rw [hctl]; rfl) (by rw [hctl]; rfl)
  · rw [hctl] at hin
    exact hown b hin.2.2 (by rw [hctl]; cases ph <;> rfl) (by rw [hctl]; cases ph <;> rfl)
  · rw [hctl] at hin
    exact hown b hin.2.2 (by rw [hctl]; rfl) (by rw [hctl]; rfl)

theorem takesUp_own (hctl : (s.node port).ctl = .access (.write d)) :
    s.takesUp (.exec port env) = some (port, d.ga) := by
  simp [State.takesUp, hctl]

theorem takesUp_request {ch : Channel} {sd : SendingData Word} (hctl : (s.node port).ctl = .serving p)
    (hch : s.net p = some ch) (hup : ch.up = some (.write sd)) :
    s.takesUp (.exec port env) = some (p, .ofSendable sd.sga) := by
  simp [State.takesUp, hctl, hch, hup]

/-- Home's value changes under a copy only if the copy is the writer's own, or a broadcast is to remove it. -/
theorem Fresh.current_steps (hH : History G s₀ s) (hV : Views G s₀ s) (h : Fresh s₀ s) (hl : WritesListed s a)
    (hs : Steps s a t) (hst : (s.node n).cache.Stores k ga c) (hw : s.homeWord ga = some c.word) :
    t.homeWord ga = some c.word ∨ Ahead t n ga := by
  obtain ⟨hga, hk, hn⟩ := hV.keyed n k ga c hst
  have hid := hH.workload.home ga hga
  cases hs with
  | begin q op hidle hsus =>
    left
    rw [State.homeWord, State.begun_node]
    exact hw
  | accept q p y hc hm hidle =>
    left
    rw [State.homeWord, State.accepted_node]
    exact hw
  | exec q env e _ hm =>
    have hhome := hm.home hH.sessions hH.workload rfl
    rcases hhome.homeWord hH.workload hga with ⟨hsame, -⟩ | ⟨u, hu, hnew⟩
    · exact Or.inl (hsame.trans hw)
    -- the writer has nothing but its own copy under the key
    have hown : ∀ d, (s.node n).ctl.sent = some d → d.ga = ga → stored ga e.events = [d.data] →
        (e.apply s q).homeWord ga = some c.word := by
      rintro d hsent rfl hev
      rw [hk] at hst
      obtain ⟨-, rfl⟩ := hH.sentOwn n d hsent _ c hst
      rw [hu] at hev
      cases hev
      exact hnew
    revert hhome
    generalize hx : (s.node q).ctl = y
    intro hhome
    cases hhome with
    | same _ _ _ hno =>
      rw [stored_nil hno] at hu
      cases hu
    | register => cases hu
    | take p d b hq hd hctl hch hb hnil =>
      have hdga : d.ga = ga := by
        by_contra hne
        rw [stored_ne hne] at hu
        cases hu
      subst hdga
      subst hq
      by_cases hnp : n = p
      · subst hnp
        exact Or.inl (hown d (by rw [hctl]; rfl) rfl stored_self)
      · have htakes : s.takesUp (.exec port env) = some (p, d.ga) := takesUp_request hx hch rfl
        obtain ⟨b', hb', hmem⟩ := hl p d.ga htakes n k c hnp hst
        obtain rfl : b = b' := Option.some.inj (hb.symm.trans hb')
        rw [hnil] at hmem
        cases hmem
    | takeShared p d nodes ch b hq hd hsent hch hna hb =>
      have hdga : d.ga = ga := by
        by_contra hne
        rw [stored_ne hne] at hu
        cases hu
      subst hdga
      subst hq
      rcases h.taken p d nodes p hx n k c hst with rfl | hmem
      · exact Or.inl (hown d hsent rfl stored_self)
      · right
        rw [ahead_port hid, Effect.apply_self]
        exact ⟨rfl, hmem⟩
    | memcpy d b hq hd hb =>
      have hdga : d.ga = ga := by
        by_contra hne
        rw [stored_ne hne] at hu
        cases hu
      subst hdga
      subst hq
      have hahead := h.decided d (by rw [hx]; rfl) n k c hst
      rw [ahead_port hid, hx] at hahead
      exact absurd hahead id

theorem Fresh.items_steps (hH : History G s₀ s) (hT : History G s₀ t) (hV : Views G s₀ s) (h : Fresh s₀ s)
    (hl : WritesListed s a) (hs : Steps s a t) (hst : (t.node n).cache.Stores k ga c) :
    t.homeWord ga = some c.word ∨ Ahead t n ga ∨ ∃ d, Unapplied t n d ∧ d.ga = ga ∧ d.data = c.word := by
  obtain ⟨hga, hk, -⟩ := hV.keyed_steps hH.workload hs hst
  cases hs.comes hst with
  | kept hold =>
    rcases h.items n k ga c hold with hw | hahead | ⟨d, hun, rfl, hw⟩
    · exact (h.current_steps hH hV hl hs hold hw).imp id Or.inl
    · rcases hahead.steps hH.sessions hs with hahead | hno
      · exact Or.inr (Or.inl hahead)
      · rw [hk] at hst
        exact absurd hst (hno ga c)
    · rcases hun.steps hH.sessions hs with hun | hstored
      · exact Or.inr (Or.inr ⟨d, hun, rfl, hw⟩)
      · exact Or.inl (by rw [hT.homeWord_of_stored hga hstored, hw])
  | fetched w ch rest hctl hch hd _ _ hw =>
    subst hw
    have harr : Arriving s n ga w := ⟨hctl, ch, rest, hch, hd⟩
    left
    rw [← hT.newest ga hga, harr.versions_same hH hs ga, hH.newest ga hga]
    exact (hH.arriving n ga w harr).homeWord
  | written d ch hctl hch hctl' hch' hga' _ hw =>
    subst hw
    exact Or.inr (Or.inr ⟨d, unapplied_of_sent hH.sessions hctl hch hctl' hch', hga', rfl⟩)

theorem Fresh.decided_steps (hH : History G s₀ s) (hV : Views G s₀ s) (h : Fresh s₀ s) (hl : WritesListed s a)
    (hs : Steps s a t) (hd : (t.node port).ctl.decided = some d) (hst : (t.node n).cache.Stores k d.ga c) :
    Ahead t n d.ga := by
  obtain ⟨hga, hk, hn⟩ := hV.keyed_steps hH.workload hs hst
  have hid := hH.workload.home d.ga hga
  rcases hs.decided hH.sessions hH.workload hd with hold | ⟨env, b, rfl, hx, hb, hctl, hothers⟩
  · have hst' := (hs.comes hst).kept_of_busy hH.sessions (by rintro hsv; rw [hsv] at hold; cases hold)
    rcases (h.decided d hold n k c hst').steps hH.sessions hs with hahead | hno
    · exact hahead
    · rw [hk] at hst
      exact absurd hst (hno d.ga c)
  · rw [hothers n hn] at hst
    obtain ⟨b', hb', hmem⟩ := hl port d.ga (takesUp_own hx) n k c hn hst
    obtain rfl : b = b' := Option.some.inj (hb.symm.trans hb')
    have hwi := hH.workload.invalidates hga hb hmem
    rw [ahead_port hid, hctl, hwi]
    exact ⟨rfl, hmem⟩

theorem Fresh.taken_steps (hH : History G s₀ s) (hV : Views G s₀ s) (h : Fresh s₀ s) (hl : WritesListed s a)
    (hs : Steps s a t) {nodes : List NodeId} {srcID : UInt16}
    (hctl : (t.node port).ctl = .startInvalidations p d nodes srcID) (hst : (t.node n).cache.Stores k d.ga c) :
    n = p ∨ n ∈ nodes := by
  obtain ⟨-, -, hn⟩ := hV.keyed_steps hH.workload hs hst
  rcases hs.taken hH.sessions hH.workload hctl
    with hsame | ⟨env, ch, sd, b, rfl, hx, hch, hup, rfl, hb, rfl, -, hothers⟩
  · rw [hsame] at hctl
    have hst' := (hs.comes hst).kept_of_busy hH.sessions (by rw [hctl]; simp)
    exact h.taken p d nodes srcID hctl n k c hst'
  · rw [hothers n hn] at hst
    by_cases hnp : n = p
    · exact Or.inl hnp
    · obtain ⟨b', hb', hmem⟩ := hl p _ (takesUp_request hx hch hup) n k c hnp hst
      obtain rfl : b = b' := Option.some.inj (hb.symm.trans hb')
      exact Or.inr hmem

/-- Home's value stays during a read, or the read overlaps the write that changes it. -/
theorem History.homeWord_steps (hH : History G s₀ s) (hs : Steps s a t) (hga : G ga)
    (hread : (s.node n).calling = some (.read ga)) : t.homeWord ga = s.homeWord ga ∨ Overlapped s.log n ga := by
  cases hs with
  | begin q op hidle hsus =>
    left
    rw [State.homeWord, State.begun_node]
    rfl
  | accept q p y hc hm hidle =>
    left
    rw [State.homeWord, State.accepted_node]
    rfl
  | exec q env e _ hm =>
    have hhome := hm.home hH.sessions hH.workload rfl
    rcases hhome.homeWord hH.workload hga with ⟨hsame, -⟩ | ⟨u, hu, -⟩
    · exact Or.inl hsame
    · right
      rcases hm.stores hH.sessions rfl with hno | ⟨p, d, hpend, -, hev, -⟩
      · rw [stored_nil hno] at hu
        cases hu
      · refine hH.calls.overlapped hread (hpend.calling hH.suspends) ?_
        by_contra hne
        rw [hev, stored_ne hne] at hu
        cases hu

theorem Fresh.found_steps (hH : History G s₀ s) (hV : Views G s₀ s) (hsize : ∀ ga, G ga → ga.size = size)
    (h : Fresh s₀ s) (hs : Steps s a t) (hf : (t.node n).ctl.found = some (ga, .copy w)) :
    t.homeWord ga = some w ∨ Overlapped t.log n ga := by
  have hin := hH.workload.within n
  have hold : (s.node n).ctl.op = some (.read ga) ∧ G ga ∧ (s.homeWord ga = some w ∨ Overlapped s.log n ga) := by
    rcases hs.found hH.workload hf with hf | hfind
    · exact ⟨op_of_found hf, (copy_within hH.workload hf).1, h.found n ga w hf⟩
    · cases hfind with
      | hit ga' c hctl hst =>
        obtain ⟨rfl, -⟩ := hV.hit hH.workload hsize hctl hst
        have hop : (s.node n).ctl.op = some (.read ga') := by
          rw [hctl]
          rfl
        have hcalling : (s.node n).calling = some (.read ga') := by
          rw [calling_of_own (hH.suspends.of_own rfl (aside_of_op hop)), hop]
        rw [hctl] at hin
        refine ⟨hop, hin, ?_⟩
        rcases h.items n _ ga' c hst with hw | hahead | ⟨d, ⟨hsent, -⟩, -⟩
        · exact Or.inl hw
        · obtain ⟨m, d, hm, hga⟩ := hH.ahead_writer hin hahead
          exact Or.inr (hH.calls.overlapped hcalling hm hga)
        · rw [hctl] at hsent
          cases hsent
      | fetch _ harr =>
        refine ⟨by rw [harr.1]; rfl, (harr.address hH.workload).1, Or.inl (hH.arriving n ga w harr).homeWord⟩
  obtain ⟨hop, hga, hcase⟩ := hold
  have hcalling : (s.node n).calling = some (.read ga) := by
    rw [calling_of_own (hH.suspends.of_own rfl (aside_of_op hop)), hop]
  obtain ⟨es, hlog, hno⟩ := hs.no_call hH.suspends (by intro hidle; rw [hidle] at hop; cases hop)
  rw [hlog]
  rcases hcase with hw | hover
  · rcases hH.homeWord_steps hs hga hcalling with hsame | hover
    · exact Or.inl (hsame.trans hw)
    · exact Or.inr (hover.append hno)
  · exact Or.inr (hover.append hno)

theorem Fresh.latest_moves (hH : History G s₀ s) (h : Fresh s₀ s) (hm : Moves s p env (s.node p).ctl e) :
    ReadsLatest s₀ (s.log ++ e.events) := by
  intro n ga w pre mid post hlog hlone
  rcases split_append hlog with ⟨post', hold, -⟩ | ⟨fs, hpast, hes⟩
  · exact h.latest n ga w pre mid post' hold hlone
  · have hret : .ret n (.read ga (some w)) ∈ e.events := by rw [hes]; exact List.mem_append_right fs List.mem_cons_self
    have hfs : ∀ ev ∈ fs, ev ∈ e.events := fun ev hev => by rw [hes]; exact List.mem_append_left _ hev
    obtain ⟨rfl, hga, hcase⟩ := hm.returns_read hH.workload hret
    have hnil : stored ga fs = [] := by
      rcases hm.stores hH.sessions rfl with hno | ⟨c, d, -, -, hev, -⟩
      · exact stored_nil fun m ga w hmem => hno m ga w (hfs _ hmem)
      · rw [hev] at hret
        cases List.mem_singleton.mp hret
    have hnc : ∀ op, .call n op ∉ fs := by
      intro op hmem
      rcases hm.proceeds hH.suspends rfl with ⟨-, hin⟩ | ⟨es, o, op', hes', hin, -⟩
      · exact Bool.noConfusion (hin _ (hfs _ hmem))
      · have hev := hfs _ hmem
        rw [hes'] at hev
        rcases List.mem_append.mp hev with hev | hev
        · exact Bool.noConfusion (hin _ hev)
        · cases List.mem_singleton.mp hev
    have hhome : s.homeWord ga = some w := by
      rcases hcase with ⟨-, hw⟩ | ⟨-, hf⟩
      · exact hw
      · rcases h.found n ga w hf with hw | hover
        · exact hw
        · have hover' := hover.append hnc
          rw [← hpast] at hover'
          exact absurd hover' hlone.not_overlapped
    rw [hpast, versions_append, hnil, List.append_nil, hH.newest ga hga, hhome]

theorem Fresh.steps (hH : History G s₀ s) (hT : History G s₀ t) (hV : Views G s₀ s)
    (hsize : ∀ ga, G ga → ga.size = size) (h : Fresh s₀ s) (hl : WritesListed s a) (hs : Steps s a t) : Fresh s₀ t := by
  refine ⟨fun _ _ _ _ hst => h.items_steps hH hT hV hl hs hst, fun _ hd _ _ _ hst => h.decided_steps hH hV hl hs hd hst,
    fun _ _ _ _ hctl _ _ _ hst => h.taken_steps hH hV hl hs hctl hst,
    fun _ _ _ hf => h.found_steps hH hV hsize hs hf, ?_⟩
  cases hs with
  | begin q op hidle hsus =>
    intro n ga w pre mid post hlog hlone
    rw [State.begun_log] at hlog
    rcases split_append hlog with ⟨post', hold, -⟩ | ⟨fs, -, hes⟩
    · exact h.latest n ga w pre mid post' hold hlone
    · have hret : .ret n (.read ga (some w)) ∈ [Event.call q (op.stamp s.clock)] := by
        rw [hes]
        exact List.mem_append_right fs List.mem_cons_self
      cases List.mem_singleton.mp hret
  | accept q p y hc hm hidle => exact h.latest
  | exec q env e _ hm => exact h.latest_moves hH hm

theorem Initialised.fresh (h : Initialised G s) : Fresh s s := by
  refine ⟨fun n k ga c hst => Or.inl (h.copies n k ga c hst).2.2.2.2, fun d hd => ?_, fun p d nodes srcID hc => ?_,
    fun n ga w hf => ?_, fun n ga w pre mid post hlog => ?_⟩
  · rw [h.quiet.idle port] at hd
    cases hd
  · rw [h.quiet.idle port] at hc
    cases hc
  · rw [h.quiet.idle n] at hf
    cases hf
  · rw [h.quiet.log] at hlog
    simp at hlog

end

/-- In every run of reads and writes of addresses of one size in which home, whenever it takes up a write,
has every node with a copy but the writer among the sharers, the reads that overlap no write return the
version that home applied last. -/
theorem reads_latest {G : GlobalAddress → Prop} {size : UInt64} {s t : State} {as : List Action}
    (hs : Initialised G s) (hsize : ∀ ga, G ga → ga.size = size) (has : ∀ a ∈ as, a.accessesIn G)
    (hlisted : Meets step WritesListed s as) (ht : run step s as = some t) : ReadsLatest s t.log := by
  have hall : History G s t ∧ Views G s t ∧ Fresh s t := by
    refine run_invariant_of_meets (I := fun u => History G s u ∧ Views G s u ∧ Fresh s u)
      (C := fun u a => a.accessesIn G ∧ WritesListed u a) ?_ ⟨hs.history, hs.views, hs.fresh⟩
      (meets_and (C := fun _ a => a.accessesIn G) (meets_of_forall has) hlisted) ht
    rintro u a v ⟨hH, hV, hF⟩ ⟨ha, hl⟩ huv
    have hstep := steps_of_step huv
    have hT := hH.steps ha hstep
    exact ⟨hT, hV.steps hsize hH hT hstep, hF.steps hH hT hV hsize hl hstep⟩
  exact hall.2.2.latest

theorem listed_readAgain : Meets step WritesListed (.start homeBlock) readAgain := by
  have hnone : ∀ u a, State.takesUp u a = none → WritesListed u a := by
    intro u a hu writer ga htakes
    rw [hu] at htakes
    cases htakes
  have hsplit : readAgain = readAgain.take 18 ++ (go 3000 :: readAgain.drop 19) := rfl
  rw [hsplit]
  refine meets_append (meets_mono hnone (by decide +kernel)) fun u hu => ?_
  have hcheck : (run step (.start homeBlock) (readAgain.take 18)).all (fun u =>
      decide (u.takesUp (go 3000) = some (3000, homeAddress) ∧
        (((u.node 3000).mem 4096).map fun b => b.record.sharerNodes) = some [2000]) &&
      (step u (go 3000)).all fun v => decide (Meets step (fun v a => v.takesUp a = none) v (readAgain.drop 19))) =
      true := by decide +kernel
  rw [hu] at hcheck
  simp only [Option.all_some, Bool.and_eq_true, decide_eq_true_eq] at hcheck
  obtain ⟨⟨htakes, hsharers⟩, hrest⟩ := hcheck
  intro v hv
  rw [hv] at hrest
  simp only [Option.all_some, decide_eq_true_eq] at hrest
  refine ⟨fun writer ga htakes' n k c hn hst => ?_, meets_mono hnone hrest⟩
  rw [htakes] at htakes'
  cases htakes'
  obtain ⟨b, hb, hnodes⟩ := Option.map_eq_some_iff.mp hsharers
  refine ⟨b, hb, ?_⟩
  rw [hnodes, List.mem_singleton]
  by_contra hne
  have huntouched : ∀ a ∈ readAgain.take 18, n ∉ a.nodes := by
    simp [readAgain, readBy2000, writeBy3000, talk, go, Action.nodes, hne, hn]
  rw [run_untouched huntouched hu] at hst
  exact Cache.stores_new hst

def lockEvents (n : NodeId) (state : LockState) : List Event :=
  [.lock n ⟨3000, state⟩ true, .answered n ⟨3000, state⟩ true]

def writeEvents (n : NodeId) (d : Data Word) : List Event :=
  .call n (.write d) :: lockEvents n .exclusive ++ .store n d.ga d.data :: lockEvents n .unlocked ++
    [.ret n (.write d (some d.ga))]

def readEvents (n : NodeId) : List Event :=
  .call n (.read homeAddress) :: (lockEvents n .sharedlock ++ lockEvents n .unlocked)

theorem loneRead_readEvents (n m : NodeId) (d : Data Word) (pre : List Event) (hga : d.ga = homeAddress)
    (hpre : ∀ p d', .call p (.write d') ∈ pre → ∃ r, .ret p (.write d' r) ∈ pre) :
    LoneRead n homeAddress (pre ++ writeEvents m d) (lockEvents n .sharedlock ++ lockEvents n .unlocked) := by
  refine ⟨by simp [lockEvents], ⟨m, d, d.ga, by simp [writeEvents], hga⟩, fun p d' _ hmem => ?_⟩
  have hcase : .call p (.write d') ∈ pre ∨ p = m ∧ d' = d := by
    simpa [writeEvents, lockEvents] using hmem
  rcases hcase with hmem | ⟨rfl, rfl⟩
  · obtain ⟨r, hr⟩ := hpre p d' hmem
    exact ⟨r, List.mem_append_left _ hr⟩
  · exact ⟨some d'.ga, by simp [writeEvents]⟩

theorem run_readAgain_events : ∃ t, run step (.start homeBlock) readAgain = some t ∧ t.log =
    (readEvents 2000 ++ [.ret 2000 (.read homeAddress (some ⟨1, 0⟩))] ++ writeEvents 3000 ⟨8, ⟨9, 7⟩, homeAddress⟩ ++
      readEvents 2000) ++ [.ret 2000 (.read homeAddress (some ⟨9, 7⟩))] :=
  Option.map_eq_some_iff (f := State.log).mp (by decide +kernel)

theorem reads_latest_readAgain : ∃ t pre, run step (.start homeBlock) readAgain = some t ∧
    t.log = (pre ++ readEvents 2000) ++ [.ret 2000 (.read homeAddress (some ⟨9, 7⟩))] ∧
    (versions (.start homeBlock) homeAddress (pre ++ readEvents 2000)).getLast? = some ⟨9, 7⟩ := by
  obtain ⟨t, ht, hlog⟩ := run_readAgain_events
  have has : ∀ a ∈ readAgain, a.accessesIn (· = homeAddress) := by
    simp [readAgain, readBy2000, writeBy3000, talk, go, Action.accessesIn]
  have hsize : ∀ ga, ga = homeAddress → ga.size = 8 := by
    rintro ga rfl
    rfl
  have hlone := loneRead_readEvents 2000 3000 ⟨8, ⟨9, 7⟩, homeAddress⟩
    (readEvents 2000 ++ [.ret 2000 (.read homeAddress (some ⟨1, 0⟩))]) rfl (by simp [readEvents, lockEvents])
  exact ⟨t, _, ht, hlog, reads_latest initialised_homeBlock hsize has listed_readAgain ht _ _ _ _ _ _ hlog hlone⟩

/-- 2000 writes 7, which leaves a copy that home does not know of, then 3000 writes 9, then 2000 reads. -/
def staleRead : List Action :=
  [.begin 2000 (.write ⟨8, 7, homeAddress⟩), go 2000, go 2000] ++ talk 2000 3000 ++ [go 2000] ++
    [.begin 3000 (.write ⟨8, 9, homeAddress⟩), go 3000] ++ talk 3000 2000 ++ [go 3000, go 3000, go 3000] ++
    talk 3000 2000 ++ [.begin 2000 (.read homeAddress), go 2000, go 2000, go 2000]

theorem run_staleRead : ∃ t, run step (.start homeBlock) staleRead = some t ∧ t.log =
    (writeEvents 2000 ⟨8, ⟨7, 1⟩, homeAddress⟩ ++ writeEvents 3000 ⟨8, ⟨9, 8⟩, homeAddress⟩ ++ readEvents 2000) ++
      [.ret 2000 (.read homeAddress (some ⟨7, 1⟩))] :=
  Option.map_eq_some_iff (f := State.log).mp (by decide +kernel)

/-- Without the condition, the read of 2000 returns 7 although home has applied 9 last and both writes
have returned. -/
theorem reads_not_latest : ¬ ∀ (G : GlobalAddress → Prop) (size : UInt64) (s t : State) (as : List Action),
    Initialised G s → (∀ ga, G ga → ga.size = size) → (∀ a ∈ as, a.accessesIn G) → run step s as = some t →
    ReadsLatest s t.log := by
  intro hclaim
  obtain ⟨t, ht, hlog⟩ := run_staleRead
  have has : ∀ a ∈ staleRead, a.accessesIn (· = homeAddress) := by
    simp [staleRead, talk, go, Action.accessesIn]
  have hsize : ∀ ga, ga = homeAddress → ga.size = 8 := by
    rintro ga rfl
    rfl
  have hlone := loneRead_readEvents 2000 3000 ⟨8, ⟨9, 8⟩, homeAddress⟩
    (writeEvents 2000 ⟨8, ⟨7, 1⟩, homeAddress⟩) rfl (by simp [writeEvents, lockEvents])
  have hlatest := hclaim _ 8 _ t staleRead initialised_homeBlock hsize has ht _ _ _ _ _ _ hlog hlone
  have hlast : (versions (.start homeBlock) homeAddress (writeEvents 2000 ⟨8, ⟨7, 1⟩, homeAddress⟩ ++
      writeEvents 3000 ⟨8, ⟨9, 8⟩, homeAddress⟩ ++ readEvents 2000)).getLast? = some ⟨9, 8⟩ := by decide +kernel
  exact absurd (hlast.symm.trans hlatest) (by decide)

end CacheCoherence.Protocol
