import CacheCoherence.Coherence.LatestReads
import CacheCoherence.Coherence.ReadCopies

/-! # One writer for each address

A node that caches its own write is not among the sharers, so the write of another node does not invalidate its copy.
While each address is written by one node only, the writes of this node reach every copy: reads behave as those of
a regular register.
-/
namespace CacheCoherence.Protocol
open TransitionRuns VersionOrder

def Concluded (log : List Event) (n : NodeId) (d : Data Word) : Prop :=
  ∃ pre mid m r, log = pre ++ .call n (.read d.ga) :: mid ∧ .ret m (.write d (some r)) ∈ pre

/-- A read returns a version that its address has had by then, and none that is older than a write that had returned
when the read was called. -/
def RegularReads (s₀ : State) (log : List Event) : Prop :=
  ∀ n ga w pre post, log = pre ++ .ret n (.read ga (some w)) :: post →
    w ∈ versions s₀ ga pre ∧ ∀ d, d.ga = ga → Concluded pre n d → NoNewer (versions s₀ ga pre) d.data w

def Action.writesOwned (owner : GlobalAddress → NodeId) : Action → Prop
  | .begin n (.write d) => n = owner d.ga
  | _ => True

structure SingleWriter (owner : GlobalAddress → NodeId) (s₀ s : State) : Prop where
  calls : ∀ n d, .call n (.write d) ∈ s.log → n = owner d.ga
  own : ∀ n k ga c, (s.node n).cache.Stores k ga c → c.fetched = false → n = owner ga
  found : ∀ n ga w, (s.node n).ctl.found = some (ga, .copy w) → ∀ d, d.ga = ga → Concluded s.log n d →
    NoNewer (versions s₀ ga s.log) d.data w
  regular : RegularReads s₀ s.log

section
variable {G : GlobalAddress → Prop} {size : UInt64} {owner : GlobalAddress → NodeId} {s t s₀ : State}
variable {n m p : NodeId} {e : Effect} {env : Env} {ga : GlobalAddress} {k : UInt64} {w : Word} {c : Copy}
variable {d : Data Word} {a : Action} {log es : List Event}

theorem Concluded.of_append (h : Concluded (log ++ es) n d) (hc : ∀ op, .call n op ∉ es) : Concluded log n d := by
  obtain ⟨pre, mid, m, r, heq, hret⟩ := h
  obtain ⟨mid', rfl, -⟩ := split_old heq (hc _)
  exact ⟨pre, mid', m, r, rfl, hret⟩

theorem Concluded.returned (h : Concluded log n d) : ∃ m r, .ret m (.write d (some r)) ∈ log := by
  obtain ⟨pre, mid, m, r, rfl, hret⟩ := h
  exact ⟨m, r, List.mem_append_left _ hret⟩

theorem History.concluded_mem (hH : History G s₀ s) (h : Concluded s.log n d) : d.data ∈ versions s₀ d.ga s.log := by
  obtain ⟨m, r, hret⟩ := h.returned
  exact List.mem_append_right _ (mem_stored.mpr ⟨m, hH.stores.returned m d r hret⟩)

theorem SingleWriter.writer (h : SingleWriter owner s₀ s) (hC : Calls s) (hc : (s.node n).calling = some (.write d)) :
    n = owner d.ga :=
  h.calls n d (List.mem_of_getElem? (hC.callAt hc).2)

theorem SingleWriter.returned (h : SingleWriter owner s₀ s) (hC : Calls s) {o : Option GlobalAddress}
    (hr : .ret n (.write d o) ∈ s.log) : n = owner d.ga :=
  h.calls n d (List.mem_of_getElem? (hC.returned n d o hr).1.2)

theorem SingleWriter.calls_steps (hsus : Suspends s) (h : SingleWriter owner s₀ s) (ha : a.writesOwned owner)
    (hs : Steps s a t) (hc : .call n (.write d) ∈ t.log) : n = owner d.ga := by
  cases hs with
  | begin p op hidle hsus' =>
    rcases List.mem_append.mp hc with hc | hc
    · exact h.calls n d hc
    · cases op with
      | write d' =>
        cases List.mem_singleton.mp hc
        exact ha
      | _ => cases List.mem_singleton.mp hc
  | accept q c y hc' hm hidle => exact h.calls n d hc
  | exec p env e _ hm =>
    rcases List.mem_append.mp hc with hc | hc
    · exact h.calls n d hc
    · exact absurd hc (hm.no_call hsus n _)

theorem SingleWriter.own_steps (hH : History G s₀ s) (h : SingleWriter owner s₀ s) (hs : Steps s a t)
    (hst : (t.node n).cache.Stores k ga c) (hc : c.fetched = false) : n = owner ga := by
  cases hs.comes hst with
  | kept hold => exact h.own n k ga c hold hc
  | fetched w ch rest hctl hch hd hctl' hk hw =>
    subst hw
    cases hc
  | written d ch hctl hch hctl' hch' hga =>
    subst hga
    have hop : (s.node n).ctl.op = some (.write d) := by
      rw [hctl]
      rfl
    refine h.writer hH.calls ?_
    rw [calling_of_own (hH.suspends.of_own rfl (aside_of_op hop)), hop]

theorem Steps.takesUp (hH : History G s₀ s) (hs : Steps s a t) (htakes : s.takesUp a = some (n, ga)) :
    (∃ d, (s.node n).calling = some (.write d) ∧ d.ga = ga) ∧ (s.node port).ctl.sweeps = none := by
  have hcalling : ∀ {m : NodeId} {d : Data Word}, (s.node m).ctl.op = some (.write d) →
      (s.node m).calling = some (.write d) := by
    intro m d hop
    rw [calling_of_own (hH.suspends.of_own rfl (aside_of_op hop)), hop]
  cases hs with
  | begin | accept => cases htakes
  | exec q env e _ hm =>
    simp only [State.takesUp] at htakes
    split at htakes
    · rename_i hq
      subst hq
      split at htakes
      · rename_i d hctl
        cases htakes
        exact ⟨⟨d, hcalling (by rw [hctl]; rfl), rfl⟩, by rw [hctl]; rfl⟩
      · rename_i c hctl
        split at htakes
        · rename_i sd hup
          cases htakes
          obtain ⟨ch, hch, hup⟩ := Option.bind_eq_some_iff.mp hup
          refine ⟨?_, by rw [hctl]; rfl⟩
          rw [hctl] at hm
          cases hm with
          | serve _ ch' r e hch' hpeer hup' =>
            obtain rfl : ch = ch' := Option.some.inj (hch.symm.trans hch')
            rcases hH.workload.request hH.sessions hctl hch hpeer hup
              with ⟨k, hr, -⟩ | hr | ⟨sga, hr⟩ | ⟨-, -, ⟨ga, -, -, -, hr⟩ | ⟨d, -, -, hwaits, hr⟩⟩
            · cases hr
            · cases hr
            · cases hr
            · cases hr
            · cases hr
              exact ⟨d, hcalling (by rw [hwaits]; rfl), rfl⟩
          | misread _ _ _ _ _ _ hmis => cases hmis
          | connect _ y hopen => cases hopen
        · cases htakes
      · cases htakes
    · cases htakes

/-- When home takes up a write, its writer is the owner, and all other copies have been fetched. -/
theorem SingleWriter.listed (hH : History G s₀ s) (hR : ReadCopies G s₀ s) (h : SingleWriter owner s₀ s)
    (hs : Steps s a t) : WritesListed s a := by
  intro writer ga htakes n k c hn hst
  obtain ⟨⟨d, hcalling, rfl⟩, hsweeps⟩ := hs.takesUp hH htakes
  have hfetched : c.fetched = true := by
    by_contra hno
    exact hn ((h.own n k d.ga c hst (by simpa using hno)).trans (h.writer hH.calls hcalling).symm)
  rcases hR.covered n k d.ga c hst hfetched with ⟨b, hb, hmem, -⟩ | ⟨-, d', m, hsw, -⟩
  · exact ⟨b, hb, hmem⟩
  · rw [hsweeps] at hsw
    cases hsw

/-- No copy is older than a write that has returned: the writer has its own, and home has swept the others. -/
theorem SingleWriter.noNewer_hit (hH : History G s₀ s) (hV : Views G s₀ s) (hR : ReadCopies G s₀ s)
    (hsize : ∀ ga, G ga → ga.size = size) (h : SingleWriter owner s₀ s) (hctl : (s.node n).ctl = .access (.read d.ga))
    {ga : GlobalAddress} (hst : (s.node n).cache.Stores d.ga.hash ga c) (hd : Concluded s.log n d) :
    NoNewer (versions s₀ d.ga s.log) d.data c.word := by
  obtain ⟨rfl, -, hseen⟩ := hV.hit hH.workload hsize hctl hst
  obtain ⟨m, r, hret⟩ := hd.returned
  cases hfetched : c.fetched with
  | true => exact hR.noNewer hH hret hst hfetched
  | false =>
    obtain rfl : m = n := (h.returned hH.calls hret).trans (h.own n _ _ c hst hfetched).symm
    exact hseen d.data (Or.inl ⟨_, hret, by simp [Event.shows]⟩)

theorem SingleWriter.found_steps (hH : History G s₀ s) (hV : Views G s₀ s) (hR : ReadCopies G s₀ s)
    (hsize : ∀ ga, G ga → ga.size = size) (h : SingleWriter owner s₀ s) (hs : Steps s a t)
    (hf : (t.node n).ctl.found = some (d.ga, .copy w)) (hd : Concluded t.log n d) :
    NoNewer (versions s₀ d.ga t.log) d.data w := by
  have hcase := hs.found hH.workload hf
  have hbusy : (s.node n).ctl ≠ .idle := by
    intro hidle
    rcases hcase with hold | hfind
    · rw [hidle] at hold
      cases hold
    · cases hfind with
      | hit ga' c hctl =>
        rw [hidle] at hctl
        cases hctl
      | fetch _ harr =>
        rw [Arriving, hidle] at harr
        cases harr.1
  obtain ⟨es, hlog, hno⟩ := hs.no_call hH.suspends hbusy
  rw [hlog] at hd
  have hd := hd.of_append hno
  obtain ⟨ws, hws⟩ := hs.versions_append s₀ d.ga
  rw [hws]
  refine NoNewer.append ?_ ws
  rcases hcase with hold | hfind
  · exact h.found n d.ga w hold d rfl hd
  · cases hfind with
    | hit ga' c hctl hst => exact h.noNewer_hit hH hV hR hsize hctl hst hd
    | fetch _ harr =>
      have hga : G d.ga := (harr.address hH.workload).1
      exact hH.noNewer_home hga (hH.arriving n d.ga w harr).homeWord (hH.concluded_mem hd)

theorem SingleWriter.regular_moves (hH : History G s₀ s) (hV : Views G s₀ s) (h : SingleWriter owner s₀ s)
    (hm : Moves s p env (s.node p).ctl e) : RegularReads s₀ (s.log ++ e.events) := by
  intro n ga w pre post hlog
  rcases split_append hlog with ⟨post', hold, -⟩ | ⟨fs, rfl, hes⟩
  · exact h.regular n ga w pre post' hold
  · have hret : .ret n (.read ga (some w)) ∈ e.events := by
      rw [hes]
      exact List.mem_append_right fs List.mem_cons_self
    have hnc : ∀ op, .call n op ∉ fs := by
      intro op hmem
      exact hm.no_call hH.suspends n op (by rw [hes]; exact List.mem_append_left _ hmem)
    obtain ⟨rfl, hga, hcase⟩ := hm.returns_read hH.workload hret
    rw [versions_append]
    constructor
    · refine List.mem_append_left _ ?_
      rcases hcase with ⟨-, hw⟩ | ⟨-, hf⟩
      · exact hH.home_mem hga hw
      · exact hV.seen n ga w (Or.inr (Or.inl hf))
    · rintro d rfl hd
      have hd := hd.of_append hnc
      refine NoNewer.append ?_ _
      rcases hcase with ⟨-, hw⟩ | ⟨-, hf⟩
      · exact hH.noNewer_home hga hw (hH.concluded_mem hd)
      · exact h.found n d.ga w hf d rfl hd

theorem SingleWriter.steps (hH : History G s₀ s) (hV : Views G s₀ s) (hR : ReadCopies G s₀ s)
    (hsize : ∀ ga, G ga → ga.size = size) (h : SingleWriter owner s₀ s) (ha : a.writesOwned owner)
    (hs : Steps s a t) : SingleWriter owner s₀ t := by
  refine ⟨fun _ _ hc => h.calls_steps hH.suspends ha hs hc, fun _ _ _ _ hst hc => h.own_steps hH hs hst hc, ?_, ?_⟩
  · rintro n _ w hf d rfl hd
    exact h.found_steps hH hV hR hsize hs hf hd
  · cases hs with
    | begin q op hidle hsus =>
      intro n ga w pre post hlog
      rw [State.begun_log] at hlog
      obtain ⟨post', hold, -⟩ := split_old hlog fun hmem => by cases List.mem_singleton.mp hmem
      exact h.regular n ga w pre post' hold
    | accept q c y hc hm hidle => exact h.regular
    | exec q env e _ hm => exact h.regular_moves hH hV hm

theorem Initialised.singleWriter (h : Initialised G s)
    (hown : ∀ n k ga c, (s.node n).cache.Stores k ga c → n = owner ga) : SingleWriter owner s s := by
  refine ⟨fun n d hc => ?_, fun n k ga c hst _ => hown n k ga c hst, fun n ga w hf => ?_,
    fun n ga w pre post hlog => ?_⟩
  · rw [h.quiet.log] at hc
    cases hc
  · rw [h.quiet.idle n] at hf
    cases hf
  · rw [h.quiet.log] at hlog
    simp at hlog

theorem Fresh.settled (hH : History G s₀ s) (h : Fresh s₀ s) (hga : G ga)
    (hno : ∀ m d, (s.node m).calling = some (.write d) → d.ga ≠ ga) (hst : (s.node n).cache.Stores k ga c) :
    s.homeWord ga = some c.word := by
  rcases h.items n k ga c hst with hw | hahead | ⟨d, hun, hd, -⟩
  · exact hw
  · obtain ⟨m, d, hm, hd⟩ := hH.ahead_writer hga hahead
    exact absurd hd (hno m d hm)
  · exact absurd hd (hno n d (Pends.calling hH.suspends (Or.inr hun)))

end

/-- In every run of reads and writes of addresses of one size in which each address is written by one node only, a
read returns none but a version of its address, and none older than a write that had returned when it was called;
and whenever no write of an address is under way, every copy of it is home's value. -/
theorem singleWriter_regular {G : GlobalAddress → Prop} {size : UInt64} {owner : GlobalAddress → NodeId} {s t : State}
    {as : List Action} (hs : Initialised G s) (hsize : ∀ ga, G ga → ga.size = size)
    (hown : ∀ n k ga c, (s.node n).cache.Stores k ga c → n = owner ga) (has : ∀ a ∈ as, a.accessesIn G)
    (hwrites : ∀ a ∈ as, a.writesOwned owner) (ht : run step s as = some t) :
    RegularReads s t.log ∧ ∀ ga, (∀ m d, (t.node m).calling = some (.write d) → d.ga ≠ ga) →
      ∀ n k c, (t.node n).cache.Stores k ga c → t.homeWord ga = some c.word := by
  have hall : History G s t ∧ Views G s t ∧ ReadCopies G s t ∧ Fresh s t ∧ SingleWriter owner s t := by
    refine run_invariant_of_meets
      (I := fun u => History G s u ∧ Views G s u ∧ ReadCopies G s u ∧ Fresh s u ∧ SingleWriter owner s u)
      (C := fun _ a => a.accessesIn G ∧ a.writesOwned owner) ?_
      ⟨hs.history, hs.views, hs.readCopies, hs.fresh, hs.singleWriter hown⟩
      (meets_of_forall fun a ha => ⟨has a ha, hwrites a ha⟩) ht
    rintro u a v ⟨hH, hV, hR, hF, hW⟩ ⟨ha, hw⟩ huv
    have hstep := steps_of_step huv
    have hT := hH.steps ha hstep
    exact ⟨hT, hV.steps hsize hH hT hstep, hR.steps hH hstep, hF.steps hH hT hV hsize (hW.listed hH hR hstep) hstep,
      hW.steps hH hV hR hsize hw hstep⟩
  obtain ⟨hH, hV, -, hF, hW⟩ := hall
  exact ⟨hW.regular, fun ga hno n k c hst => hF.settled hH (hV.keyed n k ga c hst).1 hno hst⟩

theorem run_readAgain_idle : ∃ t, run step (.start homeBlock) readAgain = some t ∧
    ∀ n, (t.node n).calling = none := by
  have hrun : (run step (.start homeBlock) readAgain).map (fun t => ((t.node 2000).calling, (t.node 3000).calling)) =
      some (none, none) := by decide +kernel
  obtain ⟨t, ht, hcalling⟩ := Option.map_eq_some_iff.mp hrun
  obtain ⟨h2000, h3000⟩ := Prod.mk.inj hcalling
  refine ⟨t, ht, fun n => ?_⟩
  by_cases h2 : n = 2000
  · rw [h2, h2000]
  · by_cases h3 : n = 3000
    · rw [h3, h3000]
    · have huntouched : ∀ a ∈ readAgain, n ∉ a.nodes := by
        simp [readAgain, readBy2000, writeBy3000, talk, go, Action.nodes, h2, h3]
      rw [run_untouched huntouched ht]
      rfl

/-- Only 3000 writes. In the end the copy of 2000 is home's value. -/
theorem singleWriter_readAgain : ∃ t, run step (.start homeBlock) readAgain = some t ∧
    RegularReads (.start homeBlock) t.log ∧
    ∀ n k c, (t.node n).cache.Stores k homeAddress c → t.homeWord homeAddress = some c.word := by
  obtain ⟨t, ht, hidle⟩ := run_readAgain_idle
  have has : ∀ a ∈ readAgain, a.accessesIn (· = homeAddress) := by
    simp [readAgain, readBy2000, writeBy3000, talk, go, Action.accessesIn]
  have hwrites : ∀ a ∈ readAgain, a.writesOwned fun _ => 3000 := by
    simp [readAgain, readBy2000, writeBy3000, talk, go, Action.writesOwned]
  have hsize : ∀ ga, ga = homeAddress → ga.size = 8 := by
    rintro ga rfl
    rfl
  have hregular := singleWriter_regular initialised_homeBlock hsize
    (fun _ _ _ _ hst => absurd hst Cache.stores_new) has hwrites ht
  refine ⟨t, ht, hregular.1, hregular.2 homeAddress fun m d hd => ?_⟩
  rw [hidle m] at hd
  cases hd

end CacheCoherence.Protocol
