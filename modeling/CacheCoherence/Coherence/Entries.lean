import CacheCoherence.Coherence.Memory
import CacheCoherence.Foundation.TransitionRuns

/-! # The history of a directory entry

What the home of a block does with the requests and calls that reach it, one after the other, and what the
entry tells about them.
-/
namespace CacheCoherence.Protocol
open TransitionRuns

/-- A READ or a WRITE of a node, or a `Node::write` of the home itself. -/
inductive Visit where
  | read (srcID : NodeId)
  | write (size : UInt64) (data : Word) (srcID : NodeId)
  | writeLocal (size : UInt64) (data : Word)
deriving DecidableEq, Repr

structure Visited where
  self : NodeState
  replies : List Reply
  invalidated : Option (List NodeId)

def Effect.channel (e : Effect) : Option Channel := e.wire.bind fun p => p.2

def Ctl.broadcasts : Ctl → Option (List NodeId)
  | .broadcast nodes _ _ => some nodes
  | _ => none

/-- The handlers, and the local branch of `Node::write`, from the first step to the last. `none` when the home
crashes or the block is not allocated. -/
def visit (n : NodeId) (env : Env) (ga : GlobalAddress) (ns : NodeState) : Visit → Option Visited
  | .read srcID => do
    let e ← handleRead n (ns.goto (.serving srcID)) env srcID ⟨n, none, [], true⟩ (ga.sendable srcID)
    let ch ← e.channel
    some ⟨e.self, ch.down, none⟩
  | .write size data srcID => do
    let e ← handleWrite n (ns.goto (.serving srcID)) srcID ⟨n, none, [], true⟩ ((Data.mk size data ga).sendable srcID)
    let ch ← e.channel
    match e.self.ctl with
    | .startInvalidations c d nodes src => do
      let e' ← stepStartInvalidations e.self c ch d nodes src
      let ch' ← e'.channel
      some ⟨e'.self, ch'.down, e'.self.ctl.broadcasts⟩
    | _ => some ⟨e.self, ch.down, none⟩
  | .writeLocal size data => do
    let d : Data Word := ⟨size, data, ga⟩
    let e ← stepAccess n (ns.goto (.access (.write d))) env (.write d)
    let e' ← stepMemcpy n e.self d
    some ⟨e'.self, [], e.self.ctl.broadcasts⟩

def stepVisit (n : NodeId) (env : Env) (ga : GlobalAddress) (ns : NodeState) (v : Visit) : Option NodeState :=
  (visit n env ga ns v).map Visited.self

namespace Visit

def apply (n : NodeId) (r : SaveData Word) : Visit → SaveData Word
  | .read srcID => r.register srcID
  | .write _ data srcID => .owned data srcID
  | .writeLocal _ data => .written data n

def sweeps (r : SaveData Word) : Visit → Option (List NodeId)
  | .read _ => none
  | .write _ _ _ => if r.readable && r.handleInvalidates then some r.sharerNodes else none
  | .writeLocal _ _ => if r.writeInvalidates then some r.sharerNodes else none

def replies (ga : GlobalAddress) (r : SaveData Word) : Visit → List Reply
  | .read _ => [.data r.data]
  | .write _ _ srcID =>
    if r.readable && r.handleInvalidates then [.invalidate (ga.sendable srcID), .address (ga.sendable srcID)]
    else [.address (ga.sendable srcID)]
  | .writeLocal _ _ => []

def readersSince (vs : List Visit) (listed : List NodeId) : List NodeId :=
  vs.foldl (fun readers v => match v with
    | .read srcID => readers ++ [srcID]
    | .write _ _ _ | .writeLocal _ _ => []) listed

def lastWrite (n : NodeId) (vs : List Visit) (first : Word) : Word × NodeId × CacheDirectoryState :=
  vs.foldl (fun last v => match v with
    | .read _ => last
    | .write _ data srcID => (data, srcID, .exclus)
    | .writeLocal _ data => (data, n, .unshared)) (first, n, .unshared)

end Visit

section
variable {n : NodeId} {env : Env} {ga : GlobalAddress} {ns ns' : NodeState} {b : Block} {v : Visit} {vs : List Visit}
  {r : SaveData Word} {w : Word} {l : List NodeId}

theorem visit_spec (env : Env) (v : Visit) (hga : ga.id = n) (hb : ns.mem ga.ptr = some b)
    (hr : ∀ srcID, v = .read srcID → b.record.readable = true) :
    ∃ out, visit n env ga ns v = some out ∧ out.self.mem ga.ptr = some { b with record := v.apply n b.record } ∧
      out.invalidated = v.sweeps b.record ∧ out.replies = v.replies ga b.record := by
  have hlocal : isLocal n ga = true := (isLocal_iff n ga).mpr hga
  cases v with
  | read srcID =>
    have he : handleRead n (ns.goto (.serving srcID)) env srcID ⟨n, none, [], true⟩ (ga.sendable srcID) =
        some ⟨(ns.goto (.serving srcID)).copyRecord ga.ptr (b.record.register srcID),
          some (srcID, some ⟨n, none, [.data b.record.data], true⟩), []⟩ := by
      simp [handleRead, hlocal, hb, hr srcID rfl, Channel.reply]
    refine ⟨_, by rw [visit, he]; rfl, ?_, rfl, rfl⟩
    simp [hb, Visit.apply]
  | write size data srcID =>
    by_cases hinv : (b.record.readable && b.record.handleInvalidates) = true
    · obtain ⟨hread, hguard⟩ : b.record.readable = true ∧ b.record.handleInvalidates = true := by simpa using hinv
      have he :
        handleWrite n (ns.goto (.serving srcID)) srcID ⟨n, none, [], true⟩ ((Data.mk size data ga).sendable srcID) =
          some ⟨ns.goto (.startInvalidations srcID ⟨size, data, ga⟩ b.record.sharerNodes srcID),
            some (srcID, some ⟨n, none, [.invalidate (ga.sendable srcID)], true⟩), []⟩ := by
        simp [handleWrite, hlocal, hb, hread, hguard, Channel.reply, NodeState.goto]
      have hs : ∀ x ch, stepStartInvalidations (ns.goto x) srcID ch ⟨size, data, ga⟩ b.record.sharerNodes srcID =
          some ⟨((ns.goto x).copyRecord ga.ptr (.owned data srcID)).goto
              (.broadcast b.record.sharerNodes ga (.startInvalidations ⟨size, data, ga⟩ srcID)),
            some (srcID, some { ch.reply (.address (ga.sendable srcID)) with isOpen := false }),
            [.store srcID ga data]⟩ := by
        intro x ch
        simp [stepStartInvalidations, hb]
      refine ⟨_, by
        rw [visit, he]
        simp only [Effect.channel, Option.bind_eq_bind, Option.bind_some, NodeState.goto_ctl, hs]
        rfl, ?_, ?_, ?_⟩
      · simp [hb, Visit.apply]
      · simp [Visit.sweeps, hinv, Ctl.broadcasts]
      · simp [Visit.replies, hinv, Channel.reply]
    · have hguard : b.record.readable = true → b.record.handleInvalidates = false := by simpa using hinv
      have he :
        handleWrite n (ns.goto (.serving srcID)) srcID ⟨n, none, [], true⟩ ((Data.mk size data ga).sendable srcID) =
          some ⟨(ns.goto (.serving srcID)).copyRecord ga.ptr (.owned data srcID),
            some (srcID, some ⟨n, none, [.address (ga.sendable srcID)], true⟩), [.store srcID ga data]⟩ := by
        simpa [handleWrite, hlocal, hb, Channel.reply] using hguard
      refine ⟨_, by rw [visit, he]; rfl, ?_, ?_, ?_⟩
      · simp [hb, Visit.apply]
      · simp [Visit.sweeps, hinv]
      · simp [Visit.replies, hinv]
  | writeLocal size data =>
    have he : stepAccess n (ns.goto (.access (.write ⟨size, data, ga⟩))) env (.write ⟨size, data, ga⟩) =
        some ⟨ns.goto (if b.record.writeInvalidates then .broadcast b.record.sharerNodes ga (.write ⟨size, data, ga⟩)
          else .memcpy ⟨size, data, ga⟩), none, []⟩ := by
      simp [stepAccess, hlocal, hb, NodeState.goto]
    have hm : ∀ x, stepMemcpy n (ns.goto x) ⟨size, data, ga⟩ =
        some ⟨((ns.goto x).copyRecord ga.ptr (.written data n)).goto (.setLock (.release (.write ⟨size, data, ga⟩ ga))),
          none,
          [.store n ga data]⟩ := by
      intro x
      simp [stepMemcpy, hb]
    refine ⟨_, by rw [visit]; simp only [he, hm, Option.bind_eq_bind, Option.bind_some]; rfl, ?_, ?_, rfl⟩
    · simp [hb, Visit.apply]
    · simp only [Visit.sweeps, NodeState.goto_ctl]
      split <;> rfl

theorem visit_readable (hga : ga.id = n) (hb : ns.mem ga.ptr = some b) {out : Visited}
    (h : visit n env ga ns v = some out) :
    ∀ srcID, v = .read srcID → b.record.readable = true := by
  rintro srcID rfl
  have hlocal : isLocal n ga = true := (isLocal_iff n ga).mpr hga
  by_contra hread
  simp [visit, handleRead, hlocal, hb, hread, Effect.channel] at h

def entry (n : NodeId) (r : SaveData Word) (vs : List Visit) : SaveData Word := vs.foldl (Visit.apply n) r

theorem Visit.apply_regular (n : NodeId) (r : SaveData Word) (v : Visit) : (v.apply n r).Regular := by
  cases v with
  | read srcID => exact SaveData.regular_register srcID
  | write size data srcID => exact SaveData.regular_owned data srcID
  | writeLocal size data => exact SaveData.regular_written data n

theorem entry_regular (hr : r.Regular ∨ vs ≠ []) : (entry n r vs).Regular := by
  induction vs generalizing r with
  | nil => exact hr.resolve_right fun hne => hne rfl
  | cons v vs ih => exact ih (Or.inl (v.apply_regular n r))

theorem entry_sharerNodes : (entry n r vs).sharerNodes = Visit.readersSince vs r.sharerNodes := by
  induction vs generalizing r with
  | nil => rfl
  | cons v vs ih =>
    have hv : (v.apply n r).sharerNodes = Visit.readersSince [v] r.sharerNodes := by cases v <;> rfl
    calc (entry n (v.apply n r) vs).sharerNodes = Visit.readersSince vs (v.apply n r).sharerNodes := ih
      _ = Visit.readersSince (v :: vs) r.sharerNodes := by rw [hv]; rfl

theorem entry_written : entry n (.written w n) vs =
    ⟨(Visit.lastWrite n vs w).1, if Visit.readersSince vs [] = [] then (Visit.lastWrite n vs w).2.2 else .shared,
      (Visit.lastWrite n vs w).2.1, Visit.readersSince vs []⟩ := by
  induction vs using List.reverseRecOn with
  | nil => rfl
  | append_singleton vs v ih =>
    have hentry : entry n (.written w n) (vs ++ [v]) = v.apply n (entry n (.written w n) vs) := by simp [entry]
    rw [hentry, ih]
    cases v <;> simp [Visit.apply, Visit.readersSince, Visit.lastWrite, SaveData.register, SaveData.owned,
      SaveData.written]

theorem run_visits (hga : ga.id = n) (hb : ns.mem ga.ptr = some b) (h : run (stepVisit n env ga) ns vs = some ns') :
    ns'.mem ga.ptr = some { b with record := entry n b.record vs } := by
  induction vs generalizing ns b with
  | nil => exact Option.some.inj h ▸ hb
  | cons v vs ih =>
    obtain ⟨t, ht, h⟩ := run_cons_some h
    obtain ⟨out, hout, rfl⟩ := Option.map_eq_some_iff.mp ht
    obtain ⟨out', hout', hmem, -⟩ := visit_spec env v hga hb (visit_readable hga hb hout)
    obtain rfl : out = out' := Option.some.inj (hout.symm.trans hout')
    exact ih hmem h

theorem exists_run_visits (env : Env) (hga : ga.id = n) (hb : ns.mem ga.ptr = some b) (hr : b.record.readable = true)
    (vs : List Visit) :
    ∃ ns', run (stepVisit n env ga) ns vs = some ns' := by
  induction vs generalizing ns b with
  | nil => exact ⟨ns, rfl⟩
  | cons v vs ih =>
    obtain ⟨out, hout, hmem, -⟩ := visit_spec env v hga hb fun _ _ => hr
    obtain ⟨ns', hrun⟩ := ih hmem (v.apply_regular n b.record).1
    exact ⟨ns', by rw [run_cons, stepVisit, hout]; exact hrun⟩

/-- After any visits to a block that its home has written, the entry holds the data and the writer of the last
write, the readers since in their order, and the state that goes with them; the next write broadcasts exactly to
these readers, and leaves the same entry and the same final reply whether there are any or not. -/
theorem entry_history (hga : ga.id = n) (hb : ns.mem ga.ptr = some b) (hwritten : b.record = .written w n)
    (vs : List Visit) :
    ∃ ns', run (stepVisit n env ga) ns vs = some ns' ∧
      ((ns'.mem ga.ptr).map Block.record = some ⟨(Visit.lastWrite n vs w).1,
        if Visit.readersSince vs [] = [] then (Visit.lastWrite n vs w).2.2 else .shared,
        (Visit.lastWrite n vs w).2.1, Visit.readersSince vs []⟩) ∧
      (∀ size data, ∃ out, visit n env ga ns' (.writeLocal size data) = some out ∧
        out.invalidated = if Visit.readersSince vs [] = [] then none else some (Visit.readersSince vs [])) ∧
      ∀ size data srcID, ∃ out, visit n env ga ns' (.write size data srcID) = some out ∧
        (out.invalidated = if Visit.readersSince vs [] = [] then none else some (Visit.readersSince vs [])) ∧
        (out.self.mem ga.ptr).map Block.record = some (.owned data srcID) ∧
        out.replies = (if Visit.readersSince vs [] = [] then [] else [.invalidate (ga.sendable srcID)]) ++
          [.address (ga.sendable srcID)] := by
  have hr : b.record.Regular := hwritten ▸ SaveData.regular_written w n
  obtain ⟨ns', hrun⟩ := exists_run_visits env hga hb hr.1 vs
  have hmem := run_visits hga hb hrun
  have hregular : (entry n b.record vs).Regular := entry_regular (Or.inl hr)
  have hsharers :
    (entry n b.record vs).sharerNodes = Visit.readersSince vs [] := by rw [entry_sharerNodes, hwritten]; rfl
  refine ⟨ns', hrun, ?_, fun size data => ?_, fun size data srcID => ?_⟩
  · rw [hmem, hwritten, entry_written]
    rfl
  · obtain ⟨out, hout, -, hinv, -⟩ := visit_spec env (.writeLocal size data) hga hmem fun _ hv => by cases hv
    refine ⟨out, hout, hinv.trans ?_⟩
    simp only [Visit.sweeps, hregular.writeInvalidates, hsharers]
    by_cases hnil : Visit.readersSince vs [] = [] <;> simp [hnil]
  · obtain ⟨out, hout, hrec, hinv, hrep⟩ := visit_spec env (.write size data srcID) hga hmem fun _ hv => by cases hv
    refine ⟨out, hout, hinv.trans ?_, by rw [hrec]; rfl, hrep.trans ?_⟩
    · simp only [Visit.sweeps, hregular.1, hregular.handleInvalidates, hsharers]
      by_cases hnil : Visit.readersSince vs [] = [] <;> simp [hnil]
    · simp only [Visit.replies, hregular.1, hregular.handleInvalidates, hsharers]
      by_cases hnil : Visit.readersSince vs [] = [] <;> simp [hnil]

theorem invalidates_iff : (r.readable && r.handleInvalidates) = true ↔
    r.sharerNodes ≠ [] ∧ (r.iscached = .shared ∨ r.iscached = .exclus) := by
  cases hs : r.sharerNodes with
  | nil => simp [SaveData.handleInvalidates, hs]
  | cons m l =>
    cases hc : r.iscached <;> simp [SaveData.readable, SaveData.handleInvalidates, CacheDirectoryState.code, hs, hc]

end

def writtenHome : NodeState := ⟨.empty, .new, homeBlock 3000, [], .idle⟩

theorem entry_history_writtenHome : ∃ ns', run (stepVisit 3000 ⟨0, none⟩ ⟨8, 4096, 3000⟩) writtenHome
      [.read 1000, .write 8 ⟨2, 5⟩ 1000, .read 1500, .read 2000] = some ns' ∧
    (ns'.mem 4096).map Block.record = some ⟨⟨2, 5⟩, .shared, 1000, [1500, 2000]⟩ := by
  obtain ⟨ns', hrun, hrecord, -⟩ := @entry_history 3000 ⟨0, none⟩ ⟨8, 4096, 3000⟩ writtenHome _ _ rfl rfl rfl
    [.read 1000, .write 8 ⟨2, 5⟩ 1000, .read 1500, .read 2000]
  exact ⟨ns', hrun, hrecord⟩

/-- The writer goes on into `prepareForInvalidate` when it has polled the first of the replies. -/
def EntersPrepareForInvalidate (A : NodeId) (me : NodeState) (env : Env) (d : Data Word) : List Reply → Prop
  | r :: rest => (stepReceive A me env ⟨port, none, r :: rest, true⟩ r rest (.performWrite d)).self.ctl =
      .exchange .again (.performWrite d)
  | [] => False

/-- The writer awaits a call-back exactly if it is on the list that its home goes through, and it is on it once. -/
def Handshake (A : NodeId) (me : NodeState) (env : Env) (d : Data Word) (out : Visited) : Prop :=
  (EntersPrepareForInvalidate A me env d out.replies ↔ A ∈ out.invalidated.getD []) ∧
    (A ∈ out.invalidated.getD [] → (out.invalidated.getD []).count A = 1)

/-- Since the last write nobody has read the block; before the first visit its content lists nobody. -/
def Unread (r : SaveData Word) (vs : List Visit) : Prop :=
  Visit.readersSince vs r.sharerNodes = [] ∨ (vs = [] ∧ r.iscached ≠ .shared ∧ r.iscached ≠ .exclus)

section
variable {n A : NodeId} {env env' : Env} {ga : GlobalAddress} {ns ns' me : NodeState} {b : Block} {vs : List Visit}
  {r : SaveData Word} {d : Data Word} {rs : List Reply}

theorem enters_iff : EntersPrepareForInvalidate A me env d rs ↔ ∃ sga, rs.head? = some (.invalidate sga) := by
  cases rs with
  | nil => simp [EntersPrepareForInvalidate]
  | cons r rest => cases r <;> simp [EntersPrepareForInvalidate, stepReceive]

theorem unread_iff : Unread r vs ↔ ((entry n r vs).readable && (entry n r vs).handleInvalidates) = false := by
  rw [← Bool.not_eq_true, invalidates_iff, entry_sharerNodes, Unread]
  by_cases hnil : vs = []
  · subst hnil
    by_cases hlisted : Visit.readersSince [] r.sharerNodes = [] <;> simp [hlisted, entry]
  · have hregular := entry_regular (n := n) (r := r) (Or.inr hnil)
    by_cases hlisted : Visit.readersSince vs r.sharerNodes = []
    · simp [hlisted]
    · have hshared := hregular.2 (by rwa [entry_sharerNodes])
      simp [hlisted, hnil, hshared]

/-- After any visits to a block, a WRITE of node `A` meets its call-back exactly if the home has handled no READ since
the last write, or a single one of `A`. -/
theorem handshake_iff (hga : ga.id = n) (hb : ns.mem ga.ptr = some b) (hrun : run (stepVisit n env ga) ns vs = some ns')
    (size : UInt64) (data : Word) (A : NodeId) (me : NodeState) (env' : Env) :
    (∃ out, visit n env ga ns' (.write size data A) = some out ∧ Handshake A me env' ⟨size, data, ga⟩ out) ↔
      Unread b.record vs ∨ (Visit.readersSince vs b.record.sharerNodes).count A = 1 := by
  have hmem := run_visits hga hb hrun
  obtain ⟨out, hout, -, hinv, hrep⟩ := visit_spec env (.write size data A) hga hmem fun _ hv => by cases hv
  have hsharers : (entry n b.record vs).sharerNodes = Visit.readersSince vs b.record.sharerNodes := entry_sharerNodes
  have hsame :
    (∃ out', visit n env ga ns' (.write size data A) = some out' ∧ Handshake A me env' ⟨size, data, ga⟩ out') ↔
      Handshake A me env' ⟨size, data, ga⟩ out := by
    constructor
    · rintro ⟨out', hout', h⟩
      obtain rfl : out = out' := Option.some.inj (hout.symm.trans hout')
      exact h
    · exact fun h => ⟨out, hout, h⟩
  rw [hsame, Handshake, enters_iff, hinv, hrep, unread_iff (n := n)]
  simp only [Visit.sweeps, Visit.replies, hsharers]
  by_cases hinvalidates : ((entry n b.record vs).readable && (entry n b.record vs).handleInvalidates) = true
  · simp only [hinvalidates, ↓reduceIte, Option.getD_some, List.head?_cons, Option.some.injEq, Reply.invalidate.injEq,
      exists_eq', true_iff, Bool.true_eq_false, false_or]
    constructor
    · exact fun h => h.2 h.1
    · intro hcount
      exact ⟨List.count_pos_iff.mp (by omega), fun _ => hcount⟩
  · have hfalse := Bool.not_eq_true _ ▸ hinvalidates
    simp [hfalse]

/-- In a run of the system the record of a block changes by visits only, as long as the block is allocated. -/
theorem Steps.visited {s t : State} {a : Action} {m : NodeId} {ptr : UInt64} {b' : Block} (hS : Sessions s)
    (h : Steps s a t)
    (hb : (s.node m).mem ptr = some b) (hb' : (t.node m).mem ptr = some b') :
    b' = b ∨ ∃ v : Visit, b' = { b with record := v.apply m b.record } := by
  have hkept : (t.node m).mem = (s.node m).mem → b' = b := by
    intro hmem
    rw [hmem, hb] at hb'
    exact (Option.some.inj hb').symm
  cases h with
  | begin n op hidle hsus => exact Or.inl (hkept (by rw [State.begun_node]; rfl))
  | accept m' c x hc hx hidle => exact Or.inl (hkept (by rw [State.accepted_node]; rfl))
  | exec n env e hsound hm =>
    by_cases hmn : m = n
    · subst hmn
      rw [Effect.apply_self] at hb' hkept
      have hcopy : ∀ (q : UInt64) (r : SaveData Word) (v : Visit) (bq : Block), (s.node m).mem q = some bq →
          r = v.apply m bq.record → ((s.node m).copyRecord q r).mem ptr = some b' →
          b' = b ∨ ∃ v : Visit, b' = { b with record := v.apply m b.record } := by
        intro q r v bq hbq hr hcopied
        by_cases hq : ptr = q
        · subst hq
          obtain rfl : b = bq := Option.some.inj (hb.symm.trans hbq)
          rw [NodeState.copyRecord_mem_self, hb, hr] at hcopied
          exact Or.inr ⟨v, (Option.some.inj hcopied).symm⟩
        · rw [NodeState.copyRecord_mem_ne hq, hb] at hcopied
          exact Or.inl (Option.some.inj hcopied).symm
      generalize hx : (s.node m).ctl = x at hm
      cases hm.memory hS hx with
      | same _ _ hmem _ => exact Or.inl (hkept hmem)
      | register c ga bq _ _ _ _ hbq => exact hcopy ga.ptr _ (.read c) bq hbq rfl hb'
      | take c d bq _ _ _ _ hbq _ => exact hcopy d.ga.ptr _ (.write d.size d.data c) bq hbq rfl hb'
      | takeShared c d nodes ch bq _ _ _ hbq => exact hcopy d.ga.ptr _ (.write d.size d.data c) bq hbq rfl hb'
      | memcpy d bq hbq => exact hcopy d.ga.ptr _ (.writeLocal d.size d.data) bq hbq rfl hb'
      | alloc _ _ size q content es _ hblock hmem _ _ =>
        have hfree : (s.node m).mem q = none := by simp_all [Env.sound]
        have hq : ptr ≠ q := by
          rintro rfl
          rw [hb] at hfree
          cases hfree
        rw [hmem, Function.update_of_ne hq, hb] at hb'
        exact Or.inl (Option.some.inj hb').symm
      | discard _ ga client es hmem _ _ =>
        have hq : ptr ≠ ga.ptr := by
          rintro rfl
          rw [hmem, Function.update_self] at hb'
          cases hb'
        rw [hmem, Function.update_of_ne hq, hb] at hb'
        exact Or.inl (Option.some.inj hb').symm
    · rw [Effect.apply_ne hmn] at hb' hkept
      exact Or.inl (hkept rfl)

theorem Steps.run_entry {s t : State} {as : List Action} {m : NodeId} {ptr : UInt64} (hS : Sessions s)
    (hb : (s.node m).mem ptr = some b) (halive : Always step (fun u => ((u.node m).mem ptr).isSome = true) s as)
    (hrun : run step s as = some t) : ∃ vs, (t.node m).mem ptr = some { b with record := entry m b.record vs } := by
  induction as generalizing s b with
  | nil => exact ⟨[], Option.some.inj hrun ▸ hb⟩
  | cons a as ih =>
    obtain ⟨u, hu, hrun⟩ := run_cons_some hrun
    have hlater := halive.2 u hu
    obtain ⟨b', hb'⟩ := Option.isSome_iff_exists.mp (always_iff_passed.mp hlater [] u List.nil_prefix rfl)
    have hsteps := steps_of_step hu
    obtain ⟨vs, hvs⟩ := ih (hS.steps hsteps) hb' hlater hrun
    rcases hsteps.visited hS hb hb' with rfl | ⟨v, rfl⟩
    · exact ⟨vs, hvs⟩
    · exact ⟨v :: vs, hvs⟩

/-- Node 1500 has read the block; node 1000 writes and waits, and only 1500 is called back. -/
theorem handshake_missed :
    ¬ ∀ (n : NodeId) (env : Env) (ga : GlobalAddress) (ns ns' : NodeState) (b : Block) (vs : List Visit),
    ga.id = n → ns.mem ga.ptr = some b → b.record = .written ⟨1, 0⟩ n → run (stepVisit n env ga) ns vs = some ns' →
    ∀ (size : UInt64) (data : Word) (A : NodeId) (me : NodeState) (env' : Env),
      ∃ out, visit n env ga ns' (.write size data A) = some out ∧ Handshake A me env' ⟨size, data, ga⟩ out := by
  intro h
  have hsome :
    (run (stepVisit 3000 ⟨0, none⟩ ⟨8, 4096, 3000⟩) writtenHome [.read 1500]).isSome = true := by decide +kernel
  obtain ⟨ns', hrun⟩ := Option.isSome_iff_exists.mp hsome
  obtain ⟨out, hout, henters, -⟩ :=
    h 3000 ⟨0, none⟩ ⟨8, 4096, 3000⟩ writtenHome ns' ⟨8, .written ⟨1, 0⟩ 3000⟩ [.read 1500]
    rfl rfl rfl hrun 8 ⟨2, 5⟩ 1000 writtenHome ⟨0, none⟩
  have hlist : (run (stepVisit 3000 ⟨0, none⟩ ⟨8, 4096, 3000⟩) writtenHome [.read 1500]).map (fun ns' =>
      (visit 3000 ⟨0, none⟩ ⟨8, 4096, 3000⟩ ns' (.write 8 ⟨2, 5⟩ 1000)).map fun out =>
        (out.replies.head?, out.invalidated)) =
      some (some (some (.invalidate ⟨8, 4096, 3000, 1000⟩), some [1500])) := by
    decide +kernel
  simp only [hrun, Option.map_some, hout, Option.some.injEq, Prod.mk.injEq] at hlist
  rw [enters_iff, hlist.1, hlist.2] at henters
  simp at henters

theorem handshake_own_read :
    ∃ ns' out, run (stepVisit 3000 ⟨0, none⟩ ⟨8, 4096, 3000⟩) writtenHome [.read 1000] = some ns' ∧
    visit 3000 ⟨0, none⟩ ⟨8, 4096, 3000⟩ ns' (.write 8 ⟨2, 5⟩ 1000) = some out ∧
    Handshake 1000 writtenHome ⟨0, none⟩ ⟨8, ⟨2, 5⟩, ⟨8, 4096, 3000⟩⟩ out := by
  have hsome :
    (run (stepVisit 3000 ⟨0, none⟩ ⟨8, 4096, 3000⟩) writtenHome [.read 1000]).isSome = true := by decide +kernel
  obtain ⟨ns', hrun⟩ := Option.isSome_iff_exists.mp hsome
  obtain ⟨out, hout, hshake⟩ :=
    (@handshake_iff 3000 ⟨0, none⟩ ⟨8, 4096, 3000⟩ writtenHome _ ⟨8, .written ⟨1, 0⟩ 3000⟩ _ rfl rfl
    hrun 8 ⟨2, 5⟩ 1000 writtenHome ⟨0, none⟩).mpr (Or.inr rfl)
  exact ⟨ns', out, hrun, hout, hshake⟩

end
end CacheCoherence.Protocol
