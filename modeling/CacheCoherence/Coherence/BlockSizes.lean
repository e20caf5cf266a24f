import CacheCoherence.Coherence.Reclaim

/-! # Records inside their blocks

`Malloc` adds the size of a record to the size it is asked for and hands the sum to `malloc(3)`. The block has
exactly as many bytes as that sum, which is taken modulo `2 ^ 64`.
-/
namespace CacheCoherence.Protocol
open TransitionRuns

/-- `sizeof(defs::SaveData)`: the value, the state, the owner and a vector of three pointers. -/
def sizeofSaveData : UInt64 := 40

def msize (size : UInt64) : UInt64 := size + sizeofSaveData

def Block.length (b : Block) : ℕ := (msize b.size).toNat

def Roomy (size : UInt64) : Prop := size.toNat + sizeofSaveData.toNat ≤ (msize size).toNat

def Request.accesses (n : NodeId) : Request → Option UInt64
  | .read sga | .free sga => if sga.id = n then some sga.ptr else none
  | .write sd => if sd.sga.id = n then some sd.sga.ptr else none
  | _ => none

/-- The record of its own memory that the thread of `n` goes to in its next step: in `performRead`, `performWrite`,
`Node::write`, `Node::read` and `Node::Free`, or in a handler. -/
def State.accesses (s : State) (n : NodeId) : Option UInt64 :=
  match (s.node n).ctl with
  | .access a => if a.ga.id = n then some a.ga.ptr else none
  | .memcpy d => some d.ga.ptr
  | .free ga => if ga.id = n then some ga.ptr else none
  | .setLock (.release (.read _ (.record ptr))) => some ptr
  | .closing (.setLock (.release (.read _ (.record ptr)))) _ => some ptr
  | .serving c =>
    match s.net c with
    | some ch => if ch.peer = n then ch.up.bind (Request.accesses n) else none
    | none => none
  | .startInvalidations _ d _ _ => some d.ga.ptr
  | _ => none

def State.mallocs (s : State) (n : NodeId) : Option UInt64 :=
  match (s.node n).ctl with
  | .malloc size => some size
  | .serving c =>
    match s.net c with
    | some ch =>
      match ch.up with
      | some (.malloc sga) => if ch.peer = n then some sga.size else none
      | _ => none
    | none => none
  | _ => none

def State.allocates (s : State) : Action → Option UInt64
  | .exec n env => env.block.bind fun _ => s.mallocs n
  | _ => none

def SumFits (s : State) (a : Action) : Prop :=
  ∀ size, s.allocates a = some size → size.toNat + sizeofSaveData.toNat < 2 ^ 64

/-- Every block that has been allocated has room for its record and its data, the address that a `Malloc` has returned
is that of such a block, of the size it was asked for, and every access of a record lies inside its block. -/
structure Housed (s : State) : Prop where
  allocated : ∀ ga w, .alloc ga w ∈ s.log → Roomy ga.size
  returned : ∀ pre n ga post, s.log = pre ++ .ret n (.malloc ga) :: post →
    Open n (.malloc ga.size) pre ∧ ∃ w, .alloc ga w ∈ pre
  blocks : ∀ n ptr b, (s.node n).mem ptr = some b → b.size.toNat + sizeofSaveData.toNat ≤ b.length
  inside : ∀ n ptr b, s.accesses n = some ptr → (s.node n).mem ptr = some b → sizeofSaveData.toNat ≤ b.length

def MallocAnswers (s : State) : Prop := ∀ n size ch sga, (s.node n).ctl = .exchange .waiting (.malloc size) →
  s.net n = some ch → .address sga ∈ ch.down → sga.size = size ∧ ∃ w, .alloc (.ofSendable sga) w ∈ s.log

section
variable {s t : State} {n m p : NodeId} {e : Effect} {env : Env} {x : Ctl} {a : Action} {ga : GlobalAddress}
variable {size ptr : UInt64} {b b' : Block}

theorem roomy_iff (size : UInt64) : Roomy size ↔ size.toNat + sizeofSaveData.toNat < 2 ^ 64 := by
  have hlt := size.toNat_lt
  have hsum : (msize size).toNat = (size.toNat + 40) % 2 ^ 64 := UInt64.toNat_add size 40
  have hrecord : sizeofSaveData.toNat = 40 := rfl
  rw [Roomy, hsum, hrecord]
  omega

theorem mallocs_eq_some : s.mallocs n = some size ↔ (s.node n).ctl = .malloc size ∨
    ∃ c ch sga, (s.node n).ctl = .serving c ∧ s.net c = some ch ∧ ch.peer = n ∧ ch.up = some (.malloc sga) ∧
      sga.size = size := by
  constructor
  · intro h
    unfold State.mallocs at h
    split at h
    · rename_i size' hctl
      rw [hctl, Option.some.inj h]
      exact Or.inl rfl
    · rename_i c hctl
      split at h
      · rename_i ch hch
        split at h
        · rename_i sga hup
          split at h
          · rename_i hpeer
            exact Or.inr ⟨c, ch, sga, hctl, hch, hpeer, hup, Option.some.inj h⟩
          · cases h
        · cases h
      · cases h
    · cases h
  · rintro (hctl | ⟨c, ch, sga, hctl, hch, hpeer, hup, hsize⟩)
    · simp [State.mallocs, hctl]
    · simp [State.mallocs, hctl, hch, hup, hpeer, hsize]

theorem Moves.allocates (h : Moves s n env (s.node n).ctl e) (ha : s.allocates (.exec n env) = some size) :
    ∃ ptr record, e.self.mem ptr = some ⟨size, record⟩ := by
  obtain ⟨⟨ptr, content⟩, hblock, ha⟩ := Option.bind_eq_some_iff.mp ha
  rcases mallocs_eq_some.mp ha with hctl | ⟨c, ch, sga, hctl, hch, -, hup, rfl⟩
  · rw [hctl] at h
    cases h with
    | connect _ _ hopen =>
      cases hopen with
      | malloc _ hnone => cases hblock.symm.trans hnone
    | mallocLocal _ ptr' content' _ => exact ⟨ptr', stampRecord s.clock content', Function.update_self ..⟩
    | misread _ _ _ _ _ _ hmis => cases hmis
  · rw [hctl] at h
    cases h with
    | connect _ _ hopen => cases hopen
    | misread _ _ _ _ _ _ hmis => cases hmis
    | serve _ ch' r _ hch' _ hup' hs =>
      obtain rfl := Option.some.inj (hch.symm.trans hch')
      obtain rfl := Option.some.inj (hup.symm.trans hup')
      cases hs with
      | malloc _ ptr' content' _ => exact ⟨ptr', stampRecord s.clock content', Function.update_self ..⟩
      | forward _ hf =>
        cases hf with
        | malloc _ hnone => cases hblock.symm.trans hnone

theorem copyRecord_size {ns : NodeState} {q : UInt64} {r : SaveData Word} (h : (ns.copyRecord ptr r).mem q = some b) :
    ∃ b', ns.mem q = some b' ∧ b'.size = b.size := by
  by_cases hq : q = ptr
  · subst hq
    rw [NodeState.copyRecord_mem_self] at h
    obtain ⟨b', hb', rfl⟩ := Option.map_eq_some_iff.mp h
    exact ⟨b', hb', rfl⟩
  · rw [NodeState.copyRecord_mem_ne hq] at h
    exact ⟨b, h, rfl⟩

theorem allocates_of_asked {block : UInt64 × SaveData UInt64} (hx : (s.node n).ctl = x)
    (hblock : env.block = some block)
    (hasked : x = .malloc size ∨ ∃ c ch sga, x = .serving c ∧ s.net c = some ch ∧ ch.peer = n ∧
      ch.up = some (.malloc sga) ∧ sga.size = size) :
    s.allocates (.exec n env) = some size := by
  subst hx
  exact Option.bind_eq_some_iff.mpr ⟨block, hblock, mallocs_eq_some.mpr hasked⟩

inductive Touches (s : State) (n : NodeId) (env : Env) (mem : UInt64 → Option Block) : Prop where
  | same : mem = (s.node n).mem → Touches s n env mem
  | record (ptr : UInt64) (r : SaveData Word) : s.accesses n = some ptr → mem = ((s.node n).copyRecord ptr r).mem →
      Touches s n env mem
  | alloc (size ptr : UInt64) (content : SaveData UInt64) (r : SaveData Word) : s.allocates (.exec n env) = some size →
      env.block = some (ptr, content) → mem = Function.update (s.node n).mem ptr (some ⟨size, r⟩) → Touches s n env mem
  | free (ptr : UInt64) : mem = Function.update (s.node n).mem ptr none → Touches s n env mem

theorem Moves.touches (hx : (s.node n).ctl = x) (h : Moves s n env x e) : Touches s n env e.self.mem := by
  cases h with
  | lockGrant => exact .same (by rw [NodeState.lockAnswer_fst]; rfl)
  | closed => exact .same (by rw [NodeState.closed_fst]; rfl)
  | swept ga y =>
    cases y with
    | startInvalidations => exact .same (NodeState.endSession_mem ..)
    | _ => exact .same rfl
  | memcpy d => exact .record d.ga.ptr _ (by simp [State.accesses, hx]) rfl
  | startInvalidations c d => exact .record d.ga.ptr _ (by simp [State.accesses, hx]) rfl
  | mallocLocal size ptr content hblock =>
    exact .alloc size ptr content _ (allocates_of_asked hx hblock (Or.inl rfl)) hblock rfl
  | discardOwn ga => exact .free ga.ptr rfl
  | discardFor ga => exact .free ga.ptr rfl
  | serve c ch r e hch hpeer hup hs =>
    have haccess : ∀ ptr, r.accesses n = some ptr → s.accesses n = some ptr := by
      intro ptr hptr
      simp [State.accesses, hx, hch, hpeer, hup, hptr]
    cases hs with
    | malloc sga ptr content hblock =>
      exact .alloc sga.size ptr content _
        (allocates_of_asked hx hblock (Or.inr ⟨c, ch, sga, rfl, hch, hpeer, hup, rfl⟩)) hblock rfl
    | read sga b hid => exact .record sga.ptr _ (haccess _ (by simp [Request.accesses, hid])) rfl
    | write sd b hid => exact .record sd.sga.ptr _ (haccess _ (by simp [Request.accesses, hid])) rfl
    | reset => exact .same (NodeState.endSession_mem ..)
    | _ => exact .same rfl
  | _ => exact .same rfl

theorem Touches.block {mem : UInt64 → Option Block} (h : Touches s n env mem) {q : UInt64} (hb : mem q = some b) :
    (∃ b', (s.node n).mem q = some b' ∧ b'.size = b.size) ∨ s.allocates (.exec n env) = some b.size := by
  cases h with
  | same hmem => exact Or.inl ⟨b, by rw [← hmem, hb], rfl⟩
  | record ptr r _ hmem =>
    rw [hmem] at hb
    exact Or.inl (copyRecord_size hb)
  | alloc size ptr content r ha _ hmem =>
    rw [hmem] at hb
    by_cases hq : q = ptr
    · subst hq
      rw [Function.update_self] at hb
      cases hb
      exact Or.inr ha
    · rw [Function.update_of_ne hq] at hb
      exact Or.inl ⟨b, hb, rfl⟩
  | free ptr hmem =>
    rw [hmem] at hb
    by_cases hq : q = ptr
    · subst hq
      simp at hb
    · rw [Function.update_of_ne hq] at hb
      exact Or.inl ⟨b, hb, rfl⟩

theorem Moves.accesses (hx : (s.node n).ctl = x) (hsound : env.sound (s.node n) = true) (h : Moves s n env x e)
    {q : UInt64}
    (hb : (s.node n).mem q = some b) (hb' : e.self.mem q = some b') (hne : b ≠ b') : s.accesses n = some q := by
  have hchanged : e.self.mem q ≠ (s.node n).mem q := by
    rw [hb, hb']
    exact fun heq => hne (Option.some.inj heq).symm
  cases h.touches hx with
  | same hmem => exact absurd (by rw [hmem]) hchanged
  | record ptr r haccess hmem =>
    have hq : q = ptr := by
      by_contra hq
      exact hchanged (by rw [hmem, NodeState.copyRecord_mem_ne hq])
    rw [hq, haccess]
  | alloc size ptr content r _ hblock hmem =>
    have hnone : (s.node n).mem ptr = none := by
      simp [Env.sound, hblock] at hsound
      exact hsound.2
    have hq : q ≠ ptr := by
      rintro rfl
      cases hb.symm.trans hnone
    exact absurd (by rw [hmem, Function.update_of_ne hq]) hchanged
  | free ptr hmem =>
    have hq : q ≠ ptr := by
      rintro rfl
      rw [hmem, Function.update_self] at hb'
      cases hb'
    exact absurd (by rw [hmem, Function.update_of_ne hq]) hchanged

theorem MallocAnswers.moves (hS : Sessions s) (h : MallocAnswers s) (hx : (s.node p).ctl = x) (hm : Moves s p env x e) :
    MallocAnswers (e.apply s p) := by
  intro n size ch sga hctl hch hdown
  obtain ⟨hctl, hold | ⟨d, hy⟩ | ⟨ga, srcID, hreq, -⟩ | ⟨-, hwire, hs⟩⟩ :=
    hm.replied hS hx hctl hch (List.ne_nil_of_mem hdown)
  · obtain ⟨hsize, w, hw⟩ := h n size ch sga hctl hold hdown
    exact ⟨hsize, w, List.mem_append_left _ hw⟩
  · cases hy
  · cases hreq
  · cases hs with
    | malloc sga' ptr content hblock =>
      cases hwire
      obtain rfl : sga = _ := Reply.address.inj (List.mem_singleton.mp hdown)
      exact ⟨rfl, _, List.mem_append_right _ List.mem_cons_self⟩
    | forward _ hf =>
      cases hwire
      cases hdown

theorem MallocAnswers.steps (hS : Sessions s) (h : MallocAnswers s) (hs : Steps s a t) : MallocAnswers t := by
  cases hs with
  | begin p op hidle hsp =>
    intro n size ch sga hctl hch hdown
    have hnp : n ≠ p := by
      rintro rfl
      rw [State.begun_self] at hctl
      cases op <;> cases hctl
    rw [State.begun_ne hnp] at hctl
    obtain ⟨hsize, w, hw⟩ := h n size ch sga hctl hch hdown
    exact ⟨hsize, w, List.mem_append_left _ hw⟩
  | accept m c y hc hm hidle =>
    intro n size ch sga hctl hch hdown
    by_cases hnc : n = c
    · subst hnc
      rw [State.accepted_client] at hctl
      cases hctl
    · by_cases hnm : n = m
      · subst hnm
        rw [State.accepted_server hnc] at hctl
        cases hctl
      · rw [State.accepted_ne hnc hnm] at hctl
        rw [State.accepted_net_ne hnc] at hch
        exact h n size ch sga hctl hch hdown
  | exec p env e _ hm => exact h.moves hS rfl hm

theorem LockSite.op_ne_malloc (k : LockSite) (size : UInt64) : k.op ≠ .malloc size := by
  cases k with
  | acquire a => cases a <;> nofun
  | release a => cases a <;> nofun
  | call l => nofun

theorem op_of_calling {ns : NodeState} (h : ns.calling = some (.malloc size)) : ns.ctl.op = some (.malloc size) := by
  unfold NodeState.calling at h
  split at h
  · cases h
  · exact h

theorem Moves.ends_malloc (hsus : Suspends s) (h : Moves s n env (s.node n).ctl e) {fs post : List Event}
    (hr : e.events = fs ++ .ret m (.malloc ga) :: post) :
    m = n ∧ (∀ ev ∈ fs, ev.inner = true) ∧ ∃ size, (s.node n).calling = some (.malloc size) := by
  rcases h.proceeds hsus rfl with ⟨-, hin⟩ | ⟨es, o, op, hes, hin, hcall, ho, -⟩
  · have hmem : .ret m (.malloc ga) ∈ e.events := by simp [hr]
    cases hin _ hmem
  · rcases split_append (hes.symm.trans hr) with ⟨post', hes', -⟩ | ⟨gs, rfl, hgs⟩
    · have hmem : .ret m (.malloc ga) ∈ es := by simp [hes']
      cases hin _ hmem
    · cases gs with
      | cons ev gs => simp at hgs
      | nil =>
        cases hgs
        refine ⟨rfl, by simpa using hin, ?_⟩
        cases op with
        | malloc size => exact ⟨size, hcall⟩
        | _ => cases ho

theorem Moves.returns_malloc (hA : MallocAnswers s) (hx : (s.node n).ctl = x) (h : Moves s n env x e)
    (hop : x.op = some (.malloc size)) {fs post : List Event} (hr : e.events = fs ++ .ret n (.malloc ga) :: post) :
    ga.size = size ∧ ∃ w, .alloc ga w ∈ s.log ++ fs := by
  cases h with
  | mallocLocal size' ptr content =>
    cases hop
    cases fs with
    | nil => cases hr
    | cons ev fs =>
      obtain ⟨rfl, hr⟩ := List.cons.inj hr
      cases fs with
      | nil =>
        cases hr
        exact ⟨rfl, _, List.mem_append_right _ List.mem_cons_self⟩
      | cons ev fs => simp at hr
  | mallocReturn size' sga rest ch hch hd =>
    cases hop
    cases fs with
    | nil =>
      cases hr
      obtain ⟨hsize, w, hw⟩ := hA n size ch sga hx hch (by simp [hd])
      exact ⟨hsize, w, by simpa using hw⟩
    | cons ev fs => simp at hr
  | lockGrant k => exact absurd (Option.some.inj hop) (k.op_ne_malloc size)
  | closed y r =>
    cases y with
    | malloc size' => simp [NodeState.closed] at hr
    | setLock k => exact absurd (Option.some.inj hop) (k.op_ne_malloc size)
    | invalidate _ _ _ y => cases y <;> cases hop
    | _ => cases hop
  | swept ga y => cases y <;> cases hop
  | memcpy | discardOwn | discardFor | serve | startInvalidations => cases hop
  | _ => simp [Protocol.connect] at hr

theorem Moves.alloc_event (hx : (s.node n).ctl = x) (h : Moves s n env x e) {w : Word} (hw : .alloc ga w ∈ e.events) :
    s.allocates (.exec n env) = some ga.size := by
  cases h with
  | lockGrant k locks granted =>
    simp only [List.mem_cons, reduceCtorEq, false_or] at hw
    cases lockAnswer_onMemory _ _ _ _ hw
  | closed y r => cases closed_onMemory _ _ _ _ hw
  | swept ga y => cases y <;> cases hw
  | mallocLocal size ptr content hblock =>
    simp only [List.mem_cons, reduceCtorEq, List.not_mem_nil, or_false] at hw
    cases hw
    exact allocates_of_asked hx hblock (Or.inl rfl)
  | serve c ch r e hch hpeer hup hs =>
    cases hs with
    | malloc sga ptr content hblock =>
      cases List.mem_singleton.mp hw
      exact allocates_of_asked hx hblock (Or.inr ⟨c, ch, sga, rfl, hch, hpeer, hup, rfl⟩)
    | _ => simp [Protocol.forward] at hw
  | _ => simp [Protocol.connect] at hw

structure Answering (s : State) : Prop where
  sessions : Sessions s
  suspends : Suspends s
  calls : Calls s
  answers : MallocAnswers s

theorem Answering.steps (h : Answering s) (hs : Steps s a t) : Answering t :=
  ⟨h.sessions.steps hs, h.suspends.steps hs, h.calls.steps h.suspends hs, h.answers.steps h.sessions hs⟩

theorem Housed.returned_exec (h : Housed s) (hJ : Answering s) (hm : Moves s n env (s.node n).ctl e)
    (pre : List Event) (m : NodeId) (ga : GlobalAddress) (post : List Event)
    (hlog : (e.apply s n).log = pre ++ .ret m (.malloc ga) :: post) :
    Open m (.malloc ga.size) pre ∧ ∃ w, .alloc ga w ∈ pre := by
  rcases split_append hlog with ⟨post', hold, -⟩ | ⟨fs, rfl, hes⟩
  · exact h.returned pre m ga post' hold
  · obtain ⟨rfl, hin, size, hcall⟩ := hm.ends_malloc hJ.suspends hes
    obtain ⟨rfl, hw⟩ := hm.returns_malloc hJ.answers rfl (op_of_calling hcall) hes
    have hopen := hJ.calls.opened m _ hcall
    refine ⟨hopen.append (fun op hmem => ?_) fun o hmem => ?_, hw⟩
    · cases hin _ hmem
    · cases hin _ hmem

/-- A step keeps the records inside their blocks exactly if the size that it allocates does not wrap. -/
theorem housed_steps (hJ : Answering s) (h : Housed s) (hs : Steps s a t) : Housed t ↔ SumFits s a := by
  constructor
  · intro ht size ha
    cases hs with
    | exec n env e _ hm =>
      obtain ⟨ptr, record, hb⟩ := hm.allocates ha
      have hroom := ht.blocks n ptr _ (by rw [Effect.apply_self, hb])
      exact (roomy_iff size).mp hroom
    | _ => cases ha
  · intro hfits
    have hblocks : ∀ n ptr b, (t.node n).mem ptr = some b → b.size.toNat + sizeofSaveData.toNat ≤ b.length := by
      intro n ptr b hb
      cases hs with
      | begin p op =>
        rw [State.begun_node] at hb
        exact h.blocks n ptr b hb
      | accept m c y =>
        rw [State.accepted_node] at hb
        exact h.blocks n ptr b hb
      | exec p env e _ hm =>
        by_cases hnp : n = p
        · subst hnp
          rw [Effect.apply_self] at hb
          rcases (hm.touches rfl).block hb with ⟨b', hb', hsize⟩ | ha
          · have hroom := h.blocks n ptr b' hb'
            rwa [Block.length, hsize] at hroom
          · exact (roomy_iff b.size).mpr (hfits _ ha)
        · rw [Effect.apply_ne hnp] at hb
          exact h.blocks n ptr b hb
    refine ⟨fun ga w hw => ?_, ?_, hblocks, fun n ptr b _ hb => (Nat.le_add_left _ _).trans (hblocks n ptr b hb)⟩
    · cases hs with
      | begin p op => exact h.allocated ga w (by simpa using hw)
      | accept m c y => exact h.allocated ga w hw
      | exec p env e _ hm =>
        rcases List.mem_append.mp hw with hw | hw
        · exact h.allocated ga w hw
        · exact (roomy_iff ga.size).mpr (hfits _ (hm.alloc_event rfl hw))
    · cases hs with
      | begin p op =>
        intro pre n ga post hlog
        rw [State.begun_log] at hlog
        obtain ⟨post', hold, -⟩ := split_old hlog (by simp)
        exact h.returned pre n ga post' hold
      | accept m c y => exact h.returned
      | exec p env e _ hm => exact h.returned_exec hJ hm

end

theorem answering_unallocated : Answering unallocated where
  sessions := reclaims_unallocated.sessions
  suspends := reclaims_unallocated.suspends
  calls := reclaims_unallocated.calls
  answers := fun _ _ _ _ _ hch => by cases hch

theorem housed_unallocated : Housed unallocated where
  allocated := fun _ _ hw => by cases hw
  returned := fun _ _ _ _ hlog => by simp [unallocated, State.start] at hlog
  blocks := fun _ _ _ hb => by cases hb
  inside := fun _ _ _ _ hb => by cases hb

/-- In a run that begins with no memory allocated, the records are inside their blocks exactly as long as no size wraps
for which there is memory. -/
theorem housed_iff (as : List Action) : Always step Housed unallocated as ↔ Meets step SumFits unallocated as := by
  refine always_iff_meets (J := Answering) (fun s a t hJ _ hs _ => ?_)
    (fun s a t hJ h hs => ?_) answering_unallocated housed_unallocated
  · exact hJ.steps (steps_of_step hs)
  · exact housed_steps hJ h (steps_of_step hs)

/-- Node 3000 asks for all but eight of `2 ^ 64` bytes, and gets a block of 32. -/
def wrappedMalloc : List Action :=
  [.begin 3000 (.malloc 0xfffffffffffffff8), .exec 3000 ⟨0, some (4096, .written 0 3000)⟩]

theorem wrapped_not_housed : ¬ ∀ as, Always step Housed unallocated as := by
  intro h
  have hend :
      (run step unallocated wrappedMalloc).all (fun t =>
        decide (((t.node 3000).mem 4096).map Block.length = some 32)) = true ∧
      (run step unallocated wrappedMalloc).isSome = true := by decide +kernel
  obtain ⟨t, ht⟩ := Option.isSome_iff_exists.mp hend.2
  have hlength := hend.1
  rw [ht, Option.all_some, decide_eq_true_eq] at hlength
  obtain ⟨b, hb, hlength⟩ := Option.map_eq_some_iff.mp hlength
  have hroom := (always_iff_passed.mp (h wrappedMalloc) wrappedMalloc t (List.prefix_refl _) ht).blocks 3000 4096 b hb
  have hrecord : sizeofSaveData.toNat = 40 := rfl
  omega

end CacheCoherence.Protocol
