import CacheCoherence.Coherence.Crashes
import CacheCoherence.Coherence.Reclaim
import CacheCoherence.Coherence.SharedMemoryRefinement
import CacheCoherence.Protocol.Progress
import CacheCoherence.Protocol.SessionEnd

/-! # Addresses between Malloc and Free

A program that uses an address only while it is allocated, and frees it only when no other call uses it, is safe as
long as no network operation throws: no thread of the nodes follows a dangling pointer or frees a block twice, none
crashes unless a cache is full, and no server waits for a client that is gone. The argument is one about the shared
memory, in which a call goes to one cell.
-/
namespace CacheCoherence.Protocol
open TransitionRuns Traces

def Op.place : Op Word → Option GlobalAddress
  | .read ga | .free ga => some ga
  | .write d => some d.ga
  | .malloc _ | .setLock _ => none

def Op.isFree : Op Word → Bool
  | .free _ => true
  | _ => false

def Call.target (c : Call) : Option GlobalAddress :=
  match c.op, c.stage with
  | .read ga, .called | .read ga, .entered | .free ga, .called => some ga
  | .write d, .called | .write d, .entered => some d.ga
  | _, _ => none

def SameCell (ga ga' : GlobalAddress) : Prop := ga.id = ga'.id ∧ ga.ptr = ga'.ptr

namespace Memory

/-- The cell of every call is there, and no other call goes to the cell that a Free is about. -/
structure Owned (M : Memory) : Prop where
  alive : ∀ n c ga, M.calls n = some c → c.target = some ga → M.cells ga.id ga.ptr ≠ none
  apart : ∀ n m c d ga ga', n ≠ m → M.calls n = some c → M.calls m = some d → c.op.isFree = true →
    c.target = some ga → d.target = some ga' → ¬ SameCell ga ga'

/-- A call that a careful program may make: its cell is there, and no call in progress frees the cell, nor goes to it
when this call frees it. -/
structure Admits (M : Memory) (op : Op Word) : Prop where
  alive : ∀ ga, op.place = some ga → M.cells ga.id ga.ptr ≠ none
  apart : ∀ m c ga ga', M.calls m = some c → op.place = some ga → c.target = some ga' → SameCell ga ga' →
    op.isFree = false ∧ c.op.isFree = false

section
variable {M N : Memory} {n : NodeId} {c d : Call} {ev : Event} {ga : GlobalAddress} {w : Word} {op : Op Word}

theorem Admits.congr (h : M.Admits op) (hcells : N.cells = M.cells) (hcalls : N.calls = M.calls) : N.Admits op := by
  constructor
  · rw [hcells]
    exact h.alive
  · rw [hcalls]
    exact h.apart

theorem Owned.shrink (h : M.Owned)
    (hcalls : ∀ m d ga, N.calls m = some d → d.target = some ga → ∃ c, M.calls m = some c ∧ c.op = d.op ∧
      c.target = some ga)
    (hcells : ∀ m d ga, N.calls m = some d → d.target = some ga → M.cells ga.id ga.ptr ≠ none →
      N.cells ga.id ga.ptr ≠ none) : N.Owned where
  alive m d ga hd hga := by
    obtain ⟨c, hc, -, hcga⟩ := hcalls m d ga hd hga
    exact hcells m d ga hd hga (h.alive m c ga hc hcga)
  apart m p d e ga ga' hne hd he hfree hga hga' := by
    obtain ⟨c, hc, hop, hcga⟩ := hcalls m d ga hd hga
    obtain ⟨c', hc', -, hcga'⟩ := hcalls p e ga' he hga'
    exact h.apart m p c c' ga ga' hne hc hc' (hop ▸ hfree) hcga hcga'

theorem Owned.put (h : M.Owned) (hc : M.calls n = some c) (hop : c.op = d.op)
    (ht : ∀ ga, d.target = some ga → c.target = some ga) : (M.put n (some d)).Owned := by
  refine h.shrink (fun m e ga he hga => ?_) fun _ _ _ _ _ hcell => hcell
  by_cases hm : m = n
  · subst hm
    rw [put_calls_self] at he
    cases he
    exact ⟨c, hc, hop, ht ga hga⟩
  · rw [put_calls_ne hm] at he
    exact ⟨e, he, rfl, hga⟩

theorem Owned.put_none (h : M.Owned) : (M.put n none).Owned := by
  refine h.shrink (fun m e ga he hga => ?_) fun _ _ _ _ _ hcell => hcell
  by_cases hm : m = n
  · subst hm
    rw [put_calls_self] at he
    cases he
  · rw [put_calls_ne hm] at he
    exact ⟨e, he, rfl, hga⟩

theorem Owned.set (h : M.Owned) : (M.set ga (some w)).Owned := by
  refine h.shrink (fun m e ga he hga => ⟨e, he, rfl, hga⟩) fun _ _ _ _ _ hcell => ?_
  rw [Memory.set]
  dsimp only
  split
  · simp
  · exact hcell

theorem Owned.freed (h : M.Owned) (hc : M.calls n = some ⟨.free ga, .called, none⟩) :
    ((M.set ga none).put n (some ⟨.free ga, .applied ga.freed, none⟩)).Owned := by
  have hothers : ∀ m d ga', ((M.set ga none).put n (some ⟨.free ga, .applied ga.freed, none⟩)).calls m = some d →
      d.target = some ga' → m ≠ n ∧ M.calls m = some d := by
    intro m d ga' hd hga'
    by_cases hm : m = n
    · subst hm
      rw [put_calls_self] at hd
      cases hd
      cases hga'
    · rw [put_calls_ne hm] at hd
      exact ⟨hm, hd⟩
  refine h.shrink (fun m d ga' hd hga' => ⟨d, (hothers m d ga' hd hga').2, rfl, hga'⟩) fun m d ga' hd hga' hcell => ?_
  obtain ⟨hm, hd⟩ := hothers m d ga' hd hga'
  have hcells : ¬ (ga'.id = ga.id ∧ ga'.ptr = ga.ptr) := fun hsame =>
    h.apart n m _ d ga ga' (Ne.symm hm) hc hd rfl rfl hga' ⟨hsame.1.symm, hsame.2.symm⟩
  rw [put_cells, Memory.set]
  dsimp only
  rw [if_neg hcells]
  exact hcell

theorem target_answered {st : Stage} {l : Lock} {g : Bool} {a : Option Bool}
    (hl : Call.asks ⟨op, st, none⟩ = some l)
    (h : Call.target ⟨op, Call.answered ⟨op, st, none⟩ g, none⟩ = some ga) : Call.target ⟨op, st, a⟩ = some ga := by
  cases op with
  | read ga' => cases st <;> cases g <;> first | cases hl; done | cases h; done | exact h
  | write d => cases st <;> cases g <;> first | cases hl; done | cases h; done | exact h
  | free ga' => cases hl
  | malloc size => cases hl
  | setLock l => cases h

theorem Owned.call (h : M.Owned) (hnone : M.calls n = none) (ha : M.Admits op) :
    (M.put n (some ⟨op, .called, none⟩)).Owned := by
  have hplace : ∀ ga, Call.target ⟨op, .called, none⟩ = some ga → op.place = some ga := by
    intro ga hga
    cases op <;> exact hga
  constructor
  · intro m d ga hd hga
    by_cases hm : m = n
    · subst hm
      rw [put_calls_self] at hd
      cases hd
      exact ha.alive ga (hplace ga hga)
    · rw [put_calls_ne hm] at hd
      exact h.alive m d ga hd hga
  · intro m p d e ga ga' hne hd he hfree hga hga' hsame
    by_cases hm : m = n
    · subst hm
      rw [put_calls_self] at hd
      rw [put_calls_ne (Ne.symm hne)] at he
      cases hd
      have hfrees := (ha.apart p e ga ga' he (hplace ga hga) hga' hsame).1
      rw [hfree] at hfrees
      cases hfrees
    · rw [put_calls_ne hm] at hd
      by_cases hp : p = n
      · subst hp
        rw [put_calls_self] at he
        cases he
        have hfrees := (ha.apart m d ga' ga hd (hplace ga' hga') hga ⟨hsame.1.symm, hsame.2.symm⟩).2
        rw [hfree] at hfrees
        cases hfrees
      · rw [put_calls_ne hp] at he
        exact h.apart m p d e ga ga' hne hd he hfree hga hga' hsame

theorem Does.owned (h : M.Does ev N) (hM : M.Owned) (ha : ∀ n op, ev = .call n op → M.Admits op) : N.Owned := by
  cases h with
  | call n op hnone => exact hM.call hnone (ha n op rfl)
  | lock n op st l hc hl => exact Owned.put (M := M.setLock l) ⟨hM.alive, hM.apart⟩ hc rfl fun ga hga => hga
  | answered n op st l granted hc hl => exact hM.put hc rfl fun ga hga => target_answered hl hga
  | store n d hc hcell => exact hM.set.put hc rfl fun ga hga => by cases hga
  | alloc n ga w hc hcell => exact hM.set.put hc rfl fun ga hga => by cases hga
  | freed n ga hc => exact hM.freed hc
  | ret n op st o hc ho => exact hM.put_none

theorem owned_trace {es : List Event} (h : Trace Does M es N) (hM : M.Owned) (hnone : ∀ n op, .call n op ∉ es) :
    N.Owned := by
  induction h with
  | nil => exact hM
  | cons hd _ ih =>
    refine ih (hd.owned hM fun n op hev => ?_) fun n op hmem => hnone n op (List.mem_cons_of_mem _ hmem)
    exact absurd (hev ▸ List.mem_cons_self) (hnone n op)

end
end Memory

def State.view (s : State) : Memory := { s.memory with calls := s.ongoing }

/-- The cache of the node takes the item that the next step of the thread puts there. -/
def State.fits (s : State) (n : NodeId) : Prop :=
  match (s.node n).ctl with
  | .exchange .connected (.performWrite d) => d.ga.hash ∈ (s.node n).cache.items ∨ (s.node n).cache.Takes d.ga.size
  | .exchange .waiting (.performRead ga) => (s.node n).cache.Takes ga.size
  | _ => True

/-- A step in the run of a careful program: its calls are admitted, `malloc(3)` returns blocks with one of the known
states in them, no Malloc returns from its remote branch, and the caches have room. -/
structure Careful (s : State) (a : Action) : Prop where
  admits : ∀ n op, a = .begin n op → s.view.Admits (op.stamp s.clock)
  fresh : ∀ n env block, a = .exec n env → env.block = some block → block.2.readable = true
  kept : ¬ ReturnsMalloc s a
  fits : ∀ n env, a = .exec n env → s.fits n

/-- What is known of every run of a careful program, of the nodes and of the shared memory that they are. -/
structure Safe (s : State) (M : Memory) : Prop where
  refined : Refined s M
  held : Held s
  owned : M.Owned
  released : Released s
  readable : ∀ n ptr b, (s.node n).mem ptr = some b → b.record.readable = true
  up : ∀ n, (s.node n).ctl ≠ .crashed

section
variable {s t : State} {n c : NodeId} {M : Memory} {a : Action} {x : Ctl} {ga : GlobalAddress} {e : Effect} {env : Env}
variable {d : Call} {ptr : UInt64} {b : Block} {ch : Channel}

theorem Safe.calls (h : Safe s M) : M.calls = s.ongoing := funext fun n => h.refined.mirrors.calls n (h.up n)

theorem Safe.cells (h : Safe s M) : M.cells = s.view.cells := by
  funext n ptr
  exact h.refined.mirrors.cells n ptr

theorem Safe.not_crashes (h : Safe s M) (hc : Careful s (.exec n env)) : ¬ Crashes s n := by
  intro hcrash
  have hfits := hc.fits n env rfl
  cases hcrash with
  | served c ch sga b _ _ _ _ hb hr =>
    rw [h.readable n sga.ptr b hb] at hr
    cases hr
  | returned ga b _ _ hb hr =>
    rw [h.readable n ga.ptr b hb] at hr
    cases hr
  | alters d hctl hkey htakes =>
    rw [State.fits, hctl] at hfits
    exact hfits.elim hkey htakes
  | adds ga hctl htakes =>
    rw [State.fits, hctl] at hfits
    exact htakes hfits

theorem Moves.readable (hS : Sessions s) (hm : Moves s n env (s.node n).ctl e)
    (hold : ∀ ptr b, (s.node n).mem ptr = some b → b.record.readable = true)
    (hfresh : ∀ block, env.block = some block → block.2.readable = true) (hb : e.self.mem ptr = some b) :
    b.record.readable = true := by
  have hcopy : ∀ q (r : SaveData Word), r.readable = true → ((s.node n).copyRecord q r).mem ptr = some b →
      b.record.readable = true := by
    intro q r hr hq
    by_cases hptr : ptr = q
    · subst hptr
      rw [NodeState.copyRecord_mem_self] at hq
      obtain ⟨b', -, rfl⟩ := Option.map_eq_some_iff.mp hq
      exact hr
    · rw [NodeState.copyRecord_mem_ne hptr] at hq
      exact hold ptr b hq
  have hmem := hm.memory hS rfl
  generalize (s.node n).ctl = x at hmem
  cases hmem with
  | same _ _ hsame =>
    rw [hsame] at hb
    exact hold ptr b hb
  | register c ga b' => exact hcopy _ _ rfl hb
  | take c d b' => exact hcopy _ _ rfl hb
  | takeShared c d nodes ch b' => exact hcopy _ _ rfl hb
  | memcpy d b' => exact hcopy _ _ rfl hb
  | alloc _ _ size q content es hask hblock hsame =>
    rw [hsame] at hb
    by_cases hptr : ptr = q
    · subst hptr
      rw [Function.update_self] at hb
      cases hb
      exact hfresh _ hblock
    · rw [Function.update_of_ne hptr] at hb
      exact hold ptr b hb
  | discard _ ga client es hsame =>
    rw [hsame] at hb
    by_cases hptr : ptr = ga.ptr
    · subst hptr
      rw [Function.update_self] at hb
      cases hb
    · rw [Function.update_of_ne hptr] at hb
      exact hold ptr b hb

theorem Safe.readable_steps (h : Safe s M) (hc : Careful s a) (hs : Steps s a t) (hb : (t.node n).mem ptr = some b) :
    b.record.readable = true := by
  cases hs with
  | begin p op hidle hsus =>
    rw [State.begun_node] at hb
    exact h.readable n ptr b hb
  | accept m c y hconn hm hidle =>
    rw [State.accepted_node] at hb
    exact h.readable n ptr b hb
  | exec p env e hsound hm =>
    by_cases hn : n = p
    · subst hn
      rw [Effect.apply_self] at hb
      exact hm.readable h.held.sessions (h.readable n) (hc.fresh n env · rfl) hb
    · rw [Effect.apply_ne hn] at hb
      exact h.readable n ptr b hb

theorem Safe.owned_steps (h : Safe s M) (hc : Careful s a) (hs : Steps s a t) {es : List Event} {M' : Memory}
    (hlog : t.log = s.log ++ es) (htrace : Trace Memory.Does M es M') : M'.Owned := by
  cases hs with
  | begin n op hidle hsus =>
    rw [State.begun_log] at hlog
    rw [← List.append_cancel_left hlog] at htrace
    cases htrace with
    | cons hd hrest =>
      cases hrest
      refine hd.owned h.owned fun m op' hev => ?_
      cases hev
      exact (hc.admits n op rfl).congr h.cells h.calls
  | accept m c y hconn hm hidle =>
    have hnil : es = [] := by simpa using hlog
    rw [hnil] at htrace
    exact Memory.owned_trace htrace h.owned fun _ _ => List.not_mem_nil
  | exec n env e hsound hm =>
    rw [Effect.apply_log] at hlog
    rw [← List.append_cancel_left hlog] at htrace
    exact Memory.owned_trace htrace h.owned (hm.no_call h.refined.suspends)

theorem Safe.steps (h : Safe s M) (hc : Careful s a) (hs : Steps s a t) : ∃ M', Safe t M' := by
  obtain ⟨es, M', hlog, htrace, hrefined⟩ := h.refined.steps hs
  refine ⟨M', hrefined, h.held.steps hs, h.owned_steps hc hs hlog htrace, ?_, fun n ptr b => h.readable_steps hc hs,
    fun n hdown => ?_⟩
  · exact (h.released.steps h.held.sessions hs).mpr hc.kept
  · obtain ⟨env, rfl, hcrash⟩ := hs.crashes h.held (h.up n) hdown
    exact h.not_crashes hc hcrash

theorem Safe.block (h : Safe s M) (hcall : s.ongoing n = some d) (ht : d.target = some ga) :
    (s.node ga.id).mem ga.ptr ≠ none := by
  intro hnone
  refine h.owned.alive n d ga (by rw [h.calls, hcall]) ht ?_
  rw [h.refined.mirrors.cells, hnone]
  rfl

theorem Safe.own (h : Safe s M) (hx : (s.node n).ctl = x) (ho : x.aside = false) :
    s.ongoing n = x.ongoing (s.net n) := by
  rw [State.ongoing, ongoing_of_own (h.refined.suspends.of_own hx ho), hx]

theorem Safe.asked (h : Safe s M) (hx : (s.node n).ctl = x) (ho : x.aside = false) (hch : s.net n = some ch)
    (hcall : x.ongoing (some ch) = some d) (ht : d.target = some ga) : (s.node ga.id).mem ga.ptr ≠ none :=
  h.block (by rw [h.own hx ho, hch, hcall]) ht

theorem Safe.served (h : Safe s M) (hx : (s.node n).ctl = .serving c) (hch : s.net c = some ch) (hpeer : ch.peer = n)
    {r : Request} (hup : ch.up = some r) (hr : r.accesses n = some ptr) : (s.node n).mem ptr ≠ none := by
  rcases (h.held.sessions.serving_link hx hch hpeer).of_up hup with ⟨y, hown, rfl, -, rfl⟩ | ⟨y, a, -, rfl, -⟩
  · cases y with
    | performRead ga =>
      obtain ⟨rfl, rfl⟩ : ga.id = n ∧ ga.ptr = ptr := by
        simpa [Exchange.request, Request.accesses, GlobalAddress.sendable] using hr
      exact h.asked hown rfl hch rfl rfl
    | performWrite d =>
      obtain ⟨rfl, rfl⟩ : d.ga.id = n ∧ d.ga.ptr = ptr := by
        simpa [Exchange.request, Request.accesses, Data.sendable, GlobalAddress.sendable] using hr
      exact h.asked hown rfl hch rfl rfl
    | free ga =>
      obtain ⟨rfl, rfl⟩ : ga.id = n ∧ ga.ptr = ptr := by
        simpa [Exchange.request, Request.accesses, GlobalAddress.sendable] using hr
      exact h.asked hown rfl hch rfl rfl
    | forward c' q => exact absurd ((h.held.sessions.stuck c).1 _ _ _ hown).1 (by simp)
    | _ => cases hr
  · cases hr

theorem Safe.taken (h : Safe s M) {d : Data Word} {nodes : List NodeId} {srcID : UInt16}
    (hx : (s.node n).ctl = .startInvalidations c d nodes srcID) : (s.node n).mem d.ga.ptr ≠ none := by
  have hid : d.ga.id = n := by
    have hin := h.refined.homed n
    rwa [hx] at hin
  obtain ⟨ch, hch, -, ho, hlink⟩ := h.held.sessions.client_link hx rfl (by simp)
  obtain ⟨-, ⟨sga, hown, rfl⟩ | ⟨hown, rfl⟩⟩ := hlink.of_startInvalidations ho
  all_goals
    have hblock := h.asked hown rfl hch rfl rfl
    rwa [hid] at hblock

theorem Safe.accesses (h : Safe s M) (hptr : s.accesses n = some ptr) : (s.node n).mem ptr ≠ none := by
  have hhomed := h.refined.homed n
  unfold State.accesses at hptr
  split at hptr
  · rename_i a hx
    split at hptr
    · rename_i hid
      cases hptr
      have htarget : Call.target ⟨a.op, .entered, none⟩ = some a.ga := by cases a <;> rfl
      have hblock := h.block (h.own hx rfl) htarget
      rwa [hid] at hblock
    · cases hptr
  · rename_i d hx
    cases hptr
    rw [hx] at hhomed
    have hblock := h.block (h.own hx rfl) rfl
    rwa [show d.ga.id = n from hhomed] at hblock
  · rename_i ga hx
    split at hptr
    · rename_i hid
      cases hptr
      have hblock := h.block (h.own hx rfl) rfl
      rwa [hid] at hblock
    · cases hptr
  · rename_i ga q hx
    cases hptr
    exact h.held.found n ga ptr (by rw [hx]; rfl)
  · rename_i ga q r hx
    cases hptr
    exact h.held.found n ga ptr (by rw [hx]; rfl)
  · rename_i c hx
    split at hptr
    · rename_i ch hch
      split at hptr
      · rename_i hpeer
        obtain ⟨r, hup, hr⟩ := Option.bind_eq_some_iff.mp hptr
        exact h.served hx hch hpeer hup hr
      · cases hptr
    · cases hptr
  · rename_i c d nodes srcID hx
    cases hptr
    exact h.taken hx
  · cases hptr

theorem Safe.discards (h : Safe s M) {client : Option (NodeId × UInt16)} (hx : (s.node n).ctl = .discard ga client) :
    (s.node n).mem ga.ptr ≠ none := by
  have hid : ga.id = n := by
    have hin := h.refined.homed n
    rwa [hx] at hin
  cases client with
  | none =>
    have hblock := h.block (h.own hx rfl) rfl
    rwa [hid] at hblock
  | some p =>
    obtain ⟨c, srcID⟩ := p
    obtain ⟨ch, hch, -, ho, hlink⟩ := h.held.sessions.client_link hx rfl (by simp)
    obtain ⟨y, hown, hreq, -, rfl⟩ := hlink.of_handles ho rfl
    cases y with
    | free ga' =>
      obtain ⟨hptr, hga⟩ : ga'.ptr = ga.ptr ∧ ga'.id = ga.id := by
        simp only [Exchange.request, GlobalAddress.sendable, Request.free.injEq, SendGlobalAddr.mk.injEq] at hreq
        grind
      have hblock := h.asked hown rfl hch rfl rfl
      rwa [hga, hid, hptr] at hblock
    | forward c' q => exact absurd ((h.held.sessions.stuck c).1 _ _ _ hown).1 (by simp)
    | _ => cases hreq

theorem Safe.not_lost (h : Safe s M) : ¬ Lost s n := by
  intro hlost
  cases hlost with
  | crashed hdown => exact h.up n hdown
  | fault ptr hptr hnone => exact h.accesses hptr hnone
  | deserted c hx hgone =>
    obtain ⟨ch, hch, hpeer, -⟩ := h.released.attended n c (by rw [hx]; rfl)
    exact h.up c (hgone ch hch hpeer)

theorem Quiet.safe (hs : Quiet s) (hempty : ∀ n k ga c, ¬ (s.node n).cache.Stores k ga c)
    (hread : ∀ n ptr b, (s.node n).mem ptr = some b → b.record.readable = true) : Safe s s.memory where
  refined := hs.refined hempty
  held := hs.held
  owned := ⟨fun _ _ _ hcall => (by cases hcall), fun _ _ _ _ _ _ _ hcall => (by cases hcall)⟩
  released := by
    refine Released.of_serving hs.sessions fun m c hm => ?_
    rw [hs.idle m] at hm
    cases hm
  readable := hread
  up n := by simp [hs.idle n]

/-- In every run of a careful program no thread is lost: none crashes (in a model without exceptions of the network),
none goes to memory that is not allocated, and none serves a client that is gone; and `free(3)` gets allocated blocks
only. -/
theorem lifetimes_safe {as : List Action} (hs : Quiet s) (hempty : ∀ n k ga c, ¬ (s.node n).cache.Stores k ga c)
    (hread : ∀ n ptr b, (s.node n).mem ptr = some b → b.record.readable = true)
    (hcareful : Meets step Careful s as) (h : run step s as = some t) (n : NodeId) :
    ¬ Lost t n ∧ ∀ ga client, (t.node n).ctl = .discard ga client → (t.node n).mem ga.ptr ≠ none := by
  obtain ⟨M, hM⟩ := run_invariant_of_meets (I := fun u => ∃ M, Safe u M)
    (fun _ _ _ ⟨_, hu⟩ hc huv => hu.steps hc (steps_of_step huv)) ⟨_, hs.safe hempty hread⟩ hcareful h
  exact ⟨hM.not_lost, fun ga client hx => hM.discards hx⟩

end

def OthersRest (s : State) : Prop := ∀ n, n ≠ 2000 → n ≠ 3000 → (s.node n).ctl = .idle ∧ (s.node n).suspended = []

def NodeState.rests (ns : NodeState) : Bool := ns.ctl = .idle && ns.suspended.isEmpty

/-- A step of 2000 or 3000 in a run of one call after the other: a call that begins goes to an allocated cell, a fresh
block is in a known state, no Malloc returns from its remote branch, and the cache has room without an eviction. -/
def OneByOne (s : State) (a : Action) : Bool :=
  a.nodes.all (fun n => n = 2000 || n = 3000) &&
  match a with
  | .begin _ op => (s.node 2000).rests && (s.node 3000).rests &&
    (op.stamp s.clock).place.all fun ga => ((s.node ga.id).mem ga.ptr).isSome
  | .accept _ _ => true
  | .exec n env => env.block.all (fun block => block.2.readable) &&
    match (s.node n).ctl with
    | .exchange .connected (.performWrite d) =>
      d.ga.size ≤ (s.node n).cache.maxsize && d.ga.size ≤ (s.node n).cache.availablesize
    | .exchange .waiting (.performRead ga) =>
      ga.size ≤ (s.node n).cache.maxsize && ga.size ≤ (s.node n).cache.availablesize
    | .exchange .waiting (.malloc _) => false
    | _ => true

section
variable {s t : State} {a : Action} {n : NodeId}

theorem ongoing_of_rests (h : (s.node n).rests = true) : s.ongoing n = none := by
  obtain ⟨hidle, hsus⟩ : (s.node n).ctl = .idle ∧ (s.node n).suspended = [] := by
    simpa [NodeState.rests] using h
  rw [State.ongoing, NodeState.ongoing, hsus, hidle]
  rfl

theorem OthersRest.step (h : OthersRest s) (ha : OneByOne s a = true) (hs : step s a = some t) : OthersRest t := by
  intro n h2 h3
  unfold OneByOne at ha
  rw [Bool.and_eq_true, List.all_eq_true] at ha
  have hn : n ∉ a.nodes := fun hn => by simpa [h2, h3] using ha.1 n hn
  rw [(steps_of_step hs).node_ne hn]
  exact h n h2 h3

theorem takes_of_room {c : Cache Copy} {size : UInt64} (h : (size ≤ c.maxsize && size ≤ c.availablesize) = true) :
    c.Takes size := by
  obtain ⟨hmax, hroom⟩ : size ≤ c.maxsize ∧ size ≤ c.availablesize := by simpa using h
  exact ⟨hmax, 0, by simpa [Cache.evict] using hroom⟩

theorem OthersRest.careful (h : OthersRest s) (ha : OneByOne s a = true) : Careful s a := by
  unfold OneByOne at ha
  rw [Bool.and_eq_true] at ha
  obtain ⟨-, ha⟩ := ha
  refine ⟨?_, ?_, ?_, ?_⟩
  · rintro n op rfl
    simp only [Bool.and_eq_true] at ha
    obtain ⟨⟨h2, h3⟩, hplace⟩ := ha
    have hnone : ∀ m, s.ongoing m = none := by
      intro m
      by_cases hm2 : m = 2000
      · exact ongoing_of_rests (hm2 ▸ h2)
      · by_cases hm3 : m = 3000
        · exact ongoing_of_rests (hm3 ▸ h3)
        · exact ongoing_of_rests (by simp [NodeState.rests, h m hm2 hm3])
    refine ⟨fun ga hga => ?_, fun m c _ _ hc => ?_⟩
    · rw [hga, Option.all_some] at hplace
      obtain ⟨b, hb⟩ := Option.isSome_iff_exists.mp hplace
      simp [State.view, State.memory, hb]
    · cases (hnone m).symm.trans hc
  · rintro n env block rfl hblock
    obtain ⟨hfresh, -⟩ := (Bool.and_eq_true _ _).mp ha
    rwa [hblock] at hfresh
  · rintro ⟨n, env, size, ch, rfl, hctl, -⟩
    simp [hctl] at ha
  · rintro n env rfl
    obtain ⟨-, hroom⟩ := (Bool.and_eq_true _ _).mp ha
    unfold State.fits
    split
    · rename_i d hx
      rw [hx] at hroom
      exact Or.inr (takes_of_room hroom)
    · rename_i ga hx
      rw [hx] at hroom
      exact takes_of_room hroom
    · trivial

theorem careful_of_oneByOne {as : List Action} (hs : OthersRest s)
    (h : Meets step (fun s a => OneByOne s a = true) s as) : Meets step Careful s as := by
  have hboth : Meets step (fun s a => OneByOne s a = true ∧ Careful s a) s as :=
    (meets_congr_of_meets (fun _ _ _ hu ha huv => hu.step ha huv)
      (fun _ _ _ hu _ => ⟨fun ha => ⟨ha, hu.careful ha⟩, And.left⟩) hs).mp h
  exact meets_mono (fun _ _ => And.right) hboth

end

/-- 3000 allocates a block, 2000 reads it, 3000 writes it, 2000 reads it again, and 3000 frees it. -/
def lifetime : List Action :=
  mallocBy3000 ++ readAgain ++ [.begin 3000 (.free homeAddress), go 3000, go 3000] ++ talk 3000 2000 ++
    [go 3000, go 3000]

theorem careful_lifetime : Meets step Careful unallocated lifetime :=
  careful_of_oneByOne (fun _ _ _ => ⟨rfl, rfl⟩) (by decide +kernel)

theorem lifetime_safe : ∃ t, run step unallocated lifetime = some t ∧
    .ret 3000 (.free homeAddress homeAddress.freed) ∈ t.log ∧ ∀ n,
      ¬ Lost t n ∧ ∀ ga client, (t.node n).ctl = .discard ga client → (t.node n).mem ga.ptr ≠ none := by
  have hrun : (run step unallocated lifetime).map (fun t => decide
      (Event.ret 3000 (.free homeAddress homeAddress.freed) ∈ t.log)) = some true := by decide +kernel
  obtain ⟨t, ht, hret⟩ := Option.map_eq_some_iff.mp hrun
  have hread : ∀ n ptr b, (unallocated.node n).mem ptr = some b → b.record.readable = true := by
    intro n ptr b hb
    cases hb
  exact ⟨t, ht, of_decide_eq_true hret,
    lifetimes_safe (State.quiet_start _) (start_empty _) hread careful_lifetime ht⟩

end CacheCoherence.Protocol
