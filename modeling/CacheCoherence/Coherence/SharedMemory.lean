import CacheCoherence.Foundation.Traces
import CacheCoherence.Protocol.State

/-! # A shared memory

What the nodes together are meant to be: one memory of cells, each at its home, and one lock table. A call goes
through stages, each of which takes effect at once; the messages by which the nodes bring that about are not part of
the picture, and neither are copies. A read may return any word that a cell under its key has held.
-/
namespace CacheCoherence.Protocol
open Traces

/-- How far a call has come: it has begun; it has its lock; it has changed the memory, with this result; it has given
its lock back; its lock was denied; or it was a `setLock` with this answer. -/
inductive Stage where
  | called
  | entered
  | applied (result : GlobalAddress)
  | left (result : Option GlobalAddress)
  | denied
  | settled (granted : Bool)
deriving DecidableEq, Repr

/-- A call, with the decision of the lock table that it has not heard of yet. -/
structure Call where
  op : Op Word
  stage : Stage
  answer : Option Bool
deriving DecidableEq, Repr

/-- `held` has all words that a cell has had so far. -/
structure Memory where
  cells : NodeId → UInt64 → Option Word
  held : NodeId → UInt64 → Word → Prop
  locks : LockTable
  calls : NodeId → Option Call

def Call.asks (c : Call) : Option Lock :=
  match c.op, c.stage with
  | .read ga, .called => some ⟨ga.id, .sharedlock⟩
  | .write d, .called => some ⟨d.ga.id, .exclusive⟩
  | .setLock l, .called => some l
  | .read ga, .entered => some ⟨ga.id, .unlocked⟩
  | .write d, .applied _ => some ⟨d.ga.id, .unlocked⟩
  | _, _ => none

def Call.answered (c : Call) (granted : Bool) : Stage :=
  match c.op, c.stage with
  | .setLock _, _ => .settled granted
  | _, .called => if granted then .entered else .denied
  | _, .applied r => .left (some r)
  | _, _ => .left none

namespace Memory

def put (M : Memory) (n : NodeId) (c : Option Call) : Memory := { M with calls := Function.update M.calls n c }

def setLock (M : Memory) (l : Lock) : Memory := { M with locks := (M.locks.setLock l.id l.state).1 }

def set (M : Memory) (ga : GlobalAddress) (w : Option Word) : Memory where
  cells n ptr := if n = ga.id ∧ ptr = ga.ptr then w else M.cells n ptr
  held n ptr v := M.held n ptr v ∨ n = ga.id ∧ ptr = ga.ptr ∧ w = some v
  locks := M.locks
  calls := M.calls

/-- A cell under this cache key has held the word. -/
def Known (M : Memory) (key : UInt64) (w : Word) : Prop := ∃ ga : GlobalAddress, ga.hash = key ∧ M.held ga.id ga.ptr w

inductive Returns (M : Memory) : Op Word → Stage → Outcome → Prop where
  | readDenied (ga : GlobalAddress) : Returns M (.read ga) .denied (.read ga none)
  | writeDenied (d : Data Word) : Returns M (.write d) .denied (.write d none)
  | read (ga : GlobalAddress) (w : Word) : M.Known ga.hash w → Returns M (.read ga) (.left none) (.read ga (some w))
  | write (d : Data Word) (r : GlobalAddress) : Returns M (.write d) (.left (some r)) (.write d (some r))
  | free (ga r : GlobalAddress) : Returns M (.free ga) (.applied r) (.free ga r)
  | malloc (size : UInt64) (r : GlobalAddress) : Returns M (.malloc size) (.applied r) (.malloc r)
  | setLock (l : Lock) (granted : Bool) : Returns M (.setLock l) (.settled granted) (.setLock l granted)

inductive Does (M : Memory) : Event → Memory → Prop where
  | call (n : NodeId) (op : Op Word) : M.calls n = none → Does M (.call n op) (M.put n (some ⟨op, .called, none⟩))
  | lock (n : NodeId) (op : Op Word) (st : Stage) (l : Lock) : M.calls n = some ⟨op, st, none⟩ →
      Call.asks ⟨op, st, none⟩ = some l → Does M (.lock n l (M.locks.setLock l.id l.state).2)
        ((M.setLock l).put n (some ⟨op, st, some (M.locks.setLock l.id l.state).2⟩))
  | answered (n : NodeId) (op : Op Word) (st : Stage) (l : Lock) (granted : Bool) :
      M.calls n = some ⟨op, st, some granted⟩ → Call.asks ⟨op, st, none⟩ = some l →
      Does M (.answered n l granted) (M.put n (some ⟨op, Call.answered ⟨op, st, none⟩ granted, none⟩))
  | store (n : NodeId) (d : Data Word) : M.calls n = some ⟨.write d, .entered, none⟩ →
      M.cells d.ga.id d.ga.ptr ≠ none → Does M (.store n d.ga d.data)
        ((M.set d.ga (some d.data)).put n (some ⟨.write d, .applied d.ga, none⟩))
  | alloc (n : NodeId) (ga : GlobalAddress) (w : Word) : M.calls n = some ⟨.malloc ga.size, .called, none⟩ →
      M.cells ga.id ga.ptr = none → Does M (.alloc ga w)
        ((M.set ga (some w)).put n (some ⟨.malloc ga.size, .applied ga, none⟩))
  | freed (n : NodeId) (ga : GlobalAddress) : M.calls n = some ⟨.free ga, .called, none⟩ → Does M (.freed ga)
      ((M.set ga none).put n (some ⟨.free ga, .applied ga.freed, none⟩))
  | ret (n : NodeId) (op : Op Word) (st : Stage) (o : Outcome) : M.calls n = some ⟨op, st, none⟩ →
      M.Returns op st o → Does M (.ret n o) (M.put n none)

def Sound (M : Memory) : Prop := ∀ n ptr w, M.cells n ptr = some w → M.held n ptr w

section
variable {M N : Memory} {n m : NodeId} {c : Option Call} {ev : Event} {es : List Event} {ga : GlobalAddress}
variable {w v : Word} {o : Option Word} {l : Lock} {ptr key : UInt64}

@[simp] theorem put_cells : (M.put n c).cells = M.cells := rfl
@[simp] theorem put_held : (M.put n c).held = M.held := rfl
@[simp] theorem put_locks : (M.put n c).locks = M.locks := rfl
@[simp] theorem put_calls_self : (M.put n c).calls n = c := Function.update_self ..
theorem put_calls_ne (h : m ≠ n) : (M.put n c).calls m = M.calls m := Function.update_of_ne h ..

@[simp] theorem setLock_cells : (M.setLock l).cells = M.cells := rfl
@[simp] theorem setLock_held : (M.setLock l).held = M.held := rfl
@[simp] theorem setLock_calls : (M.setLock l).calls = M.calls := rfl

@[simp] theorem set_locks : (M.set ga o).locks = M.locks := rfl
@[simp] theorem set_calls : (M.set ga o).calls = M.calls := rfl

theorem held_set (h : M.held n ptr v) : (M.set ga o).held n ptr v := Or.inl h

theorem known_set : (M.set ga (some w)).Known ga.hash w := ⟨ga, rfl, Or.inr ⟨rfl, rfl, rfl⟩⟩

theorem Sound.set (h : M.Sound) : (M.set ga o).Sound := by
  intro n ptr w hw
  rw [Memory.set] at hw
  dsimp only at hw
  split at hw
  · rename_i hcell
    exact Or.inr ⟨hcell.1, hcell.2, hw⟩
  · exact Or.inl (h n ptr w hw)

theorem Does.sound (h : M.Does ev N) (hM : M.Sound) : N.Sound := by
  cases h with
  | store | alloc | freed => exact hM.set
  | _ => exact hM

theorem Does.held_mono (h : M.Does ev N) (hv : M.held n ptr v) : N.held n ptr v := by
  cases h with
  | store | alloc | freed => exact held_set hv
  | _ => exact hv

theorem held_mono (h : Trace Does M es N) (hv : M.held n ptr v) : N.held n ptr v :=
  h.invariant (I := fun M => M.held n ptr v) (fun _ _ _ hM hd => hd.held_mono hM) hv

theorem known_mono (h : Trace Does M es N) (hv : M.Known key v) : N.Known key v := by
  obtain ⟨ga, hkey, hheld⟩ := hv
  exact ⟨ga, hkey, held_mono h hheld⟩

theorem known_of_store (h : Trace Does M es N) (hmem : .store n ga w ∈ es) : N.Known ga.hash w := by
  obtain ⟨pre, post, rfl⟩ := List.append_of_mem hmem
  obtain ⟨K, K', -, hd, hpost⟩ := h.split
  refine known_mono hpost ?_
  cases hd with
  | store _ d => exact known_set

end
end Memory
end CacheCoherence.Protocol
