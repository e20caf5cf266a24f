import CacheCoherence.Model.Defs

/-! # The lock table

The branch of `Node::setLock` that the lock node runs on its `locks` map.
-/
namespace CacheCoherence

abbrev LockTable := UInt16 → Option LockState

namespace LockTable

def empty : LockTable := fun _ => none

def setLock (locks : LockTable) (lockId : UInt16) (state : LockState) : LockTable × Bool :=
  match locks lockId with
  | some existing =>
    if state = .unlocked then (Function.update locks lockId (some state), true)
    else if state = .exclusive ∧ existing = .unlocked then
      (Function.update locks lockId (some state), true)
    else if state = .sharedlock ∧ existing ≠ .exclusive then
      (Function.update locks lockId (some state), true)
    else (locks, false)
  | none => (Function.update locks lockId (some state), true)

/-- The grant decision, read off the one entry it depends on. -/
def grants (existing : Option LockState) (state : LockState) : Bool :=
  match state with
  | .unlocked => true
  | .sharedlock => existing ≠ some .exclusive
  | .exclusive => existing = none ∨ existing = some .unlocked

theorem setLock_eq (locks : LockTable) (i : UInt16) (st : LockState) :
    locks.setLock i st = if grants (locks i) st then (Function.update locks i (some st), true)
      else (locks, false) := by
  unfold setLock
  cases h : locks i with
  | none => cases st <;> simp [grants]
  | some e => cases st <;> cases e <;> simp [grants]

theorem setLock_snd (locks : LockTable) (i : UInt16) (st : LockState) :
    (locks.setLock i st).2 = grants (locks i) st := by
  rw [setLock_eq]
  cases h : grants (locks i) st <;> simp

theorem setLock_denied {locks : LockTable} {i : UInt16} {st : LockState}
    (h : (locks.setLock i st).2 = false) : (locks.setLock i st).1 = locks := by
  rw [setLock_snd] at h
  simp [setLock_eq, h]

theorem setLock_granted {locks : LockTable} {i : UInt16} {st : LockState}
    (h : (locks.setLock i st).2 = true) :
    (locks.setLock i st).1 = Function.update locks i (some st) := by
  rw [setLock_snd] at h
  simp [setLock_eq, h]

theorem setLock_other (locks : LockTable) {i j : UInt16} (st : LockState) (h : j ≠ i) :
    (locks.setLock i st).1 j = locks j := by
  rw [setLock_eq]
  split
  · exact Function.update_of_ne h _ _
  · rfl

end LockTable
end CacheCoherence
