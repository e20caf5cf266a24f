import CacheCoherence.Model.LockTable
import Mathlib.Data.List.Induction

/-! # One lock table and its history

What a sequence of requests does to a single table, and the rule by which each of them is
answered, read off the requests before it.
-/
namespace CacheCoherence.LockTable

def replay (locks : LockTable) : List Lock → LockTable
  | [] => locks
  | l :: ls => replay (locks.setLock l.id l.state).1 ls

def replies (locks : LockTable) : List Lock → List Bool
  | [] => []
  | l :: ls => (locks.setLock l.id l.state).2 :: replies (locks.setLock l.id l.state).1 ls

theorem replay_append (locks : LockTable) (ls ms : List Lock) :
    locks.replay (ls ++ ms) = (locks.replay ls).replay ms := by
  induction ls generalizing locks with
  | nil => rfl
  | cons l ls ih => exact ih _

theorem replies_append (locks : LockTable) (ls ms : List Lock) :
    locks.replies (ls ++ ms) = locks.replies ls ++ (locks.replay ls).replies ms := by
  induction ls generalizing locks with
  | nil => rfl
  | cons l ls ih => simp only [List.cons_append, replies, replay, ih]

theorem length_replies (locks : LockTable) (ls : List Lock) : (locks.replies ls).length = ls.length := by
  induction ls generalizing locks with
  | nil => rfl
  | cons l ls ih => simp [replies, ih]

/-- Requests on two ids commute: neither sees the other in its answer, and the table is the same. -/
theorem setLock_comm (locks : LockTable) {a b : Lock} (h : a.id ≠ b.id) :
    ((locks.setLock a.id a.state).1.setLock b.id b.state).2 = (locks.setLock b.id b.state).2 ∧
    locks.replay [a, b] = locks.replay [b, a] := by
  have hb : (locks.setLock a.id a.state).1 b.id = locks b.id := setLock_other locks a.state (Ne.symm h)
  have ha : (locks.setLock b.id b.state).1 a.id = locks a.id := setLock_other locks b.state h
  refine ⟨by rw [setLock_snd, setLock_snd, hb], ?_⟩
  simp only [replay, setLock_eq _ b.id, setLock_eq _ a.id]
  have ha' : (if grants (locks b.id) b.state then (Function.update locks b.id (some b.state), true)
      else (locks, false)).1 a.id = locks a.id := by rwa [setLock_eq] at ha
  have hb' : (if grants (locks a.id) a.state then (Function.update locks a.id (some a.state), true)
      else (locks, false)).1 b.id = locks b.id := by rwa [setLock_eq] at hb
  rw [ha', hb']
  cases grants (locks a.id) a.state <;> cases grants (locks b.id) b.state <;>
    simp [Function.update_comm h]

end LockTable

structure Decision where
  client : NodeId
  lock : Lock
  granted : Bool
deriving DecidableEq, Repr

def OneTable (ds : List Decision) : Prop :=
  ds.map Decision.granted = LockTable.empty.replies (ds.map Decision.lock)

/-- A request for `st` was granted for the id, and since then nobody has asked for UNLOCKED. -/
def Held (st : LockState) (i : UInt16) (ds : List Decision) : Prop :=
  ∃ p d q, ds = p ++ d :: q ∧ d.lock = ⟨i, st⟩ ∧ d.granted = true ∧ ∀ x ∈ q, x.lock ≠ ⟨i, .unlocked⟩

/-- How a request is answered, from the history before it. -/
def GrantRule (before : List Decision) (d : Decision) : Prop :=
  match d.lock.state with
  | .unlocked => d.granted = true
  | .sharedlock => d.granted = true ↔ ¬ Held .exclusive d.lock.id before
  | .exclusive => d.granted = true ↔ ¬ Held .sharedlock d.lock.id before ∧ ¬ Held .exclusive d.lock.id before

section
variable {st : LockState} {i : UInt16} {ds : List Decision} {d : Decision}

theorem not_held_nil : ¬ Held st i [] := by
  rintro ⟨p, d, q, h, -⟩
  simp at h

theorem held_concat : Held st i (ds ++ [d]) ↔
    (d.lock = ⟨i, st⟩ ∧ d.granted = true) ∨ (d.lock ≠ ⟨i, .unlocked⟩ ∧ Held st i ds) := by
  constructor
  · rintro ⟨p, x, q, h, hl, hg, hq⟩
    rcases List.eq_nil_or_concat q with rfl | ⟨q, y, rfl⟩
    · obtain ⟨-, rfl⟩ := List.append_inj' h rfl |>.imp id List.singleton_inj.mp
      exact Or.inl ⟨hl, hg⟩
    · rw [List.concat_eq_append, ← List.cons_append, ← List.append_assoc] at h
      obtain ⟨rfl, hy⟩ := List.append_inj' h rfl
      obtain rfl := List.singleton_inj.mp hy
      exact Or.inr ⟨hq d (by simp), p, x, q, rfl, hl, hg, fun z hz => hq z (by simp [hz])⟩
  · rintro (⟨hl, hg⟩ | ⟨hne, p, x, q, rfl, hl, hg, hq⟩)
    · exact ⟨ds, d, [], rfl, hl, hg, by simp⟩
    · refine ⟨p, x, q ++ [d], by simp, hl, hg, ?_⟩
      intro z hz
      rcases List.mem_append.mp hz with hz | hz
      · exact hq z hz
      · rw [List.mem_singleton.mp hz]
        exact hne

theorem oneTable_concat : OneTable (ds ++ [d]) ↔
    OneTable ds ∧ d.granted = ((LockTable.empty.replay (ds.map Decision.lock)).setLock d.lock.id d.lock.state).2 := by
  unfold OneTable
  rw [List.map_append, List.map_append, LockTable.replies_append]
  constructor
  · intro h
    obtain ⟨h, hd⟩ := List.append_inj h (by simp [LockTable.length_replies])
    exact ⟨h, by simpa [LockTable.replies] using hd⟩
  · rintro ⟨h, hd⟩
    rw [h]
    simp [LockTable.replies, hd]

theorem OneTable.of_append {es : List Decision} (h : OneTable (ds ++ es)) : OneTable ds := by
  induction es using List.reverseRecOn with
  | nil => simpa using h
  | append_singleton es d ih =>
    rw [← List.append_assoc] at h
    exact ih (oneTable_concat.mp h).1

/-- The entry of an id says which kind of lock is held under it. -/
theorem OneTable.entry (h : OneTable ds) (i : UInt16) :
    (LockTable.empty.replay (ds.map Decision.lock) i = some .exclusive ↔ Held .exclusive i ds) ∧
    (LockTable.empty.replay (ds.map Decision.lock) i = some .sharedlock ↔ Held .sharedlock i ds) := by
  induction ds using List.reverseRecOn with
  | nil => simp [LockTable.replay, LockTable.empty, not_held_nil]
  | append_singleton ds d ih =>
    obtain ⟨hds, hd⟩ := oneTable_concat.mp h
    obtain ⟨hx, hs⟩ := ih hds
    obtain ⟨n, ⟨j, st⟩, g⟩ := d
    rw [held_concat, held_concat, List.map_append, LockTable.replay_append, ← hx, ← hs]
    simp only [List.map_cons, List.map_nil, LockTable.replay, LockTable.setLock_eq] at hd ⊢
    by_cases hj : i = j
    · subst hj
      cases hl : LockTable.empty.replay (ds.map Decision.lock) i with
      | none => cases st <;> simp_all [LockTable.grants]
      | some e => cases e <;> cases st <;> simp_all [LockTable.grants]
    · have hji : j ≠ i := fun e => hj e.symm
      split <;> simp [hj, hji]

theorem OneTable.grantRule {p q : List Decision} (h : OneTable (p ++ d :: q)) : GrantRule p d := by
  have hpd : OneTable (p ++ [d]) := by
    rw [List.append_cons] at h
    exact h.of_append
  obtain ⟨hp, hd⟩ := oneTable_concat.mp hpd
  obtain ⟨hx, hs⟩ := hp.entry d.lock.id
  unfold GrantRule
  rw [← hx, ← hs, hd, LockTable.setLock_snd]
  cases LockTable.empty.replay (p.map Decision.lock) d.lock.id with
  | none => cases d.lock.state <;> simp [LockTable.grants]
  | some e => cases e <;> cases d.lock.state <;> simp [LockTable.grants]

theorem replay_concat : LockTable.empty.replay ((ds ++ [d]).map Decision.lock) =
    ((LockTable.empty.replay (ds.map Decision.lock)).setLock d.lock.id d.lock.state).1 := by
  rw [List.map_append, LockTable.replay_append]
  rfl

theorem OneTable.denied (h : OneTable (ds ++ [d])) (hd : d.granted = false) :
    LockTable.empty.replay ((ds ++ [d]).map Decision.lock) = LockTable.empty.replay (ds.map Decision.lock) := by
  have hg := (oneTable_concat.mp h).2
  rw [hd] at hg
  rw [replay_concat, LockTable.setLock_denied hg.symm]

theorem OneTable.swap {d' : Decision} (h : OneTable (ds ++ [d, d'])) (hne : d.lock.id ≠ d'.lock.id) :
    OneTable (ds ++ [d', d]) ∧ LockTable.empty.replay ((ds ++ [d', d]).map Decision.lock) =
      LockTable.empty.replay ((ds ++ [d, d']).map Decision.lock) := by
  rw [List.append_cons] at h
  obtain ⟨h, hd'⟩ := oneTable_concat.mp h
  obtain ⟨h, hd⟩ := oneTable_concat.mp h
  rw [replay_concat] at hd'
  have hcomm := LockTable.setLock_comm (LockTable.empty.replay (ds.map Decision.lock)) hne
  have hcomm' := LockTable.setLock_comm (LockTable.empty.replay (ds.map Decision.lock)) (Ne.symm hne)
  constructor
  · rw [List.append_cons]
    refine oneTable_concat.mpr ⟨oneTable_concat.mpr ⟨h, hd'.trans hcomm.1⟩, ?_⟩
    rw [replay_concat]
    exact hd.trans hcomm'.1.symm
  · rw [List.map_append, List.map_append, LockTable.replay_append, LockTable.replay_append]
    exact hcomm'.2

end
end CacheCoherence
