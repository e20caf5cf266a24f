import CacheCoherence.Foundation.Ownership
import CacheCoherence.Foundation.TransitionRuns
import Mathlib

/-! # Sockets and their descriptors

`util/socket/Socket.cpp` and the members of `Connection`. Moves swap the descriptors of two objects; a negative
number is no descriptor.
-/
namespace CacheCoherence.Sockets
open Ownership TransitionRuns

/-- The name of a `Socket` object: a variable, a parameter, a temporary, or the member of a `Connection`. -/
abbrev Name := ℕ

inductive CreateResult where
  | socketFails
  | setsockoptFails (raw : ℤ)
  | opened (raw : ℤ)
deriving DecidableEq, Repr

inductive Action where
  | default (o : Name)
  | create (o : Name) (result : CreateResult)
  | fromRaw (o : Name) (socket : ℤ)
  | moveConstruct (o other : Name)
  | moveAssign (o other : Name)
  | get (o : Name)
  | close (o : Name)
  | destroy (o : Name)
  | connection (c s : Name)
  | connectionMove (c other : Name)
  | connectionAssign (c other : Name)
deriving DecidableEq, Repr

structure State where
  sockets : Name → Option ℤ
  history : List (Event ℤ)

def start : State := ⟨fun _ => none, []⟩

namespace State

/-- `::socket` and `::accept` return a number that is no open descriptor. -/
def opens (s : State) (raw : ℤ) : Option State :=
  if 0 ≤ raw ∧ ¬ Live s.history raw then some { s with history := s.history ++ [.alloc raw] } else none

def construct (s : State) (o : Name) (raw : ℤ) : Option State :=
  match s.sockets o with
  | none => some { s with sockets := Function.update s.sockets o (some raw) }
  | some _ => none

def swap (s : State) (o other : Name) : Option State :=
  match s.sockets o, s.sockets other with
  | some raw, some raw' =>
    some { s with sockets := Function.update (Function.update s.sockets other (some raw)) o (some raw') }
  | _, _ => none

def closes (s : State) (raw : ℤ) : State :=
  if raw < 0 then s else { s with history := s.history ++ [.free raw] }

def get (s : State) (o : Name) : Option State :=
  (s.sockets o).map fun raw => if raw < 0 then s else { s with history := s.history ++ [.use raw] }

def close (s : State) (o : Name) : Option State :=
  (s.sockets o).map fun raw =>
    if raw < 0 then s else { s.closes raw with sockets := Function.update s.sockets o (some (-1)) }

def destroy (s : State) (o : Name) : Option State :=
  (s.sockets o).map fun raw => { s.closes raw with sockets := Function.update s.sockets o none }

def default (s : State) (o : Name) : Option State := s.construct o (-1)

/-- A `create` that throws leaves no object. -/
def create (s : State) (o : Name) : CreateResult → Option State
  | .socketFails => some s
  | .setsockoptFails raw => s.opens raw
  | .opened raw => (s.opens raw).bind fun s => s.construct o raw

def fromRaw (s : State) (o : Name) (socket : ℤ) : Option State := (s.opens socket).bind fun s => s.construct o socket

def moveConstruct (s : State) (o other : Name) : Option State := (s.default o).bind fun s => s.swap o other

/-- The member `socket` is default-initialised, then assigned from the parameter `s`. -/
def connection (s : State) (c param : Name) : Option State := (s.default c).bind fun s => s.swap c param

def connectionMove (s : State) (c other : Name) : Option State := (s.default c).bind fun s => s.swap c other

end State

def step (s : State) : Action → Option State
  | .default o => s.default o
  | .create o result => s.create o result
  | .fromRaw o socket => s.fromRaw o socket
  | .moveConstruct o other => s.moveConstruct o other
  | .moveAssign o other => s.swap o other
  | .get o => s.get o
  | .close o => s.close o
  | .destroy o => s.destroy o
  | .connection c param => s.connection c param
  | .connectionMove c other => s.connectionMove c other
  | .connectionAssign c other => s.swap c other

def State.owns (s : State) (o : Name) : Option ℤ := (s.sockets o).filter (0 ≤ ·)

/-- Every open descriptor is owned by one object, what is owned is open, and nothing has been closed or used that was
not open. -/
def Owned (s : State) : Prop := Held s.history s.owns

def Action.Sets : Action → Prop
  | .create _ (.setsockoptFails _) => False
  | _ => True

variable {s t : State} {o other : Name} {raw : ℤ}

theorem owned_start : Owned start := held_nil

theorem owns_update (s : State) (o : Name) (x : Option ℤ) (h : List (Event ℤ)) :
    State.owns ⟨Function.update s.sockets o x, h⟩ = Function.update s.owns o (x.filter (0 ≤ ·)) := by
  funext p
  by_cases hp : p = o
  · subst hp
    simp [State.owns]
  · simp [State.owns, hp]

theorem Owned.idle (h : Owned s) {x : Option ℤ} (hnone : s.owns o = none) (hx : x.filter (0 ≤ ·) = none) :
    Owned { s with sockets := Function.update s.sockets o x } := by
  have hsame : Function.update s.owns o none = s.owns := Function.update_eq_self_iff.mpr hnone.symm
  rw [Owned, owns_update, hx, hsame]
  exact h

theorem Owned.default (h : Owned s) (ht : s.default o = some t) : Owned t := by
  unfold State.default State.construct at ht
  split at ht
  · rename_i hnone
    cases ht
    exact h.idle (by simp [State.owns, hnone]) rfl
  · cases ht

theorem Owned.swap (h : Owned s) (ht : s.swap o other = some t) : Owned t := by
  unfold State.swap at ht
  split at ht
  · rename_i raw raw' ho hother
    cases ht
    have howns : State.owns ⟨Function.update (Function.update s.sockets other (some raw)) o (some raw'), s.history⟩
        = s.owns ∘ Equiv.swap o other := by
      funext p
      simp only [State.owns, ← ho, ← hother, ← Equiv.comp_swap_eq_update]
      rfl
    rw [Owned, howns]
    exact h.comp (Equiv.swap o other)
  · cases ht

theorem Owned.opened (h : Owned s) (ht : ((s.opens raw).bind fun s => s.construct o raw) = some t) : Owned t := by
  obtain ⟨u, hu, ht⟩ := Option.bind_eq_some_iff.mp ht
  unfold State.opens at hu
  split at hu
  · rename_i hraw
    cases hu
    unfold State.construct at ht
    split at ht
    · rename_i hnone
      cases ht
      have hfree : s.owns o = none := by
        have hnone : s.sockets o = none := hnone
        simp [State.owns, hnone]
      rw [Owned, owns_update]
      have hsome : (some raw).filter (fun v => decide (0 ≤ v)) = some raw := by simp [hraw.1]
      rw [hsome]
      exact h.alloc hfree hraw.2
    · cases ht
  · cases hu

theorem Owned.gives_up (h : Owned s) (ho : s.sockets o = some raw) {x : Option ℤ} (hx : x.filter (0 ≤ ·) = none) :
    Owned { s.closes raw with sockets := Function.update s.sockets o x } := by
  unfold State.closes
  by_cases hraw : raw < 0
  · rw [if_pos hraw]
    exact h.idle (by simp [State.owns, ho, hraw]) hx
  · rw [if_neg hraw, Owned, owns_update, hx]
    exact h.free (by simpa [State.owns, ho] using hraw)

theorem Owned.close (h : Owned s) (ht : s.close o = some t) : Owned t := by
  obtain ⟨raw, ho, rfl⟩ := Option.map_eq_some_iff.mp ht
  split
  · exact h
  · exact h.gives_up ho rfl

theorem Owned.destroy (h : Owned s) (ht : s.destroy o = some t) : Owned t := by
  obtain ⟨raw, ho, rfl⟩ := Option.map_eq_some_iff.mp ht
  exact h.gives_up ho rfl

theorem Owned.get (h : Owned s) (ht : s.get o = some t) : Owned t := by
  obtain ⟨raw, ho, rfl⟩ := Option.map_eq_some_iff.mp ht
  split
  · exact h
  · rename_i hraw
    exact Held.use h (i := o) (by simpa [State.owns, ho] using hraw)

theorem Owned.move (h : Owned s) (ht : ((s.default o).bind fun s => s.swap o other) = some t) : Owned t := by
  obtain ⟨u, hu, ht⟩ := Option.bind_eq_some_iff.mp ht
  exact (h.default hu).swap ht

theorem Owned.not_opens (h : Owned s) (ht : s.opens raw = some t) : ¬ Owned t := by
  unfold State.opens at ht
  split at ht
  · rename_i hraw
    cases ht
    exact h.not_alloc hraw.2
  · cases ht

theorem owned_step_iff {a : Action} (h : Owned s) (ht : step s a = some t) : Owned t ↔ a.Sets := by
  cases a with
  | create o result =>
    cases result with
    | socketFails =>
      cases ht
      exact iff_of_true h trivial
    | setsockoptFails raw => exact iff_of_false (h.not_opens ht) id
    | opened raw => exact iff_of_true (h.opened ht) trivial
  | default o => exact iff_of_true (h.default ht) trivial
  | fromRaw o socket => exact iff_of_true (h.opened ht) trivial
  | moveConstruct o other => exact iff_of_true (h.move ht) trivial
  | moveAssign o other => exact iff_of_true (h.swap ht) trivial
  | get o => exact iff_of_true (h.get ht) trivial
  | close o => exact iff_of_true (h.close ht) trivial
  | destroy o => exact iff_of_true (h.destroy ht) trivial
  | connection c param => exact iff_of_true (h.move ht) trivial
  | connectionMove c other => exact iff_of_true (h.move ht) trivial
  | connectionAssign c other => exact iff_of_true (h.swap ht) trivial

/-- The sockets own their descriptors, exactly as long as no `create` fails after it has opened one. -/
theorem owned_iff (as : List Action) : Always step Owned start as ↔ Meets step (fun _ a => a.Sets) start as :=
  always_iff_meets (J := fun _ => True) (fun _ _ _ _ _ _ _ => trivial)
    (fun _ _ _ _ h ht => owned_step_iff h ht) trivial owned_start

/-- The option cannot be set on descriptor 5. -/
theorem created_not_owned : ¬ ∀ as, Always step Owned start as := by
  intro h
  have hopens : start.opens 5 = some ⟨start.sockets, [.alloc 5]⟩ := by simp [State.opens, start, not_live_nil]
  exact owned_start.not_opens hopens ((h [.create 0 (.setsockoptFails 5)]).2 _ hopens)

end CacheCoherence.Sockets
