import CacheCoherence.Model.Defs

/-! # The directory record

What `performRead`, `performWrite`, `Node::write`, `Node::Free` and the handlers do with the
`SaveData` at the start of a block of their own memory.
-/
namespace CacheCoherence.SaveData
variable {V : Type}

/-- `performRead` hands the record out only in a state it knows, and `nullptr` otherwise. -/
def readable (d : SaveData V) : Bool := d.iscached.code ≤ 2

def register (d : SaveData V) (srcID : UInt16) : SaveData V :=
  { d with iscached := .shared, sharerNodes := d.sharerNodes ++ [srcID] }

/-- The guard of the local branch of `Node::write`. -/
def writeInvalidates (d : SaveData V) : Bool := !d.sharerNodes.isEmpty && d.iscached.code < 3

/-- The guard of the local branch of `Node::Free`: its `iscached >= 0` always holds. -/
def freeInvalidates (d : SaveData V) : Bool := !d.sharerNodes.isEmpty

/-- The guard of `handleWrite`. -/
def handleInvalidates (d : SaveData V) : Bool :=
  CacheDirectoryState.unshared.code < d.iscached.code && !d.sharerNodes.isEmpty && d.iscached.code < 3

/-- The record that the local branch of `Node::write` copies into the block. -/
def written (data : V) (id : UInt16) : SaveData V := ⟨data, .unshared, id, []⟩

/-- The record that the local branch of `performWrite` copies into the block. -/
def owned (data : V) (srcID : UInt16) : SaveData V := ⟨data, .exclus, srcID, []⟩

@[simp] theorem register_data (d : SaveData V) (n : UInt16) : (d.register n).data = d.data := rfl
@[simp] theorem register_sharerNodes (d : SaveData V) (n : UInt16) :
    (d.register n).sharerNodes = d.sharerNodes ++ [n] := rfl
@[simp] theorem register_readable (d : SaveData V) (n : UInt16) : (d.register n).readable = true := rfl
@[simp] theorem written_data (v : V) (n : UInt16) : (written v n).data = v := rfl
@[simp] theorem owned_data (v : V) (n : UInt16) : (owned v n).data = v := rfl
@[simp] theorem written_sharerNodes (v : V) (n : UInt16) : (written v n).sharerNodes = [] := rfl
@[simp] theorem owned_sharerNodes (v : V) (n : UInt16) : (owned v n).sharerNodes = [] := rfl

/-- A record as the accesses leave it: a known state, and sharers only in the shared state. -/
def Regular (d : SaveData V) : Prop :=
  d.readable = true ∧ (d.sharerNodes ≠ [] → d.iscached = .shared)

theorem regular_register {d : SaveData V} (n : UInt16) : (d.register n).Regular := ⟨rfl, fun _ => rfl⟩

theorem regular_written (v : V) (n : UInt16) : (written v n).Regular := ⟨rfl, fun h => absurd rfl h⟩

theorem regular_owned (v : V) (n : UInt16) : (owned v n).Regular := ⟨rfl, fun h => absurd rfl h⟩

theorem Regular.writeInvalidates {d : SaveData V} (h : d.Regular) :
    d.writeInvalidates = !d.sharerNodes.isEmpty := by
  have hr : d.iscached.code ≤ 2 := by simpa [readable] using h.1
  have hlt : d.iscached.code < 3 := by omega
  simp [SaveData.writeInvalidates, hlt]

theorem Regular.handleInvalidates {d : SaveData V} (h : d.Regular) :
    d.handleInvalidates = !d.sharerNodes.isEmpty := by
  cases hs : d.sharerNodes with
  | nil => simp [SaveData.handleInvalidates, hs]
  | cons n ns =>
    have hc : d.iscached = .shared := h.2 (by simp [hs])
    simp [SaveData.handleInvalidates, hs, hc, CacheDirectoryState.code]

end CacheCoherence.SaveData
