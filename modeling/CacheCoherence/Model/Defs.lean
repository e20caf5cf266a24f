import Mathlib.Data.UInt

/-! # Shared definitions: addresses, records, messages

The structures of `util/defs.h` and the key hash of `util/GlobalAddressHash.h`. The stored
`uint64_t` is the type variable `V`: no node ever computes with it.
-/
namespace CacheCoherence

/-- A node id; it is also the TCP port of the node. -/
abbrev NodeId := UInt16

/-- The node to which every remote request for memory goes. -/
def port : NodeId := 3000

/-- The node that keeps the lock table. -/
def locknode : NodeId := 2000

/-- The `iscached` field of a directory record. A block that was never written can hold any
bit pattern; `other n` is the pattern `n + 3`, which is none of the enumerators. -/
inductive CacheDirectoryState where
  | unshared
  | shared
  | exclus
  | other (n : ℕ)
deriving DecidableEq, Repr

def CacheDirectoryState.code : CacheDirectoryState → ℕ
  | .unshared => 0
  | .shared => 1
  | .exclus => 2
  | .other n => n + 3

inductive LockState where
  | unlocked
  | sharedlock
  | exclusive
deriving DecidableEq, Repr

structure SendGlobalAddr where
  size : UInt64
  ptr : UInt64
  id : UInt16
  srcID : UInt16
deriving DecidableEq, Repr

structure GlobalAddress where
  size : UInt64
  ptr : UInt64
  id : UInt16
deriving DecidableEq, Repr

namespace GlobalAddress

def sendable (ga : GlobalAddress) (srcID : UInt16) : SendGlobalAddr where
  size := ga.size
  ptr := ga.ptr
  id := ga.id
  srcID := srcID

def ofSendable (sga : SendGlobalAddr) : GlobalAddress where
  size := sga.size
  ptr := sga.ptr
  id := sga.id

def getNodeId (ga : GlobalAddress) : UInt16 := ga.id

@[simp] theorem ofSendable_sendable (ga : GlobalAddress) (srcID : UInt16) :
    ofSendable (ga.sendable srcID) = ga := rfl
@[simp] theorem sendable_srcID (ga : GlobalAddress) (srcID : UInt16) :
    (ga.sendable srcID).srcID = srcID := rfl

/-- The address that `Node::Free` hands back: pointer and size cleared. -/
def freed (ga : GlobalAddress) : GlobalAddress := { ga with ptr := 0, size := 0 }

/-- `GlobalAddressHash` on `ga.sendable(0)`; `std::hash` of an integer is the integer. -/
def hash (ga : GlobalAddress) : UInt64 := ga.size ^^^ (ga.ptr ^^^ (ga.id.toUInt64 <<< 1))

theorem hash_injOn {a b : GlobalAddress} (hsize : a.size = b.size) (hid : a.id = b.id)
    (h : a.hash = b.hash) : a = b := by
  have hptr : a.ptr = b.ptr := by
    simpa [hash, hsize, hid] using h
  cases a
  cases b
  simp_all

end GlobalAddress

structure SendingData (V : Type) where
  size : UInt64
  data : V
  sga : SendGlobalAddr
deriving DecidableEq, Repr

structure Data (V : Type) where
  size : UInt64
  data : V
  ga : GlobalAddress
deriving DecidableEq, Repr

namespace Data
variable {V : Type}

def sendable (d : Data V) (id : UInt16) : SendingData V where
  size := d.size
  data := d.data
  sga := d.ga.sendable id

def ofSendable (sd : SendingData V) : Data V where
  size := sd.size
  data := sd.data
  ga := .ofSendable sd.sga

@[simp] theorem ofSendable_sendable (d : Data V) (id : UInt16) : ofSendable (d.sendable id) = d := rfl
@[simp] theorem sendable_sga (d : Data V) (id : UInt16) : (d.sendable id).sga = d.ga.sendable id := rfl

end Data

/-- The directory record at the start of every allocated block. -/
structure SaveData (V : Type) where
  data : V
  iscached : CacheDirectoryState
  ownerNode : UInt16
  sharerNodes : List UInt16
deriving DecidableEq, Repr

structure Lock where
  id : UInt16
  state : LockState
deriving DecidableEq, Repr

end CacheCoherence
