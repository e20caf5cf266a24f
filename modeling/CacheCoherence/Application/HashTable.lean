import CacheCoherence.Model.Directory
import CacheCoherence.Model.LockTable
import Mathlib.Data.Fintype.Basic

/-! # The hash table

`app/HashTable.h` over the calls of its node. Every value has a block of the node's own memory, and the lock
under which it is accessed is the lock of the node's id.
-/
namespace CacheCoherence

/-- A type that the table can hold: the `static_cast` to `uint64_t`, and what a pointer to the type reads from a
`uint64_t` on a little-endian machine. -/
class Integral (V : Type) where
  size : UInt64
  cast : V → UInt64
  reinterpret : UInt64 → V
  reinterpret_cast (v : V) : reinterpret (cast v) = v

attribute [simp] Integral.reinterpret_cast

instance : Integral UInt8 := ⟨1, UInt8.toUInt64, UInt64.toUInt8, by simp⟩
instance : Integral UInt16 := ⟨2, UInt16.toUInt64, UInt64.toUInt16, by simp⟩
instance : Integral UInt32 := ⟨4, UInt32.toUInt64, UInt64.toUInt32, by simp⟩
instance : Integral UInt64 := ⟨8, id, id, fun _ => rfl⟩
instance : Integral Int8 := ⟨1, fun v => v.toInt64.toUInt64, fun w => w.toInt64.toInt8, by simp⟩
instance : Integral Int16 := ⟨2, fun v => v.toInt64.toUInt64, fun w => w.toInt64.toInt16, by simp⟩
instance : Integral Int32 := ⟨4, fun v => v.toInt64.toUInt64, fun w => w.toInt64.toInt32, by simp⟩
instance : Integral Int64 := ⟨8, Int64.toUInt64, UInt64.toInt64, by simp⟩
-- of a byte that is no `bool`, the language leaves open what is read
instance : Integral Bool := ⟨1, Bool.toUInt64, fun w => w.toUInt8 != 0, by decide⟩

/-- The node of a table: its memory, and the lock table that answers it, its own or that of `locknode`. -/
structure Host where
  id : NodeId
  locks : LockTable
  mem : UInt64 → Option (SaveData UInt64)

/-- What other clients ask for. The node serves the accesses, `locknode` the locks. -/
inductive Request where
  | lock (l : Lock)
  | read (ptr : UInt64) (srcID : NodeId)
  | write (ptr : UInt64) (data : UInt64) (srcID : NodeId)
deriving DecidableEq, Repr

def Request.block : Request → Option UInt64
  | .lock _ => none
  | .read ptr _ => some ptr
  | .write ptr _ _ => some ptr

namespace Host

def put (node : Host) (ptr : UInt64) (d : Option (SaveData UInt64)) : Host :=
  { node with mem := Function.update node.mem ptr d }

def setLock (node : Host) (lockId : UInt16) (state : LockState) : Bool × Host :=
  ((node.locks.setLock lockId state).2, { node with locks := (node.locks.setLock lockId state).1 })

def serve (node : Host) : Request → Option Host
  | .lock l => some (node.setLock l.id l.state).2
  | .read ptr srcID => do
    let d ← node.mem ptr
    -- `handleRead` goes through the null pointer
    guard d.readable
    some (node.put ptr (d.register srcID))
  | .write ptr data srcID => do
    let _ ← node.mem ptr
    some (node.put ptr (SaveData.owned data srcID))

def isLocal (node : Host) (gaddr : GlobalAddress) : Bool := gaddr.getNodeId = node.id

/-- `none` also where `malloc` finds no memory: the call then asks `port` and leaves that session open, so the
access that follows never gets a connection to `port`. -/
def malloc (node : Host) (size : UInt64) (block : Option (UInt64 × SaveData UInt64)) :
    Option (GlobalAddress × Host) := do
  let (buffer, content) ← block
  guard (buffer ≠ 0 ∧ node.mem buffer = none)
  some (⟨size, buffer, node.id⟩, node.put buffer content)

/-- The invalidations reach the caches of other nodes only. -/
def free (node : Host) (gaddr : GlobalAddress) : Option Host := do
  guard (node.isLocal gaddr)
  let _ ← node.mem gaddr.ptr
  some (node.put gaddr.ptr none)

def performRead (node : Host) (gaddr : GlobalAddress) : Option (SaveData UInt64) := do
  guard (node.isLocal gaddr)
  let data ← node.mem gaddr.ptr
  guard data.readable
  some data

/-- `held` is what others do between the acquire and the access. -/
def read (node : Host) (gaddr : GlobalAddress) (held : Host → Option Host) : Option (UInt64 × Host) :=
  match node.setLock gaddr.id .sharedlock with
  | (true, node) => do
    let node ← held node
    let result ← node.performRead gaddr
    some (result.data, (node.setLock gaddr.id .unlocked).2)
  | (false, node) => some (0, node)

def write (node : Host) (data : Data UInt64) (held : Host → Option Host) : Option (GlobalAddress × Host) :=
  match node.setLock data.ga.id .exclusive with
  | (true, node) => do
    let node ← held node
    guard (node.isLocal data.ga)
    let _ ← node.mem data.ga.ptr
    let node := node.put data.ga.ptr (SaveData.written data.data node.id)
    some (data.ga, (node.setLock data.ga.id .unlocked).2)
  | (false, node) => some (⟨0, 0, 0⟩, node)

end Host

structure Elem where
  key : UInt32
  gaddr : GlobalAddress
deriving DecidableEq, Repr

structure HashTable where
  node : Host
  amountElements : UInt64
  storage : Fin 64 → List Elem

namespace HashTable

def hash (key : UInt32) : UInt32 :=
  let key := (key ^^^ (61 : UInt32)) ^^^ (key >>> (16 : UInt32))
  let key := key + (key <<< (3 : UInt32))
  let key := key ^^^ (key >>> (4 : UInt32))
  let key := key * (0x27d4eb2d : UInt32)
  key ^^^ (key >>> (15 : UInt32))

def hashBucket (key : UInt32) : Fin 64 := ⟨(hash key % 64).toNat, by
  rw [UInt32.toNat_mod]
  exact Nat.mod_lt _ (by decide)⟩

def new (node : Host) : HashTable := ⟨node, 0, fun _ => []⟩

def owns (t : HashTable) (ptr : UInt64) : Bool :=
  (List.finRange 64).any fun b => (t.storage b).any fun e => e.gaddr.ptr = ptr

def serveOthers (t : HashTable) (requests : List Request) (node : Host) : Option Host :=
  requests.foldlM (fun node r => if r.block.any t.owns then none else node.serve r) node

variable {V : Type} [Integral V]

def insert (t : HashTable) (key : UInt32) (value : V) (block : Option (UInt64 × SaveData UInt64))
    (held : List Request) : Option HashTable := do
  let b := hashBucket key
  let (gadd, node) ← t.node.malloc (Integral.size V) block
  let t : HashTable := ⟨node, t.amountElements + 1, Function.update t.storage b (⟨key, gadd⟩ :: t.storage b)⟩
  let (_, node) ← t.node.write ⟨Integral.size V, Integral.cast value, gadd⟩ (t.serveOthers held)
  some { t with node := node }

def erase (t : HashTable) (key : UInt32) : Option HashTable :=
  let b := hashBucket key
  match (t.storage b).find? fun e => e.key = key with
  | some bucket => do
    let node ← t.node.free bucket.gaddr
    some ⟨node, t.amountElements - 1, Function.update t.storage b ((t.storage b).eraseP fun e => e.key = key)⟩
  | none => some t

def get (V : Type) [Integral V] (t : HashTable) (key : UInt32) (held : List Request) : Option (Option V × HashTable) :=
  match (t.storage (hashBucket key)).find? fun e => e.key = key with
  | some bucket => do
    let (value, node) ← t.node.read bucket.gaddr (t.serveOthers held)
    some (some (Integral.reinterpret value), { t with node := node })
  | none => some (none, t)

def count (V : Type) [Integral V] (t : HashTable) (key : UInt32) (held : List Request) :
    Option (UInt64 × HashTable) := do
  let (value, t) ← t.get V key held
  some (value.isSome.toUInt64, t)

def size (t : HashTable) : UInt64 := t.amountElements

def clear (t : HashTable) : Option HashTable := do
  let node ← ((List.finRange 64).flatMap t.storage).foldlM (fun node e => node.free e.gaddr) t.node
  some (new node)

end HashTable

inductive TableOp (V : Type) where
  | insert (key : UInt32) (value : V) (block : Option (UInt64 × SaveData UInt64))
  | erase (key : UInt32)
  | get (key : UInt32)
  | count (key : UInt32)
  | size
  | clear
deriving DecidableEq, Repr

inductive Answer (V : Type) where
  | done
  | value (v : Option V)
  | number (n : UInt64)
deriving DecidableEq, Repr

variable {V : Type} [Integral V]

namespace HashTable

def perform (t : HashTable) (op : TableOp V) (held : List Request) : Option (Answer V × HashTable) :=
  match op with
  | .insert key value block => (t.insert key value block held).map fun t => (.done, t)
  | .erase key => (t.erase key).map fun t => (.done, t)
  | .get key => (t.get V key held).map fun p => (.value p.1, p.2)
  | .count key => (t.count V key held).map fun p => (.number p.1, p.2)
  | .size => some (.number t.size, t)
  | .clear => t.clear.map fun t => (.done, t)

end HashTable
end CacheCoherence
