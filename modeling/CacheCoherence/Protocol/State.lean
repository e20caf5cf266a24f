import CacheCoherence.Model.Cache
import CacheCoherence.Model.Directory
import CacheCoherence.Model.LockTable

/-! # Nodes, messages and the state of the whole system

A node is one thread. Its control says at which blocking point of which source function the
thread stands, with the locals it still needs; between two such points it runs alone. The
queue-pair handshake of `connectClientSocket` and `connectAndReceive` is one step, and a
connection then carries one request and its replies at a time.
-/
namespace CacheCoherence.Protocol

/-- A stored value. The stamp is a history variable that no step reads: the number of the call
that writes the value, or of the allocation that finds it, in the log; 0 before the run. -/
structure Word where
  bits : UInt64
  stamp : ℕ
deriving DecidableEq, Repr

/-- The value of a cache item. `fetched` is a history variable too: the item stems from the
miss path of `performRead`, not from a write of the node. -/
structure Copy where
  word : Word
  fetched : Bool
deriving DecidableEq, Repr

inductive Op (V : Type) where
  | read (ga : GlobalAddress)
  | write (d : Data V)
  | free (ga : GlobalAddress)
  | malloc (size : UInt64)
  | setLock (l : Lock)
deriving DecidableEq, Repr

inductive Access where
  | read (ga : GlobalAddress)
  | write (d : Data Word)
deriving DecidableEq, Repr

/-- The pointer that `performRead` returns: into the node's memory, null, or to a fresh copy. -/
inductive Found where
  | record (ptr : UInt64)
  | null
  | copy (w : Word)
deriving DecidableEq, Repr

inductive Accessed where
  | read (ga : GlobalAddress) (result : Found)
  | write (d : Data Word) (result : GlobalAddress)
deriving DecidableEq, Repr

inductive LockSite where
  | acquire (a : Access)
  | release (a : Accessed)
  | call (l : Lock)
deriving DecidableEq, Repr

inductive Request where
  | malloc (sga : SendGlobalAddr)
  | read (sga : SendGlobalAddr)
  | free (sga : SendGlobalAddr)
  | write (sd : SendingData Word)
  | locks (l : Lock)
  | reset
  | invalidate (sga : SendGlobalAddr)
deriving DecidableEq, Repr

/-- `address`, `data`, `lock` and `removed` are the replies under DEFAULT. -/
inductive Reply where
  | address (sga : SendGlobalAddr)
  | data (w : Word)
  | lock (granted : Bool)
  | removed (count : ℕ)
  | invalidate (sga : SendGlobalAddr)
  | reset
deriving DecidableEq, Repr

inductive Broadcaster where
  | write (d : Data Word)
  | free
  | handleFree (c : NodeId) (srcID : UInt16)
  | startInvalidations (d : Data Word) (srcID : UInt16)
deriving DecidableEq, Repr

/-- What a connection to another node is opened for. `forward` is a handler that was asked
about an address of another node and goes on to ask `port` itself. -/
inductive Exchange where
  | setLock (k : LockSite)
  | performRead (ga : GlobalAddress)
  | performWrite (d : Data Word)
  | free (ga : GlobalAddress)
  | malloc (size : UInt64)
  | invalidate (n : NodeId) (rest : List NodeId) (ga : GlobalAddress) (b : Broadcaster)
  | reconnect (d : Data Word) (result : GlobalAddress)
  | forward (c : NodeId) (r : Request)
deriving DecidableEq, Repr

/-- In `connectClientSocket`; connected, nothing sent; polling for the reply; polling for the
second reply, in `prepareForInvalidate`. -/
inductive Phase where
  | connecting
  | connected
  | waiting
  | again
deriving DecidableEq, Repr

inductive Ctl where
  | idle
  | crashed
  | setLock (k : LockSite)
  | access (a : Access)
  | memcpy (d : Data Word)
  | free (ga : GlobalAddress)
  | malloc (size : UInt64)
  | broadcast (nodes : List NodeId) (ga : GlobalAddress) (b : Broadcaster)
  | discard (ga : GlobalAddress) (client : Option (NodeId × UInt16))
  | exchange (ph : Phase) (e : Exchange)
  | closing (e : Exchange) (r : Reply)
  | serving (c : NodeId)
  | startInvalidations (c : NodeId) (d : Data Word) (nodes : List NodeId) (srcID : UInt16)
deriving DecidableEq, Repr

/-- The result of a call; `none` when its lock was denied. -/
inductive Outcome where
  | read (ga : GlobalAddress) (result : Option Word)
  | write (d : Data Word) (result : Option GlobalAddress)
  | free (ga : GlobalAddress) (result : GlobalAddress)
  | malloc (result : GlobalAddress)
  | setLock (l : Lock) (result : Bool)
deriving DecidableEq, Repr

/-- The history. `lock n l b` is a decision of the lock table on a request of `n`, `answered` the
return of that `setLock` at `n`; `store` is a write that reached the memory of its home. -/
inductive Event where
  | call (n : NodeId) (op : Op Word)
  | ret (n : NodeId) (o : Outcome)
  | lock (n : NodeId) (l : Lock) (granted : Bool)
  | answered (n : NodeId) (l : Lock) (granted : Bool)
  | store (n : NodeId) (ga : GlobalAddress) (w : Word)
  | alloc (ga : GlobalAddress) (w : Word)
  | freed (ga : GlobalAddress)
deriving DecidableEq, Repr

/-- An allocated block: the size it was asked for and the record at its start. -/
structure Block where
  size : UInt64
  record : SaveData Word
deriving DecidableEq, Repr

/-- `suspended` are the writes of the node that stand in the `connectAndReceive` of
`prepareForInvalidate`, so that the node serves one connection before they go on. -/
structure NodeState where
  locks : LockTable
  cache : Cache Copy
  mem : UInt64 → Option Block
  suspended : List (Data Word × GlobalAddress)
  ctl : Ctl

/-- A connection, kept under the id of its client. `up` is the request on its way, `down` are the
replies; it is no longer `open` once the server has closed its side. -/
structure Channel where
  peer : NodeId
  up : Option Request
  down : List Reply
  isOpen : Bool
deriving DecidableEq, Repr

structure State where
  node : NodeId → NodeState
  net : NodeId → Option Channel
  log : List Event

/-- The number that the next event will have in the log. -/
def State.clock (s : State) : ℕ := s.log.length + 1

/-- What the environment decides in a step: the time, and what `malloc(3)` returns. -/
structure Env where
  now : ℤ
  block : Option (UInt64 × SaveData UInt64)

inductive Action where
  | begin (n : NodeId) (op : Op UInt64)
  | accept (m c : NodeId)
  | exec (n : NodeId) (env : Env)

def isLocal (id : NodeId) (ga : GlobalAddress) : Bool := ga.getNodeId == id

@[simp] theorem isLocal_iff (n : NodeId) (ga : GlobalAddress) : isLocal n ga = true ↔ ga.id = n := by
  simp [isLocal, GlobalAddress.getNodeId]

theorem isLocal_of_ne {n : NodeId} {ga : GlobalAddress} (h : ga.id ≠ n) : isLocal n ga = false := by
  simpa [isLocal, GlobalAddress.getNodeId] using h

def Op.stamp (t : ℕ) : Op UInt64 → Op Word
  | .read ga => .read ga
  | .write d => .write ⟨d.size, ⟨d.data, t⟩, d.ga⟩
  | .free ga => .free ga
  | .malloc size => .malloc size
  | .setLock l => .setLock l

def Op.start : Op Word → Ctl
  | .read ga => .setLock (.acquire (.read ga))
  | .write d => .setLock (.acquire (.write d))
  | .free ga => .free ga
  | .malloc size => .malloc size
  | .setLock l => .setLock (.call l)

def Access.ga : Access → GlobalAddress
  | .read ga => ga
  | .write d => d.ga

def Access.mode : Access → LockState
  | .read _ => .sharedlock
  | .write _ => .exclusive

def Access.denied : Access → Outcome
  | .read ga => .read ga none
  | .write d => .write d none

def Accessed.ga : Accessed → GlobalAddress
  | .read ga _ => ga
  | .write d _ => d.ga

/-- The request that `setLock` makes there: `gaddr.id` is the lock id. -/
def LockSite.lock : LockSite → Lock
  | .acquire a => ⟨a.ga.id, a.mode⟩
  | .release a => ⟨a.ga.id, .unlocked⟩
  | .call l => l

def Exchange.target : Exchange → NodeId
  | .setLock _ => locknode
  | .invalidate n _ _ _ => n
  | .forward _ (.locks _) => locknode
  | _ => port

def Exchange.request (n : NodeId) : Exchange → Request
  | .setLock k => .locks k.lock
  | .performRead ga => .read (ga.sendable n)
  | .performWrite d => .write (d.sendable n)
  | .free ga => .free (ga.sendable n)
  | .malloc size => .malloc ((GlobalAddress.mk size 0 0).sendable n)
  | .invalidate _ _ ga _ => .invalidate (ga.sendable n)
  | .reconnect _ _ => .reset
  | .forward _ r => r

/-- `result->data`, read when the call returns. -/
def Found.deref (mem : UInt64 → Option Block) : Found → Option Word
  | .record ptr => (mem ptr).map fun b => b.record.data
  | .null => none
  | .copy w => some w

def stampRecord (t : ℕ) (d : SaveData UInt64) : SaveData Word :=
  ⟨⟨d.data, t⟩, d.iscached, d.ownerNode, d.sharerNodes⟩

end CacheCoherence.Protocol
