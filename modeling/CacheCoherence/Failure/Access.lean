import CacheCoherence.Caching.RemoteAccess
import CacheCoherence.Foundation.Exits
import CacheCoherence.Locking.AtomicTable
import CacheCoherence.Model.Directory

/-! # The calls of a node with all their exits

`Node::read`, `Node::write`, `Node::Free`, `Node::Malloc` and the handlers of their requests at the home. A call ends
with its result, with an exception of the network, or where it goes through a null pointer. The sessions in which
`setLock` asks `locknode` do not throw here: the lock node stays reachable.
-/
namespace CacheCoherence.Failure
open Exits

inductive Exit where
  | thrown (stage : Stage) (op : NetworkOp)
  | nullPointer
deriving DecidableEq, Repr

/-- A node and what its calls reach: the lock table that answers it, with the requests that the table has taken,
the keys under which other nodes have cached items, and the nodes that were called to remove one. -/
structure Server (V : Type) where
  id : NodeId
  mem : UInt64 → Option (SaveData V)
  cache : Cache V
  locks : LockTable
  decided : List Decision
  copies : NodeId → UInt64 → Bool
  called : List NodeId

/-- What a call meets: its session with `port` and its own replies, the sessions of a broadcast, whether a node has
removed its item although its reply is not taken, the address that `port` replies, and the requests of others for
locks while the call holds its own. -/
structure Env (V : Type) where
  net : Network V
  peer : ℕ → Network V
  removes : ℕ → Bool
  reply : SendGlobalAddr → GlobalAddress
  held : List (NodeId × Lock)

abbrev Call (V : Type) := Prog Exit (Server V)

/-- What `performRead` returns when it is not null: the record in the node's memory, or one made for the caller. -/
inductive Pointer (V : Type) where
  | record (ptr : UInt64)
  | copy (data : V)
deriving DecidableEq, Repr

variable {V : Type}

def Server.request (s : Server V) (n : NodeId) (l : Lock) : Server V :=
  { s with
    locks := (s.locks.setLock l.id l.state).1
    decided := s.decided ++ [⟨n, l, (s.locks.setLock l.id l.state).2⟩] }

def Server.put (s : Server V) (ptr : UInt64) (d : Option (SaveData V)) : Server V :=
  { s with mem := Function.update s.mem ptr d }

def self : Call V NodeId := act fun s => some (.ok s.id, s)

def isLocal (gaddr : GlobalAddress) : Call V Bool := act fun s => some (.ok (gaddr.getNodeId = s.id), s)

def load (ptr : UInt64) : Call V (SaveData V) := act fun s => (s.mem ptr).map fun d => (.ok d, s)

def store (ptr : UInt64) (d : SaveData V) : Call V Unit := act fun s => (s.mem ptr).map fun _ => (.ok (), s.put ptr d)

def remote {α : Type} (m : Remote V α) : Call V α :=
  zoom Server.cache (fun c s => { s with cache := c }) (fun e => .thrown e.1 e.2) m

def setLock (lockId : UInt16) (state : LockState) : Call V Bool :=
  act fun s => some (.ok (s.locks.setLock lockId state).2, s.request s.id ⟨lockId, state⟩)

def others (env : Env V) : Call V Unit :=
  act fun s => some (.ok (), (env.held.filter fun r => r.1 ≠ s.id).foldl (fun s r => s.request r.1 r.2) s)

def postReply (env : Env V) : Call V Unit :=
  remote ([.registerSend, .postWorkRequest, .pollSend].forM (attempt env.net .serve))

def malloc (env : Env V) (size : UInt64) (block : Option (UInt64 × SaveData V)) : Call V GlobalAddress := do
  match block with
  | some (buffer, content) =>
    act fun s => some (.ok (), s.put buffer content)
    pure ⟨size, buffer, ← self⟩
  | none =>
    remote (connectClientSocket env.net .connect)
    remote (exchange env.net .request)
    remote (attempt env.net .close .setToResetState)
    pure (env.reply (GlobalAddress.sendable ⟨size, 0, 0⟩ (← self)))

def removeCopy (n : NodeId) (gaddr : GlobalAddress) : Call V Unit :=
  act fun s => some (.ok (), { s with copies := fun m k => if m = n ∧ k = gaddr.hash then false else s.copies m k })

/-- `sendAddress` with an INVALIDATE. The node that takes it removes its item, then replies. -/
def sendInvalidate (env : Env V) (i : ℕ) (n : NodeId) (gaddr : GlobalAddress) : Call V Unit := do
  remote ([.registerSend, .registerRecv, .writeSocket, .readSocket, .postWorkRequest].forM
    (attempt (env.peer i) .request))
  if env.removes i then removeCopy n gaddr
  remote ([.pollSend, .postRecv, .pollRecv].forM (attempt (env.peer i) .request))
  removeCopy n gaddr

def invalidate (env : Env V) (i : ℕ) (n : NodeId) (gaddr : GlobalAddress) : Call V Unit := do
  act fun s => some (.ok (), { s with called := s.called ++ [n] })
  remote (connectClientSocket (env.peer i) .connect)
  sendInvalidate env i n gaddr
  remote (closeClientSocket (env.peer i))

def broadcastInvalidations (env : Env V) : ℕ → List NodeId → GlobalAddress → Call V Unit
  | _, [], _ => pure ()
  | i, n :: nodes, gaddr => do
    invalidate env i n gaddr
    broadcastInvalidations env (i + 1) nodes gaddr

def free (env : Env V) (gaddr : GlobalAddress) : Call V GlobalAddress := do
  if ← isLocal gaddr then
    let d ← load gaddr.ptr
    if d.freeInvalidates then broadcastInvalidations env 0 d.sharerNodes gaddr
    act fun s => some (.ok (), s.put gaddr.ptr none)
    pure gaddr.freed
  else
    remote (connectClientSocket env.net .connect)
    remote (exchange env.net .request)
    remote (closeClientSocket env.net)
    pure (env.reply (gaddr.sendable (← self)))

def performRead (env : Env V) (gaddr : GlobalAddress) (srcID : NodeId) : Call V (Option (Pointer V)) := do
  if ← isLocal gaddr then
    let data ← load gaddr.ptr
    pure (if data.readable then some (.record gaddr.ptr) else none)
  else
    let data ← remote (CacheCoherence.performRead env.net gaddr srcID)
    pure (some (.copy data))

def valueOf : Option (Pointer V) → Call V V
  | none => throw .nullPointer
  | some (.record ptr) => do pure (← load ptr).data
  | some (.copy data) => pure data

def read [Zero V] (env : Env V) (gaddr : GlobalAddress) : Call V V := do
  if ← setLock gaddr.id .sharedlock then
    others env
    let result ← performRead env gaddr (← self)
    let _ ← setLock gaddr.id .unlocked
    valueOf result
  else pure 0

def performWrite (env : Env V) (data : Data V) (srcID : NodeId) : Call V GlobalAddress := do
  if ← isLocal data.ga then
    store data.ga.ptr (.owned data.data srcID)
    pure data.ga
  else remote (CacheCoherence.performWrite env.net data srcID)

def writeLocked (env : Env V) (data : Data V) : Call V GlobalAddress := do
  if ← isLocal data.ga then
    let d ← load data.ga.ptr
    if d.writeInvalidates then broadcastInvalidations env 0 d.sharerNodes data.ga
    store data.ga.ptr (.written data.data (← self))
    pure data.ga
  else performWrite env data (← self)

def write (env : Env V) (data : Data V) : Call V GlobalAddress := do
  if ← setLock data.ga.id .exclusive then
    others env
    let result ← writeLocked env data
    let _ ← setLock data.ga.id .unlocked
    pure result
  else pure ⟨0, 0, 0⟩

/-- A request for an address of another node is forwarded; here handlers run at the home. -/
def handleRead (env : Env V) (sga : SendGlobalAddr) : Call V V := do
  match ← performRead env (.ofSendable sga) sga.srcID with
  | none => throw .nullPointer
  | some (.record ptr) =>
    let data ← load ptr
    store ptr (data.register sga.srcID)
    postReply env
    pure data.data
  | some (.copy _) => act fun _ => none

def startInvalidations (env : Env V) (data : Data V) (nodes : List NodeId) (srcID : NodeId) : Call V Unit := do
  postReply env
  let _ ← performWrite env data srcID
  postReply env
  remote (attempt env.net .serve .setToResetState)
  broadcastInvalidations env 0 nodes data.ga

def handleWrite (env : Env V) (sd : SendingData V) : Call V Bool := do
  let data := Data.ofSendable sd
  match ← performRead env data.ga sd.sga.srcID with
  | some (.record ptr) =>
    let olddata ← load ptr
    if olddata.handleInvalidates then
      startInvalidations env data olddata.sharerNodes sd.sga.srcID
      pure false
    else
      let _ ← performWrite env data sd.sga.srcID
      postReply env
      pure true
  | none =>
    let _ ← performWrite env data sd.sga.srcID
    postReply env
    pure true
  | some (.copy _) => act fun _ => none

def handleFree (env : Env V) (sga : SendGlobalAddr) : Call V GlobalAddress := do
  let res ← free env (.ofSendable sga)
  postReply env
  pure res

section
variable {s : Server V} {ga : GlobalAddress} {ptr : UInt64} {d : SaveData V} {l : Lock}

@[simp] theorem request_id (s : Server V) (n : NodeId) (l : Lock) : (s.request n l).id = s.id := rfl
@[simp] theorem request_mem (s : Server V) (n : NodeId) (l : Lock) : (s.request n l).mem = s.mem := rfl
@[simp] theorem request_cache (s : Server V) (n : NodeId) (l : Lock) : (s.request n l).cache = s.cache := rfl
@[simp] theorem request_copies (s : Server V) (n : NodeId) (l : Lock) : (s.request n l).copies = s.copies := rfl
@[simp] theorem request_called (s : Server V) (n : NodeId) (l : Lock) : (s.request n l).called = s.called := rfl

theorem requests_same (rs : List (NodeId × Lock)) (s : Server V) :
    let t := rs.foldl (fun s r => s.request r.1 r.2) s
    t.id = s.id ∧ t.mem = s.mem ∧ t.cache = s.cache ∧ t.copies = s.copies ∧ t.called = s.called := by
  induction rs generalizing s with
  | nil => exact ⟨rfl, rfl, rfl, rfl, rfl⟩
  | cons r rs ih => exact ih (s.request r.1 r.2)

@[simp] theorem put_id (s : Server V) (ptr : UInt64) (d : Option (SaveData V)) : (s.put ptr d).id = s.id := rfl
@[simp] theorem put_mem (s : Server V) (ptr : UInt64) (d : Option (SaveData V)) :
    (s.put ptr d).mem = Function.update s.mem ptr d := rfl
@[simp] theorem put_copies (s : Server V) (ptr : UInt64) (d : Option (SaveData V)) : (s.put ptr d).copies = s.copies :=
  rfl
@[simp] theorem put_called (s : Server V) (ptr : UInt64) (d : Option (SaveData V)) : (s.put ptr d).called = s.called :=
  rfl

@[simp] theorem exec_self (s : Server V) : self.exec s = some (.ok s.id, s) := rfl

theorem exec_isLocal (h : ga.id = s.id) : (isLocal ga).exec s = some (.ok true, s) := by
  simp [isLocal, GlobalAddress.getNodeId, h]

theorem exec_isRemote (h : ga.id ≠ s.id) : (isLocal ga).exec s = some (.ok false, s) := by
  simp [isLocal, GlobalAddress.getNodeId, h]

theorem exec_load (h : s.mem ptr = some d) : (load ptr).exec s = some (.ok d, s) := by
  simp [load, h]

theorem exec_store (h : s.mem ptr ≠ none) (d : SaveData V) : (store ptr d).exec s = some (.ok (), s.put ptr d) := by
  obtain ⟨d', hd'⟩ := Option.ne_none_iff_exists'.mp h
  simp [store, hd']

theorem exec_setLock_eq (i : UInt16) (st : LockState) (s : Server V) :
    (setLock i st).exec s = some (.ok (s.locks.setLock i st).2, s.request s.id ⟨i, st⟩) := rfl

theorem exec_setLock (hgrant : LockTable.grants (s.locks l.id) l.state = true) :
    (setLock l.id l.state).exec s = some (.ok true, s.request s.id l) := by
  rw [exec_setLock_eq, LockTable.setLock_snd, hgrant]

theorem exec_performRead_local {env : Env V} {n : NodeId} (hid : ga.id = s.id) (hd : s.mem ga.ptr = some d) :
    (performRead env ga n).exec s = some (.ok (if d.readable then some (.record ga.ptr) else none), s) := by
  unfold performRead
  rw [exec_bind_ok (exec_isLocal hid)]
  exact exec_bind_ok (exec_load hd)

theorem exec_performWrite_local {env : Env V} {data : Data V} {n : NodeId} (hid : data.ga.id = s.id)
    (hd : s.mem data.ga.ptr ≠ none) :
    (performWrite env data n).exec s = some (.ok data.ga, s.put data.ga.ptr (SaveData.owned data.data n)) := by
  unfold performWrite
  rw [exec_bind_ok (exec_isLocal hid)]
  exact exec_bind_ok (exec_store hd _)

end
end CacheCoherence.Failure
