import CacheCoherence.Foundation.TransitionRuns

/-! # Posted receives on one connection

A client runs `sendAddress`, `sendData`, `sendLock` and `prepareForInvalidate`, a server runs `receive` and its
handlers. Every statement that touches the socket, the queue pair or a completion queue is a step of its own. An
address on the socket counts only as sent or read; the connections that a handler opens meanwhile are other pairs,
and the handler is taken to come back from them.
-/
namespace CacheCoherence.QueuePairs

inductive ImmData where
  | default
  | malloc
  | read
  | free
  | write
  | locks
  | reset
  | invalidate
deriving DecidableEq, Repr

inductive Sender where
  | sendAddress
  | sendData
  | sendLock
deriving DecidableEq, Repr

inductive Call where
  | malloc
  | read
  | free
  | invalidate
  | write
  | locks
  | reset
deriving DecidableEq, Repr

def Call.sender : Call → Sender
  | .malloc | .read | .free | .invalidate => .sendAddress
  | .write => .sendData
  | .locks | .reset => .sendLock

def Call.immData : Call → ImmData
  | .malloc => .malloc
  | .read => .read
  | .free => .free
  | .invalidate => .invalidate
  | .write => .write
  | .locks => .locks
  | .reset => .reset

/-- The default argument of `RcQueuePair::connect`, which `setRnrRetry` takes. -/
def retryCount : ℕ := 0

/-- A write with immediate on its way, with the number of times that it is sent again for want of a receive. -/
structure WriteWithImm where
  immData : ImmData
  rnrRetry : ℕ
deriving DecidableEq, Repr

def createWriteWithImm (immData : ImmData) : WriteWithImm := ⟨immData, retryCount⟩

/-- What one side has: posted receives, receive completions, send completions (whether the write arrived) and
addresses of buffers that the other side has written to the socket. -/
structure Side where
  receives : ℕ
  arrived : List ImmData
  sent : List Bool
  stream : ℕ
deriving DecidableEq, Repr

/-- The client stands before the named statement; `ready` is between two calls, `postSecond` and `pollSecond` are in
`prepareForInvalidate`. -/
inductive ClientCtl where
  | ready
  | readAddress (r : Call)
  | postWrite (r : Call)
  | pollSend (r : Call)
  | postRecv (r : Call)
  | pollRecv (r : Call)
  | postSecond
  | pollSecond
  | closed
  | failed
deriving DecidableEq, Repr

/-- The same for the server: `pollFirst` and `postSecond` are in `startInvalidations`, and `more` is what `receive`
returns. -/
inductive ServerCtl where
  | writeAddress
  | readAddress
  | postRecv
  | pollRecv
  | handle (immData : ImmData)
  | pollFirst
  | postSecond
  | pollSend (more : Bool)
  | closed
  | failed
deriving DecidableEq, Repr

structure State where
  client : ClientCtl
  server : ServerCtl
  atClient : Side
  atServer : Side
  toClient : List WriteWithImm
  toServer : List WriteWithImm
deriving DecidableEq, Repr

inductive Role where
  | client
  | server
deriving DecidableEq, Repr

/-- `call` begins a call of the client and `close` ends the connection between two calls; `server` says whether
`handleWrite` finds sharers. -/
inductive Action where
  | call (r : Call)
  | close
  | client
  | server (shared : Bool)
  | arrive (receiver : Role)
deriving DecidableEq, Repr

def connected : State := ⟨.ready, .writeAddress, ⟨0, [], [], 0⟩, ⟨0, [], [], 0⟩, [], []⟩

/-- The first write on its way from `source` arrives at `target`. Without a receive it is sent again, or fails. -/
def arrival (target source : Side) : List WriteWithImm → Option (Side × Side × List WriteWithImm)
  | [] => none
  | w :: rest =>
    match target.receives, w.rnrRetry with
    | k + 1, _ =>
      some ({ target with receives := k, arrived := target.arrived ++ [w.immData] },
        { source with sent := source.sent ++ [true] }, rest)
    | 0, k + 1 => some (target, source, { w with rnrRetry := k } :: rest)
    | 0, 0 => some (target, { source with sent := source.sent ++ [false] }, rest)

def clientStep (s : State) : Option State :=
  match s.client with
  | .readAddress r =>
    match s.atClient.stream with
    | 0 => none
    | k + 1 => some { s with client := .postWrite r, atClient := { s.atClient with stream := k } }
  | .postWrite r =>
    some { s with client := .pollSend r, toServer := s.toServer ++ [createWriteWithImm r.immData] }
  | .pollSend r =>
    match s.atClient.sent with
    | [] => none
    | ok :: rest =>
      some { s with client := if ok then .postRecv r else .failed, atClient := { s.atClient with sent := rest } }
  | .postRecv r =>
    some { s with client := .pollRecv r, atClient := { s.atClient with receives := s.atClient.receives + 1 } }
  | .pollRecv r =>
    match s.atClient.arrived with
    | [] => none
    | newImmData :: rest =>
      some { s with
        client := if r.sender = .sendData ∧ newImmData = .invalidate then .postSecond else .ready
        atClient := { s.atClient with arrived := rest } }
  | .postSecond =>
    some { s with client := .pollSecond, atClient := { s.atClient with receives := s.atClient.receives + 1 } }
  | .pollSecond =>
    match s.atClient.arrived with
    | [] => none
    | _ :: rest => some { s with client := .closed, atClient := { s.atClient with arrived := rest } }
  | .ready | .closed | .failed => none

def reply (s : State) (immData : ImmData) (next : ServerCtl) : State :=
  { s with server := next, toClient := s.toClient ++ [createWriteWithImm immData] }

def pollSend (s : State) (next : ServerCtl) : Option State :=
  match s.atServer.sent with
  | [] => none
  | ok :: rest =>
    some { s with server := if ok then next else .failed, atServer := { s.atServer with sent := rest } }

def handler (shared : Bool) (s : State) : ImmData → State
  | .default => { s with server := .writeAddress }
  | .reset => reply s .reset (.pollSend false)
  | .write => if shared then reply s .invalidate .pollFirst else reply s .default (.pollSend true)
  | _ => reply s .default (.pollSend true)

def serverStep (shared : Bool) (s : State) : Option State :=
  match s.server with
  | .writeAddress =>
    some { s with server := .readAddress, atClient := { s.atClient with stream := s.atClient.stream + 1 } }
  | .readAddress =>
    match s.atServer.stream with
    | 0 => none
    | k + 1 => some { s with server := .postRecv, atServer := { s.atServer with stream := k } }
  | .postRecv =>
    some { s with server := .pollRecv, atServer := { s.atServer with receives := s.atServer.receives + 1 } }
  | .pollRecv =>
    match s.atServer.arrived with
    | [] => none
    | immData :: rest => some { s with server := .handle immData, atServer := { s.atServer with arrived := rest } }
  | .handle immData => some (handler shared s immData)
  | .pollFirst => pollSend s .postSecond
  | .postSecond => some (reply s .default (.pollSend false))
  | .pollSend more => pollSend s (if more then .writeAddress else .closed)
  | .closed | .failed => none

def step (s : State) : Action → Option State
  | .call r =>
    if s.client = .ready then
      some { s with client := .readAddress r, atServer := { s.atServer with stream := s.atServer.stream + 1 } }
    else none
  | .close => if s.client = .ready then some { s with client := .closed } else none
  | .client => clientStep s
  | .server shared => serverStep shared s
  | .arrive .server => (arrival s.atServer s.atClient s.toServer).map fun (target, source, rest) =>
    { s with atServer := target, atClient := source, toServer := rest }
  | .arrive .client => (arrival s.atClient s.atServer s.toClient).map fun (target, source, rest) =>
    { s with atClient := target, atServer := source, toClient := rest }

end CacheCoherence.QueuePairs
