import CacheCoherence.Protocol.State

/-! # One step of one node

`exec` runs a node from one blocking point to the next. A step changes the state of the acting
node, at most one connection (its own, or the one of the client it serves) and the history. An
access to memory that is not allocated is undefined and has no step. Network operations do not throw
here: a thread in `connectClientSocket` waits until it is accepted, where the source gives up after
twelve tries with an exception that nobody catches. A thread that would evict items for ever counts
as crashed.
-/
namespace CacheCoherence.Protocol

structure Effect where
  self : NodeState
  wire : Option (NodeId × Option Channel)
  events : List Event

def Effect.apply (e : Effect) (s : State) (n : NodeId) : State where
  node := Function.update s.node n e.self
  net := match e.wire with
    | some (c, ch) => Function.update s.net c ch
    | none => s.net
  log := s.log ++ e.events

namespace NodeState

def goto (ns : NodeState) (c : Ctl) : NodeState := { ns with ctl := c }

def copyRecord (ns : NodeState) (ptr : UInt64) (d : SaveData Word) : NodeState :=
  { ns with mem := Function.update ns.mem ptr ((ns.mem ptr).map fun b => { b with record := d }) }

def lockAnswer (n : NodeId) (ns : NodeState) (granted : Bool) : LockSite → NodeState × List Event
  | .acquire a => if granted then (ns.goto (.access a), []) else (ns.goto .idle, [.ret n a.denied])
  | .release (.read ga f) =>
    match f.deref ns.mem with
    | some w => (ns.goto .idle, [.ret n (.read ga (some w))])
    | none => (ns.goto .crashed, [])
  | .release (.write d result) => (ns.goto .idle, [.ret n (.write d (some result))])
  | .call l => (ns.goto .idle, [.ret n (.setLock l granted)])

/-- `connectAndReceive` returns: to the main loop, or into `prepareForInvalidate`. -/
def endSession (ns : NodeState) : NodeState :=
  match ns.suspended with
  | (d, result) :: rest =>
    { ns with suspended := rest, ctl := .exchange .connecting (.reconnect d result) }
  | [] => ns.goto .idle

def closed (n : NodeId) (ns : NodeState) : Exchange → Reply → NodeState × List Event
  | .setLock k, .lock granted =>
    let (ns', es) := ns.lockAnswer n granted k
    (ns', .answered n k.lock granted :: es)
  | .performRead ga, .data w => (ns.goto (.setLock (.release (.read ga (.copy w)))), [])
  | .performWrite d, .address sga =>
    (ns.goto (.setLock (.release (.write d (.ofSendable sga)))), [])
  | .free ga, .address sga => (ns.goto .idle, [.ret n (.free ga (.ofSendable sga))])
  | .invalidate _ rest ga b, _ => (ns.goto (.broadcast rest ga b), [])
  | .reconnect d result, _ => (ns.goto (.setLock (.release (.write d result))), [])
  | _, _ => (ns.goto .crashed, [])

section
variable {n : NodeId} {ns : NodeState} {c : Ctl} {ptr : UInt64} {d : SaveData Word} {g : Bool} {k : LockSite}
variable {e : Exchange} {r : Reply}

@[simp] theorem goto_ctl : (ns.goto c).ctl = c := rfl
@[simp] theorem goto_locks : (ns.goto c).locks = ns.locks := rfl
@[simp] theorem goto_cache : (ns.goto c).cache = ns.cache := rfl
@[simp] theorem goto_mem : (ns.goto c).mem = ns.mem := rfl
@[simp] theorem goto_suspended : (ns.goto c).suspended = ns.suspended := rfl

@[simp] theorem copyRecord_ctl : (ns.copyRecord ptr d).ctl = ns.ctl := rfl
@[simp] theorem copyRecord_locks : (ns.copyRecord ptr d).locks = ns.locks := rfl
@[simp] theorem copyRecord_cache : (ns.copyRecord ptr d).cache = ns.cache := rfl
@[simp] theorem copyRecord_suspended : (ns.copyRecord ptr d).suspended = ns.suspended := rfl

@[simp] theorem copyRecord_mem_self :
    (ns.copyRecord ptr d).mem ptr = (ns.mem ptr).map fun b => { b with record := d } := by
  simp [copyRecord]

theorem copyRecord_mem_ne {q : UInt64} (h : q ≠ ptr) : (ns.copyRecord ptr d).mem q = ns.mem q := by
  simp [copyRecord, h]

theorem lockAnswer_fst : (ns.lockAnswer n g k).1 = ns.goto (ns.lockAnswer n g k).1.ctl := by
  unfold lockAnswer
  split
  · split <;> rfl
  · split <;> rfl
  all_goals rfl

theorem lockAnswer_snd (n : NodeId) (ns : NodeState) (g : Bool) (k : LockSite) :
    (ns.lockAnswer n g k).2 = [] ∨ ∃ o, (ns.lockAnswer n g k).2 = [.ret n o] := by
  unfold lockAnswer
  split
  · split
    · exact Or.inl rfl
    · exact Or.inr ⟨_, rfl⟩
  · split
    · exact Or.inr ⟨_, rfl⟩
    · exact Or.inl rfl
  · exact Or.inr ⟨_, rfl⟩
  · exact Or.inr ⟨_, rfl⟩

theorem closed_fst : (ns.closed n e r).1 = ns.goto (ns.closed n e r).1.ctl := by
  unfold closed
  split
  · exact lockAnswer_fst
  all_goals rfl

@[simp] theorem endSession_locks : ns.endSession.locks = ns.locks := by unfold endSession; split <;> rfl
@[simp] theorem endSession_cache : ns.endSession.cache = ns.cache := by unfold endSession; split <;> rfl
@[simp] theorem endSession_mem : ns.endSession.mem = ns.mem := by unfold endSession; split <;> rfl

end

end NodeState

variable (n : NodeId) (ns : NodeState) (env : Env)

def connect (e : Exchange) : Effect := ⟨ns.goto (.exchange .connecting e), none, []⟩

def stepSetLock (k : LockSite) : Effect :=
  if n = locknode then
    let (locks, granted) := ns.locks.setLock k.lock.id k.lock.state
    let (ns', es) := { ns with locks := locks }.lockAnswer n granted k
    ⟨ns', none, .lock n k.lock granted :: .answered n k.lock granted :: es⟩
  else connect ns (.setLock k)

/-- `performRead` as `Node::read` calls it, and the body of `Node::write` up to its first
connection. -/
def stepAccess : Access → Option Effect
  | .read ga =>
    if isLocal n ga then do
      let b ← ns.mem ga.ptr
      let found := if b.record.readable then Found.record ga.ptr else .null
      some ⟨ns.goto (.setLock (.release (.read ga found))), none, []⟩
    else
      match ns.cache.getCacheItem env.now ga with
      | (cache, some it) =>
        some ⟨{ ns with cache := cache }.goto (.setLock (.release (.read ga (.copy it.data.word)))), none, []⟩
      | (_, none) => some (connect ns (.performRead ga))
  | .write d =>
    if isLocal n d.ga then do
      let b ← ns.mem d.ga.ptr
      let next := if b.record.writeInvalidates then
        Ctl.broadcast b.record.sharerNodes d.ga (.write d) else .memcpy d
      some ⟨ns.goto next, none, []⟩
    else some (connect ns (.performWrite d))

def stepFree (ga : GlobalAddress) : Option Effect :=
  if isLocal n ga then do
    let b ← ns.mem ga.ptr
    let next := if b.record.freeInvalidates then
      Ctl.broadcast b.record.sharerNodes ga .free else .discard ga none
    some ⟨ns.goto next, none, []⟩
  else some (connect ns (.free ga))

/-- `malloc(3)` returns a block that is not in use, with any content, or null. -/
def allocate (size : UInt64) (t : ℕ) : Option (NodeState × GlobalAddress × List Event) := do
  let (ptr, content) ← env.block
  let record := stampRecord t content
  some ({ ns with mem := Function.update ns.mem ptr (some ⟨size, record⟩) }, ⟨size, ptr, n⟩,
    [.alloc ⟨size, ptr, n⟩ record.data])

def Env.sound : Bool := env.block.all fun p => p.1 ≠ 0 && (ns.mem p.1).isNone

def stepMalloc (size : UInt64) (t : ℕ) : Effect :=
  match allocate n ns env size t with
  | some (ns', ga, es) => ⟨ns'.goto .idle, none, es ++ [.ret n (.malloc ga)]⟩
  | none => connect ns (.malloc size)

/-- The head of the loop in `broadcastInvalidations`, and what follows the loop. -/
def stepBroadcast (ga : GlobalAddress) (b : Broadcaster) : List NodeId → Effect
  | m :: rest => connect ns (.invalidate m rest ga b)
  | [] =>
    match b with
    | .write d => ⟨ns.goto (.memcpy d), none, []⟩
    | .free => ⟨ns.goto (.discard ga none), none, []⟩
    | .handleFree c srcID => ⟨ns.goto (.discard ga (some (c, srcID))), none, []⟩
    | .startInvalidations _ _ => ⟨ns.endSession, none, []⟩

def Channel.reply (ch : Channel) (r : Reply) : Channel := { ch with up := none, down := ch.down ++ [r] }

/-- `free(3)` at the end of `Node::Free`; a handler then sends the address back. -/
def stepDiscard (net : NodeId → Option Channel) (ga : GlobalAddress) :
    Option (NodeId × UInt16) → Option Effect
  | none =>
    some ⟨{ ns with mem := Function.update ns.mem ga.ptr none }.goto .idle, none,
      [.freed ga, .ret n (.free ga ga.freed)]⟩
  | some (c, srcID) => do
    let ch ← net c
    some ⟨{ ns with mem := Function.update ns.mem ga.ptr none }.goto (.serving c),
      some (c, some (ch.reply (.address (ga.freed.sendable srcID)))), [.freed ga]⟩

/-- The client posts its request; `performWrite` has changed its cache before that. -/
def stepSend (ch : Channel) : Exchange → Effect
  | .performWrite d =>
    match ns.cache.alterCacheItem ⟨d.ga, ⟨d.data, false⟩, env.now, env.now⟩ d.ga with
    | some cache =>
      ⟨{ ns with cache := cache }.goto (.exchange .waiting (.performWrite d)),
        some (n, some { ch with up := some ((Exchange.performWrite d).request n) }), []⟩
    | none => ⟨ns.goto .crashed, none, []⟩
  | .reconnect d result =>
    ⟨ns.goto (.closing (.reconnect d result) .reset), some (n, some { ch with up := some .reset }), []⟩
  | e => ⟨ns.goto (.exchange .waiting e), some (n, some { ch with up := some (e.request n) }), []⟩

/-- The client takes the reply it polls for and posts RESET. The remote branch of `Malloc`
closes its socket instead; after INVALIDATE a writer polls once more. -/
def stepReceive (ch : Channel) (r : Reply) (rest : List Reply) : Exchange → Effect
  | .performRead ga =>
    match r with
    | .data w =>
      match ns.cache.addCacheItem ga ⟨ga, ⟨w, true⟩, env.now, env.now⟩ with
      | some cache =>
        ⟨{ ns with cache := cache }.goto (.closing (.performRead ga) r),
          some (n, some { ch with up := some .reset, down := rest }), []⟩
      | none => ⟨ns.goto .crashed, none, []⟩
    | _ => ⟨ns.goto .crashed, none, []⟩
  | .performWrite d =>
    match r with
    | .invalidate _ =>
      ⟨ns.goto (.exchange .again (.performWrite d)), some (n, some { ch with down := rest }), []⟩
    | _ =>
      ⟨ns.goto (.closing (.performWrite d) r),
        some (n, some { ch with up := some .reset, down := rest }), []⟩
  | .malloc _ =>
    match r with
    | .address sga => ⟨ns.goto .idle, some (n, none), [.ret n (.malloc (.ofSendable sga))]⟩
    | _ => ⟨ns.goto .crashed, none, []⟩
  | e => ⟨ns.goto (.closing e r), some (n, some { ch with up := some .reset, down := rest }), []⟩

/-- The second reply in `prepareForInvalidate`: both sides close, and the node listens on its
own port with the write suspended. -/
def stepAgain (d : Data Word) : Reply → Effect
  | .address sga =>
    ⟨{ ns with suspended := (d, .ofSendable sga) :: ns.suspended }.goto .idle, some (n, none), []⟩
  | _ => ⟨ns.goto .crashed, none, []⟩

variable (c : NodeId) (ch : Channel)

def forward (r : Request) : Effect :=
  ⟨ns.goto (.exchange .connecting (.forward c r)), some (c, some { ch with up := none }), []⟩

def handleRead (sga : SendGlobalAddr) : Option Effect :=
  let gaddr := GlobalAddress.ofSendable sga
  if isLocal n gaddr then do
    let b ← ns.mem gaddr.ptr
    if b.record.readable then
      some ⟨ns.copyRecord gaddr.ptr (b.record.register sga.srcID),
        some (c, some (ch.reply (.data b.record.data))), []⟩
    else some ⟨ns.goto .crashed, none, []⟩
  else
    match ns.cache.getCacheItem env.now gaddr with
    | (cache, some it) =>
      some ⟨{ ns with cache := cache }, some (c, some (ch.reply (.data it.data.word))), []⟩
    | (_, none) => some (forward ns c ch (.read sga))

def handleWrite (sd : SendingData Word) : Option Effect :=
  let d := Data.ofSendable sd
  if isLocal n d.ga then do
    let b ← ns.mem d.ga.ptr
    if b.record.readable && b.record.handleInvalidates then
      some ⟨ns.goto (.startInvalidations c d b.record.sharerNodes sd.sga.srcID),
        some (c, some (ch.reply (.invalidate (d.ga.sendable sd.sga.srcID)))), []⟩
    else
      some ⟨ns.copyRecord d.ga.ptr (.owned d.data sd.sga.srcID),
        some (c, some (ch.reply (.address (d.ga.sendable sd.sga.srcID)))),
        [.store sd.sga.srcID d.ga d.data]⟩
  else some (forward ns c ch (.write sd))

def handleFree (sga : SendGlobalAddr) : Option Effect :=
  let gaddr := GlobalAddress.ofSendable sga
  if isLocal n gaddr then do
    let b ← ns.mem gaddr.ptr
    let next := if b.record.freeInvalidates then
      Ctl.broadcast b.record.sharerNodes gaddr (.handleFree c sga.srcID)
      else .discard gaddr (some (c, sga.srcID))
    some ⟨ns.goto next, some (c, some { ch with up := none }), []⟩
  else some (forward ns c ch (.free sga))

def handleAllocation (sga : SendGlobalAddr) (t : ℕ) : Effect :=
  match allocate n ns env sga.size t with
  | some (ns', ga, es) => ⟨ns', some (c, some (ch.reply (.address (ga.sendable sga.srcID)))), es⟩
  | none => forward ns c ch (.malloc sga)

def handleLocks (l : Lock) : Effect :=
  if n = locknode then
    let (locks, granted) := ns.locks.setLock l.id l.state
    ⟨{ ns with locks := locks }, some (c, some (ch.reply (.lock granted))), [.lock c l granted]⟩
  else forward ns c ch (.locks l)

def handleInvalidation (sga : SendGlobalAddr) : Effect :=
  let (cache, count) := ns.cache.removeCacheItem (.ofSendable sga)
  ⟨{ ns with cache := cache }, some (c, some (ch.reply (.removed count))), []⟩

def handleReset : Effect :=
  ⟨ns.endSession, some (c, some { ch.reply .reset with isOpen := false }), []⟩

def receive (t : ℕ) : Request → Option Effect
  | .malloc sga => some (handleAllocation n ns env c ch sga t)
  | .read sga => handleRead n ns env c ch sga
  | .free sga => handleFree n ns c ch sga
  | .write sd => handleWrite n ns c ch sd
  | .locks l => some (handleLocks n ns c ch l)
  | .reset => some (handleReset ns c ch)
  | .invalidate sga => some (handleInvalidation ns c ch sga)

/-- `startInvalidations` after the INVALIDATE reply: the record is overwritten, the second reply
sent and the connection closed; the broadcast to the old sharers is next. -/
def stepStartInvalidations (d : Data Word) (nodes : List NodeId) (srcID : UInt16) : Option Effect := do
  let _ ← ns.mem d.ga.ptr
  some ⟨(ns.copyRecord d.ga.ptr (.owned d.data srcID)).goto
      (.broadcast nodes d.ga (.startInvalidations d srcID)),
    some (c, some { ch.reply (.address (d.ga.sendable srcID)) with isOpen := false }),
    [.store srcID d.ga d.data]⟩

def stepMemcpy (d : Data Word) : Option Effect := do
  let _ ← ns.mem d.ga.ptr
  some ⟨(ns.copyRecord d.ga.ptr (.written d.data n)).goto (.setLock (.release (.write d d.ga))), none,
    [.store n d.ga d.data]⟩

/-- The next step of node `n`, whose thread decides it alone; `none` while it has to wait. -/
def exec (s : State) : Option Effect :=
  match ns.ctl with
  | .idle | .crashed | .exchange .connecting _ => none
  | .setLock k => some (stepSetLock n ns k)
  | .access a => stepAccess n ns env a
  | .memcpy d => stepMemcpy n ns d
  | .free ga => stepFree n ns ga
  | .malloc size => some (stepMalloc n ns env size s.clock)
  | .broadcast nodes ga b => some (stepBroadcast ns ga b nodes)
  | .discard ga client => stepDiscard n ns s.net ga client
  | .exchange .connected e => (s.net n).map fun ch => stepSend n ns env ch e
  | .exchange .waiting e =>
    match s.net n with
    | some ch =>
      match ch.down with
      | r :: rest => some (stepReceive n ns env ch r rest e)
      | [] => none
    | none => none
  | .exchange .again e =>
    match e, s.net n with
    | .performWrite d, some ch => ch.down.head?.map fun r => stepAgain n ns d r
    | _, _ => none
  | .closing e r =>
    match s.net n with
    | some ch =>
      match ch.down with
      | .reset :: _ => let (ns', es) := ns.closed n e r; some ⟨ns', some (n, none), es⟩
      | _ => none
    | none => none
  | .serving c =>
    match s.net c with
    | some ch => if ch.peer = n then ch.up.bind (receive n ns env c ch s.clock) else none
    | none => none
  | .startInvalidations c d nodes srcID => do
    let ch ← s.net c
    stepStartInvalidations ns c ch d nodes srcID

def State.begun (s : State) (n : NodeId) (op : Op Word) : State :=
  Effect.apply ⟨(s.node n).goto op.start, none, [.call n op]⟩ s n

def beginCall (s : State) (op : Op Word) : Option State :=
  if (s.node n).ctl = .idle ∧ (s.node n).suspended = [] then some (s.begun n op) else none

def State.accepted (s : State) (m c : NodeId) (e : Exchange) : State where
  node := Function.update (Function.update s.node m ((s.node m).goto (.serving c))) c
    ((s.node c).goto (.exchange .connected e))
  net := Function.update s.net c (some ⟨m, none, [], true⟩)
  log := s.log

/-- `accept` in `connectAndReceive` of `m` meets `connectClientSocket` of `c`. -/
def acceptFrom (s : State) (m c : NodeId) : Option State :=
  match (s.node c).ctl with
  | .exchange .connecting e =>
    if e.target = m ∧ (s.node m).ctl = .idle then some (s.accepted m c e) else none
  | _ => none

def step (s : State) : Action → Option State
  | .begin n op => beginCall n s (op.stamp s.clock)
  | .accept m c => acceptFrom s m c
  | .exec n env =>
    if env.sound (s.node n) then (exec n (s.node n) env s).map fun e => e.apply s n else none

end CacheCoherence.Protocol
