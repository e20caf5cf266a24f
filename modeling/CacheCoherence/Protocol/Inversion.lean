import CacheCoherence.Protocol.Step

/-! # What a step can do

`Moves` lists the ways in which a node moves on, with the guard of each and its whole effect.
Every invariant is proved against this list and never against the step function.
-/
namespace CacheCoherence.Protocol

/-- The points at which a thread enters `connectClientSocket`, and what for. -/
inductive Opens (n : NodeId) (ns : NodeState) (env : Env) : Ctl → Exchange → Prop where
  | setLock (k : LockSite) : n ≠ locknode → Opens n ns env (.setLock k) (.setLock k)
  | miss (ga : GlobalAddress) : ga.id ≠ n → (ns.cache.getCacheItem env.now ga).2 = none →
      Opens n ns env (.access (.read ga)) (.performRead ga)
  | write (d : Data Word) : d.ga.id ≠ n → Opens n ns env (.access (.write d)) (.performWrite d)
  | free (ga : GlobalAddress) : ga.id ≠ n → Opens n ns env (.free ga) (.free ga)
  | malloc (size : UInt64) : env.block = none → Opens n ns env (.malloc size) (.malloc size)
  | invalidate (m : NodeId) (rest : List NodeId) (ga : GlobalAddress) (b : Broadcaster) :
      Opens n ns env (.broadcast (m :: rest) ga b) (.invalidate m rest ga b)

inductive Forwards (n : NodeId) (env : Env) : Request → Prop where
  | malloc (sga : SendGlobalAddr) : env.block = none → Forwards n env (.malloc sga)
  | read (sga : SendGlobalAddr) : sga.id ≠ n → Forwards n env (.read sga)
  | free (sga : SendGlobalAddr) : sga.id ≠ n → Forwards n env (.free sga)
  | write (sd : SendingData Word) : sd.sga.id ≠ n → Forwards n env (.write sd)
  | locks (l : Lock) : n ≠ locknode → Forwards n env (.locks l)

/-- The exchanges that end with any reply and without a change to the client's memory. -/
def Exchange.plain : Exchange → Bool
  | .performRead _ | .malloc _ => false
  | _ => true

/-- What `receive` of `n` does with a request of `c`. -/
inductive Serves (n : NodeId) (ns : NodeState) (env : Env) (c : NodeId) (ch : Channel) (t : ℕ) :
    Request → Effect → Prop where
  | malloc (sga : SendGlobalAddr) (ptr : UInt64) (content : SaveData UInt64) :
      env.block = some (ptr, content) → Serves n ns env c ch t (.malloc sga)
        ⟨{ ns with mem := Function.update ns.mem ptr (some ⟨sga.size, stampRecord t content⟩) },
          some (c, some (ch.reply (.address ((GlobalAddress.mk sga.size ptr n).sendable sga.srcID)))),
          [.alloc ⟨sga.size, ptr, n⟩ ⟨content.data, t⟩]⟩
  | read (sga : SendGlobalAddr) (b : Block) : sga.id = n → ns.mem sga.ptr = some b →
      b.record.readable = true → Serves n ns env c ch t (.read sga)
        ⟨ns.copyRecord sga.ptr (b.record.register sga.srcID),
          some (c, some (ch.reply (.data b.record.data))), []⟩
  | readNull (sga : SendGlobalAddr) (b : Block) : sga.id = n → ns.mem sga.ptr = some b →
      b.record.readable = false → Serves n ns env c ch t (.read sga) ⟨ns.goto .crashed, none, []⟩
  | readCached (sga : SendGlobalAddr) (it : CacheItem Copy) : sga.id ≠ n →
      (ns.cache.getCacheItem env.now (.ofSendable sga)).2 = some it → Serves n ns env c ch t (.read sga)
        ⟨{ ns with cache := (ns.cache.getCacheItem env.now (.ofSendable sga)).1 },
          some (c, some (ch.reply (.data it.data.word))), []⟩
  | write (sd : SendingData Word) (b : Block) : sd.sga.id = n → ns.mem sd.sga.ptr = some b →
      (b.record.readable && b.record.handleInvalidates) = false → Serves n ns env c ch t (.write sd)
        ⟨ns.copyRecord sd.sga.ptr (.owned sd.data sd.sga.srcID),
          some (c, some (ch.reply (.address sd.sga))), [.store sd.sga.srcID (.ofSendable sd.sga) sd.data]⟩
  | writeShared (sd : SendingData Word) (b : Block) : sd.sga.id = n → ns.mem sd.sga.ptr = some b →
      (b.record.readable && b.record.handleInvalidates) = true → Serves n ns env c ch t (.write sd)
        ⟨ns.goto (.startInvalidations c (.ofSendable sd) b.record.sharerNodes sd.sga.srcID),
          some (c, some (ch.reply (.invalidate sd.sga))), []⟩
  | free (sga : SendGlobalAddr) (b : Block) : sga.id = n → ns.mem sga.ptr = some b →
      Serves n ns env c ch t (.free sga)
        ⟨ns.goto (if b.record.freeInvalidates then
            .broadcast b.record.sharerNodes (.ofSendable sga) (.handleFree c sga.srcID)
            else .discard (.ofSendable sga) (some (c, sga.srcID))),
          some (c, some { ch with up := none }), []⟩
  | locks (l : Lock) : n = locknode → Serves n ns env c ch t (.locks l)
        ⟨{ ns with locks := (ns.locks.setLock l.id l.state).1 },
          some (c, some (ch.reply (.lock (ns.locks.setLock l.id l.state).2))),
          [.lock c l (ns.locks.setLock l.id l.state).2]⟩
  | reset : Serves n ns env c ch t .reset
        ⟨ns.endSession, some (c, some { ch.reply .reset with isOpen := false }), []⟩
  | invalidate (sga : SendGlobalAddr) : Serves n ns env c ch t (.invalidate sga)
        ⟨{ ns with cache := (ns.cache.removeCacheItem (.ofSendable sga)).1 },
          some (c, some (ch.reply (.removed (ns.cache.removeCacheItem (.ofSendable sga)).2))), []⟩
  | forward (r : Request) : Forwards n env r → Serves n ns env c ch t r (Protocol.forward ns c ch r)

inductive Misreads : Ctl → Reply → Prop where
  | read (ga : GlobalAddress) (r : Reply) : (∀ w, r ≠ .data w) →
      Misreads (.exchange .waiting (.performRead ga)) r
  | malloc (size : UInt64) (r : Reply) : (∀ sga, r ≠ .address sga) →
      Misreads (.exchange .waiting (.malloc size)) r
  | again (d : Data Word) (r : Reply) : (∀ sga, r ≠ .address sga) →
      Misreads (.exchange .again (.performWrite d)) r

/-- How node `n` moves on from its control point `x`. -/
inductive Moves (s : State) (n : NodeId) (env : Env) : Ctl → Effect → Prop where
  | lockGrant (k : LockSite) (locks : LockTable) (granted : Bool) : n = locknode →
      (s.node n).locks.setLock k.lock.id k.lock.state = (locks, granted) → Moves s n env (.setLock k)
        ⟨({ s.node n with locks := locks }.lockAnswer n granted k).1, none,
          .lock n k.lock granted :: .answered n k.lock granted ::
            ({ s.node n with locks := locks }.lockAnswer n granted k).2⟩
  | connect (x : Ctl) (e : Exchange) : Opens n (s.node n) env x e →
      Moves s n env x (Protocol.connect (s.node n) e)
  | readLocal (ga : GlobalAddress) (b : Block) : ga.id = n → (s.node n).mem ga.ptr = some b →
      Moves s n env (.access (.read ga))
        ⟨(s.node n).goto (.setLock (.release (.read ga
          (if b.record.readable then .record ga.ptr else .null)))), none, []⟩
  | readCached (ga : GlobalAddress) (it : CacheItem Copy) : ga.id ≠ n →
      ((s.node n).cache.getCacheItem env.now ga).2 = some it → Moves s n env (.access (.read ga))
        ⟨{ s.node n with cache := ((s.node n).cache.getCacheItem env.now ga).1 }.goto
          (.setLock (.release (.read ga (.copy it.data.word)))), none, []⟩
  | writeLocal (d : Data Word) (b : Block) : d.ga.id = n → (s.node n).mem d.ga.ptr = some b →
      Moves s n env (.access (.write d))
        ⟨(s.node n).goto (if b.record.writeInvalidates then
          .broadcast b.record.sharerNodes d.ga (.write d) else .memcpy d), none, []⟩
  | memcpy (d : Data Word) (b : Block) : (s.node n).mem d.ga.ptr = some b → Moves s n env (.memcpy d)
        ⟨((s.node n).copyRecord d.ga.ptr (.written d.data n)).goto
          (.setLock (.release (.write d d.ga))), none, [.store n d.ga d.data]⟩
  | freeLocal (ga : GlobalAddress) (b : Block) : ga.id = n → (s.node n).mem ga.ptr = some b →
      Moves s n env (.free ga)
        ⟨(s.node n).goto (if b.record.freeInvalidates then
          .broadcast b.record.sharerNodes ga .free else .discard ga none), none, []⟩
  | mallocLocal (size ptr : UInt64) (content : SaveData UInt64) : env.block = some (ptr, content) →
      Moves s n env (.malloc size)
        ⟨({ s.node n with mem := (Function.update (s.node n).mem ptr
            (some ⟨size, stampRecord s.clock content⟩)) }).goto .idle, none,
          [.alloc ⟨size, ptr, n⟩ ⟨content.data, s.clock⟩, .ret n (.malloc ⟨size, ptr, n⟩)]⟩
  | swept (ga : GlobalAddress) (b : Broadcaster) : Moves s n env (.broadcast [] ga b)
        (stepBroadcast (s.node n) ga b [])
  | discardOwn (ga : GlobalAddress) : Moves s n env (.discard ga none)
        ⟨{ s.node n with mem := Function.update (s.node n).mem ga.ptr none }.goto .idle, none,
          [.freed ga, .ret n (.free ga ga.freed)]⟩
  | discardFor (ga : GlobalAddress) (c : NodeId) (srcID : UInt16) (ch : Channel) : s.net c = some ch →
      Moves s n env (.discard ga (some (c, srcID)))
        ⟨{ s.node n with mem := Function.update (s.node n).mem ga.ptr none }.goto (.serving c),
          some (c, some (ch.reply (.address (ga.freed.sendable srcID)))), [.freed ga]⟩
  | sendWrite (d : Data Word) (ch : Channel) (cache : Cache Copy) : s.net n = some ch →
      (s.node n).cache.alterCacheItem ⟨d.ga, ⟨d.data, false⟩, env.now, env.now⟩ d.ga = some cache →
      Moves s n env (.exchange .connected (.performWrite d))
        ⟨{ s.node n with cache := cache }.goto (.exchange .waiting (.performWrite d)),
          some (n, some { ch with up := some (.write (d.sendable n)) }), []⟩
  | sendReset (d : Data Word) (result : GlobalAddress) (ch : Channel) : s.net n = some ch →
      Moves s n env (.exchange .connected (.reconnect d result))
        ⟨(s.node n).goto (.closing (.reconnect d result) .reset),
          some (n, some { ch with up := some .reset }), []⟩
  | send (e : Exchange) (ch : Channel) : s.net n = some ch → (∀ d, e ≠ .performWrite d) →
      (∀ d result, e ≠ .reconnect d result) → Moves s n env (.exchange .connected e)
        ⟨(s.node n).goto (.exchange .waiting e), some (n, some { ch with up := some (e.request n) }), []⟩
  | fetched (ga : GlobalAddress) (w : Word) (rest : List Reply) (ch : Channel) (cache : Cache Copy) :
      s.net n = some ch → ch.down = .data w :: rest →
      (s.node n).cache.addCacheItem ga ⟨ga, ⟨w, true⟩, env.now, env.now⟩ = some cache →
      Moves s n env (.exchange .waiting (.performRead ga))
        ⟨{ s.node n with cache := cache }.goto (.closing (.performRead ga) (.data w)),
          some (n, some { ch with up := some .reset, down := rest }), []⟩
  | invalidated (d : Data Word) (sga : SendGlobalAddr) (rest : List Reply) (ch : Channel) :
      s.net n = some ch → ch.down = .invalidate sga :: rest →
      Moves s n env (.exchange .waiting (.performWrite d))
        ⟨(s.node n).goto (.exchange .again (.performWrite d)),
          some (n, some { ch with down := rest }), []⟩
  | received (e : Exchange) (r : Reply) (rest : List Reply) (ch : Channel) : s.net n = some ch →
      ch.down = r :: rest → e.plain = true → (∀ d sga, e = .performWrite d → r ≠ .invalidate sga) →
      Moves s n env (.exchange .waiting e)
        ⟨(s.node n).goto (.closing e r), some (n, some { ch with up := some .reset, down := rest }), []⟩
  | mallocReturn (size : UInt64) (sga : SendGlobalAddr) (rest : List Reply) (ch : Channel) :
      s.net n = some ch → ch.down = .address sga :: rest →
      Moves s n env (.exchange .waiting (.malloc size))
        ⟨(s.node n).goto .idle, some (n, none), [.ret n (.malloc (.ofSendable sga))]⟩
  | suspend (d : Data Word) (sga : SendGlobalAddr) (rest : List Reply) (ch : Channel) :
      s.net n = some ch → ch.down = .address sga :: rest →
      Moves s n env (.exchange .again (.performWrite d))
        ⟨{ s.node n with suspended := (d, .ofSendable sga) :: (s.node n).suspended }.goto .idle,
          some (n, none), []⟩
  | sendCrash (d : Data Word) (ch : Channel) : s.net n = some ch →
      (s.node n).cache.alterCacheItem ⟨d.ga, ⟨d.data, false⟩, env.now, env.now⟩ d.ga = none →
      Moves s n env (.exchange .connected (.performWrite d)) ⟨(s.node n).goto .crashed, none, []⟩
  | fetchCrash (ga : GlobalAddress) (w : Word) (rest : List Reply) (ch : Channel) :
      s.net n = some ch → ch.down = .data w :: rest →
      (s.node n).cache.addCacheItem ga ⟨ga, ⟨w, true⟩, env.now, env.now⟩ = none →
      Moves s n env (.exchange .waiting (.performRead ga)) ⟨(s.node n).goto .crashed, none, []⟩
  | misread (x : Ctl) (r : Reply) (rest : List Reply) (ch : Channel) : s.net n = some ch →
      ch.down = r :: rest → Misreads x r → Moves s n env x ⟨(s.node n).goto .crashed, none, []⟩
  | closed (e : Exchange) (r : Reply) (rest : List Reply) (ch : Channel) : s.net n = some ch →
      ch.down = .reset :: rest → Moves s n env (.closing e r)
        ⟨((s.node n).closed n e r).1, some (n, none), ((s.node n).closed n e r).2⟩
  | serve (c : NodeId) (ch : Channel) (r : Request) (e : Effect) : s.net c = some ch → ch.peer = n →
      ch.up = some r → Serves n (s.node n) env c ch s.clock r e → Moves s n env (.serving c) e
  | startInvalidations (c : NodeId) (d : Data Word) (nodes : List NodeId) (srcID : UInt16) (ch : Channel)
      (b : Block) : s.net c = some ch → (s.node n).mem d.ga.ptr = some b →
      Moves s n env (.startInvalidations c d nodes srcID)
        ⟨((s.node n).copyRecord d.ga.ptr (.owned d.data srcID)).goto
            (.broadcast nodes d.ga (.startInvalidations d srcID)),
          some (c, some { ch.reply (.address (d.ga.sendable srcID)) with isOpen := false }),
          [.store srcID d.ga d.data]⟩

section
variable {s : State} {n : NodeId} {env : Env} {e : Effect}

theorem serves_of_receive {ns : NodeState} {c : NodeId} {ch : Channel} {t : ℕ} {r : Request}
    (h : receive n ns env c ch t r = some e) : Serves n ns env c ch t r e := by
  cases r with
  | malloc sga =>
    simp only [receive, handleAllocation, allocate, Option.some.injEq] at h
    cases hb : env.block with
    | none =>
      simp only [hb, Option.bind_eq_bind, Option.bind_none] at h
      exact h ▸ .forward _ (.malloc sga hb)
    | some p =>
      simp only [hb, Option.bind_eq_bind, Option.bind_some] at h
      exact h ▸ .malloc sga p.1 p.2 hb
  | read sga =>
    simp only [receive, handleRead] at h
    by_cases hl : sga.id = n
    · have hloc : isLocal n (.ofSendable sga) = true := (isLocal_iff _ _).mpr hl
      simp only [hloc, ↓reduceIte, Option.bind_eq_bind] at h
      obtain ⟨b, hb, h⟩ := Option.bind_eq_some_iff.mp h
      cases hr : b.record.readable with
      | true =>
        simp only [hr, ↓reduceIte, Option.some.injEq] at h
        exact h ▸ .read sga b hl hb hr
      | false =>
        simp only [hr, Bool.false_eq_true, ↓reduceIte, Option.some.injEq] at h
        exact h ▸ .readNull sga b hl hb hr
    · have hloc : isLocal n (.ofSendable sga) = false := isLocal_of_ne hl
      simp only [hloc, Bool.false_eq_true, ↓reduceIte] at h
      cases hg : ns.cache.getCacheItem env.now (.ofSendable sga) with
      | mk cache found =>
        cases found with
        | none =>
          simp only [hg, Option.some.injEq] at h
          exact h ▸ .forward _ (.read sga hl)
        | some it =>
          simp only [hg, Option.some.injEq] at h
          have hs : Serves n ns env c ch t (.read sga) _ := .readCached sga it hl (by rw [hg])
          simpa only [hg, h] using hs
  | free sga =>
    simp only [receive, handleFree] at h
    by_cases hl : sga.id = n
    · have hloc : isLocal n (.ofSendable sga) = true := (isLocal_iff _ _).mpr hl
      simp only [hloc, ↓reduceIte, Option.bind_eq_bind] at h
      obtain ⟨b, hb, h⟩ := Option.bind_eq_some_iff.mp h
      exact Option.some.inj h ▸ .free sga b hl hb
    · have hloc : isLocal n (.ofSendable sga) = false := isLocal_of_ne hl
      simp only [hloc, Bool.false_eq_true, ↓reduceIte] at h
      exact Option.some.inj h ▸ .forward _ (.free sga hl)
  | write sd =>
    simp only [receive, handleWrite] at h
    by_cases hl : sd.sga.id = n
    · have hloc : isLocal n (Data.ofSendable sd).ga = true := (isLocal_iff _ _).mpr hl
      simp only [hloc, ↓reduceIte, Option.bind_eq_bind] at h
      obtain ⟨b, hb, h⟩ := Option.bind_eq_some_iff.mp h
      cases hr : b.record.readable && b.record.handleInvalidates with
      | true =>
        simp only [hr, ↓reduceIte, Option.some.injEq] at h
        exact h ▸ .writeShared sd b hl hb hr
      | false =>
        simp only [hr, Bool.false_eq_true, ↓reduceIte, Option.some.injEq] at h
        exact h ▸ .write sd b hl hb hr
    · have hloc : isLocal n (Data.ofSendable sd).ga = false := isLocal_of_ne hl
      simp only [hloc, Bool.false_eq_true, ↓reduceIte] at h
      exact Option.some.inj h ▸ .forward _ (.write sd hl)
  | locks l =>
    simp only [receive, handleLocks, Option.some.injEq] at h
    by_cases hl : n = locknode
    · rw [if_pos hl] at h
      exact h ▸ .locks l hl
    · rw [if_neg hl] at h
      exact h ▸ .forward _ (.locks l hl)
  | reset =>
    simp only [receive, handleReset, Option.some.injEq] at h
    exact h ▸ .reset
  | invalidate sga =>
    simp only [receive, handleInvalidation, Option.some.injEq] at h
    exact h ▸ .invalidate sga

theorem moves_of_access {a : Access} (h : stepAccess n (s.node n) env a = some e) :
    Moves s n env (.access a) e := by
  cases a with
  | read ga =>
    simp only [stepAccess] at h
    by_cases hl : ga.id = n
    · rw [if_pos ((isLocal_iff _ _).mpr hl)] at h
      obtain ⟨b, hb, h⟩ := Option.bind_eq_some_iff.mp h
      exact Option.some.inj h ▸ .readLocal ga b hl hb
    · rw [isLocal_of_ne hl, if_neg Bool.false_ne_true] at h
      cases hg : (s.node n).cache.getCacheItem env.now ga with
      | mk cache found =>
        cases found with
        | none =>
          simp only [hg, Option.some.injEq] at h
          exact h ▸ .connect _ _ (.miss ga hl (by rw [hg]))
        | some it =>
          simp only [hg, Option.some.injEq] at h
          have hm : Moves s n env (.access (.read ga)) _ := .readCached ga it hl (by rw [hg])
          simpa only [hg, h] using hm
  | write d =>
    simp only [stepAccess] at h
    by_cases hl : d.ga.id = n
    · rw [if_pos ((isLocal_iff _ _).mpr hl)] at h
      obtain ⟨b, hb, h⟩ := Option.bind_eq_some_iff.mp h
      exact Option.some.inj h ▸ .writeLocal d b hl hb
    · rw [isLocal_of_ne hl, if_neg Bool.false_ne_true] at h
      exact Option.some.inj h ▸ .connect _ _ (.write d hl)

theorem moves_of_send {ch : Channel} {x : Exchange} (hch : s.net n = some ch)
    (h : stepSend n (s.node n) env ch x = e) : Moves s n env (.exchange .connected x) e := by
  cases x with
  | performWrite d =>
    simp only [stepSend] at h
    cases ha : (s.node n).cache.alterCacheItem ⟨d.ga, ⟨d.data, false⟩, env.now, env.now⟩ d.ga with
    | none =>
      simp only [ha] at h
      exact h ▸ .sendCrash d ch hch ha
    | some cache =>
      simp only [ha] at h
      exact h ▸ .sendWrite d ch cache hch ha
  | reconnect d result => exact h ▸ .sendReset d result ch hch
  | _ => exact h ▸ .send _ ch hch (by simp) (by simp)

theorem moves_of_reply {ch : Channel} {r : Reply} {rest : List Reply} {x : Exchange}
    (hch : s.net n = some ch) (hd : ch.down = r :: rest)
    (h : stepReceive n (s.node n) env ch r rest x = e) : Moves s n env (.exchange .waiting x) e := by
  cases x with
  | performRead ga =>
    cases r with
    | data w =>
      simp only [stepReceive] at h
      cases ha : (s.node n).cache.addCacheItem ga ⟨ga, ⟨w, true⟩, env.now, env.now⟩ with
      | none =>
        simp only [ha] at h
        exact h ▸ .fetchCrash ga w rest ch hch hd ha
      | some cache =>
        simp only [ha] at h
        exact h ▸ .fetched ga w rest ch cache hch hd ha
    | _ => exact h ▸ .misread _ _ rest ch hch hd (.read ga _ (by simp))
  | performWrite d =>
    cases r with
    | invalidate sga => exact h ▸ .invalidated d sga rest ch hch hd
    | _ => exact h ▸ .received _ _ rest ch hch hd rfl (by simp)
  | malloc size =>
    cases r with
    | address sga => exact h ▸ .mallocReturn size sga rest ch hch hd
    | _ => exact h ▸ .misread _ _ rest ch hch hd (.malloc size _ (by simp))
  | _ => exact h ▸ .received _ _ rest ch hch hd rfl (by simp)

/-- Every step of a thread is one of the listed moves from the point it stands at. -/
theorem moves_of_exec (h : exec n (s.node n) env s = some e) :
    Moves s n env (s.node n).ctl e := by
  unfold exec at h
  split at h
  · cases h
  · cases h
  · cases h
  · rename_i k hk
    rw [hk]
    by_cases hl : n = locknode
    · simp only [stepSetLock, if_pos hl, Option.some.injEq] at h
      exact h ▸ .lockGrant k _ _ hl rfl
    · simp only [stepSetLock, if_neg hl, Option.some.injEq] at h
      exact h ▸ .connect _ _ (.setLock k hl)
  · rename_i a ha
    rw [ha]
    exact moves_of_access h
  · rename_i d hd
    rw [hd]
    obtain ⟨b, hb, h⟩ := Option.bind_eq_some_iff.mp h
    exact Option.some.inj h ▸ .memcpy d b hb
  · rename_i ga hga
    rw [hga]
    simp only [stepFree] at h
    by_cases hl : ga.id = n
    · rw [if_pos ((isLocal_iff _ _).mpr hl)] at h
      obtain ⟨b, hb, h⟩ := Option.bind_eq_some_iff.mp h
      exact Option.some.inj h ▸ .freeLocal ga b hl hb
    · rw [isLocal_of_ne hl, if_neg Bool.false_ne_true] at h
      exact Option.some.inj h ▸ .connect _ _ (.free ga hl)
  · rename_i size hsize
    rw [hsize]
    simp only [stepMalloc, allocate, Option.some.injEq] at h
    cases hb : env.block with
    | none =>
      simp only [hb, Option.bind_eq_bind, Option.bind_none] at h
      exact h ▸ .connect _ _ (.malloc size hb)
    | some p =>
      simp only [hb, Option.bind_eq_bind, Option.bind_some] at h
      exact h ▸ .mallocLocal size p.1 p.2 hb
  · rename_i nodes ga b hctl
    rw [hctl]
    cases nodes with
    | nil => exact Option.some.inj h ▸ .swept ga b
    | cons m rest => exact Option.some.inj h ▸ .connect _ _ (.invalidate m rest ga b)
  · rename_i ga client hctl
    rw [hctl]
    cases client with
    | none => exact Option.some.inj h ▸ .discardOwn ga
    | some p =>
      obtain ⟨ch, hch, h⟩ := Option.bind_eq_some_iff.mp h
      exact Option.some.inj h ▸ .discardFor ga p.1 p.2 ch hch
  · rename_i x hctl
    rw [hctl]
    obtain ⟨ch, hch, h⟩ := Option.map_eq_some_iff.mp h
    exact moves_of_send hch h
  · rename_i x hctl
    rw [hctl]
    split at h
    · rename_i ch hch
      split at h
      · rename_i r rest hd
        exact moves_of_reply hch hd (Option.some.inj h)
      · cases h
    · cases h
  · rename_i x hctl
    rw [hctl]
    split at h
    · rename_i d ch hch
      obtain ⟨r, hr, h⟩ := Option.map_eq_some_iff.mp h
      obtain ⟨rest, hd⟩ := List.head?_eq_some_iff.mp hr
      cases r with
      | address sga => exact h ▸ .suspend d sga rest ch hch hd
      | _ => exact h ▸ .misread _ _ rest ch hch hd (.again d _ (by simp))
    · cases h
  · rename_i x r hctl
    rw [hctl]
    split at h
    · rename_i ch hch
      split at h
      · rename_i rest hd
        exact Option.some.inj h ▸ .closed x r rest ch hch hd
      · cases h
    · cases h
  · rename_i c hctl
    rw [hctl]
    split at h
    · rename_i ch hch
      split at h
      · rename_i hp
        obtain ⟨r, hr, h⟩ := Option.bind_eq_some_iff.mp h
        exact .serve c ch r e hch hp hr (serves_of_receive h)
      · cases h
    · cases h
  · rename_i c d nodes srcID hctl
    rw [hctl]
    obtain ⟨ch, hch, h⟩ := Option.bind_eq_some_iff.mp h
    obtain ⟨b, hb, h⟩ := Option.bind_eq_some_iff.mp h
    exact Option.some.inj h ▸ .startInvalidations c d nodes srcID ch b hch hb

inductive Steps (s : State) : Action → State → Prop where
  | begin (n : NodeId) (op : Op UInt64) : (s.node n).ctl = .idle → (s.node n).suspended = [] →
      Steps s (.begin n op) (s.begun n (op.stamp s.clock))
  | accept (m c : NodeId) (e : Exchange) : (s.node c).ctl = .exchange .connecting e → e.target = m →
      (s.node m).ctl = .idle → Steps s (.accept m c) (s.accepted m c e)
  | exec (n : NodeId) (env : Env) (e : Effect) : env.sound (s.node n) = true →
      Moves s n env (s.node n).ctl e → Steps s (.exec n env) (e.apply s n)

theorem steps_of_step {s s' : State} {a : Action} (h : step s a = some s') : Steps s a s' := by
  cases a with
  | begin n op =>
    simp only [step, beginCall] at h
    split at h
    · rename_i hidle
      exact Option.some.inj h ▸ .begin n op hidle.1 hidle.2
    · cases h
  | accept m c =>
    simp only [step, acceptFrom] at h
    split at h
    · rename_i e he
      split at h
      · rename_i hm
        exact Option.some.inj h ▸ .accept m c e he hm.1 hm.2
      · cases h
    · cases h
  | exec n env =>
    simp only [step] at h
    split at h
    · rename_i hs
      obtain ⟨e, he, rfl⟩ := Option.map_eq_some_iff.mp h
      exact .exec n env e hs (moves_of_exec he)
    · cases h

end

end CacheCoherence.Protocol
