import CacheCoherence.Coherence.Copies

/-! # What a step does to memory

The records of a node are written by its own thread only: when it registers a reader, applies a write,
allocates or frees.
-/
namespace CacheCoherence.Protocol

def Event.onMemory : Event → Bool
  | .store _ _ _ | .alloc _ _ | .freed _ => true
  | _ => false

/-- What a move of node `n` does to its memory. -/
inductive MemStep (s : State) (n : NodeId) (env : Env) : Ctl → Effect → Prop where
  | same (x : Ctl) (e : Effect) : e.self.mem = (s.node n).mem → (∀ ev ∈ e.events, ev.onMemory = false) →
      MemStep s n env x e
  | register (c : NodeId) (ga : GlobalAddress) (b : Block) : n = port → ga.id = port →
      (s.node c).ctl = .exchange .waiting (.performRead ga) →
      s.net c = some ⟨port, some (.read (ga.sendable c)), [], true⟩ → (s.node n).mem ga.ptr = some b →
      MemStep s n env (.serving c)
        ⟨(s.node n).copyRecord ga.ptr (b.record.register c),
          some (c, some ⟨port, none, [.data b.record.data], true⟩), []⟩
  | take (c : NodeId) (d : Data Word) (b : Block) : n = port → d.ga.id = port →
      (s.node c).ctl = .exchange .waiting (.performWrite d) →
      s.net c = some ⟨port, some (.write (d.sendable c)), [], true⟩ → (s.node n).mem d.ga.ptr = some b →
      (b.record.readable && b.record.handleInvalidates) = false →
      MemStep s n env (.serving c)
        ⟨(s.node n).copyRecord d.ga.ptr (.owned d.data c),
          some (c, some ⟨port, none, [.address (d.ga.sendable c)], true⟩), [.store c d.ga d.data]⟩
  | takeShared (c : NodeId) (d : Data Word) (nodes : List NodeId) (ch : Channel) (b : Block) :
      (s.node c).ctl.sent = some d → s.net c = some ch → (∀ sga, .address sga ∉ ch.down) →
      (s.node n).mem d.ga.ptr = some b →
      MemStep s n env (.startInvalidations c d nodes c)
        ⟨((s.node n).copyRecord d.ga.ptr (.owned d.data c)).goto (.broadcast nodes d.ga (.startInvalidations d c)),
          some (c, some { ch.reply (.address (d.ga.sendable c)) with isOpen := false }), [.store c d.ga d.data]⟩
  | memcpy (d : Data Word) (b : Block) : (s.node n).mem d.ga.ptr = some b →
      MemStep s n env (.memcpy d)
        ⟨((s.node n).copyRecord d.ga.ptr (.written d.data n)).goto (.setLock (.release (.write d d.ga))), none,
          [.store n d.ga d.data]⟩
  | alloc (x : Ctl) (e : Effect) (size ptr : UInt64) (content : SaveData UInt64) (es : List Event) :
      (x = .malloc size ∨ ∃ c ch sga, x = .serving c ∧ s.net c = some ch ∧ ch.peer = n ∧ ch.up = some (.malloc sga)) →
      env.block = some (ptr, content) →
      e.self.mem = Function.update (s.node n).mem ptr (some ⟨size, stampRecord s.clock content⟩) →
      e.events = .alloc ⟨size, ptr, n⟩ ⟨content.data, s.clock⟩ :: es → (∀ ev ∈ es, ev.onMemory = false) →
      MemStep s n env x e
  | discard (e : Effect) (ga : GlobalAddress) (client : Option (NodeId × UInt16)) (es : List Event) :
      e.self.mem = Function.update (s.node n).mem ga.ptr none → e.events = .freed ga :: es →
      (∀ ev ∈ es, ev.onMemory = false) → MemStep s n env (.discard ga client) e

section
variable {s : State} {n : NodeId} {e : Effect} {env : Env} {x : Ctl}

theorem lockAnswer_onMemory (ns : NodeState) (g : Bool) (k : LockSite) :
    ∀ ev ∈ (ns.lockAnswer n g k).2, ev.onMemory = false := by
  intro ev hev
  rcases NodeState.lockAnswer_snd n ns g k with hnil | ⟨o, hret⟩
  · rw [hnil] at hev
    cases hev
  · rw [hret] at hev
    rw [List.mem_singleton.mp hev]
    rfl

theorem closed_onMemory (ns : NodeState) (y : Exchange) (r : Reply) :
    ∀ ev ∈ (ns.closed n y r).2, ev.onMemory = false := by
  unfold NodeState.closed
  split
  · intro ev hev
    rcases List.mem_cons.mp hev with rfl | hev
    · rfl
    · exact lockAnswer_onMemory _ _ _ ev hev
  all_goals simp [Event.onMemory]

theorem Moves.memory (hS : Sessions s) (hx : (s.node n).ctl = x) (h : Moves s n env x e) : MemStep s n env x e := by
  cases h with
  | lockGrant k locks granted hn hset =>
    refine .same _ _ (by rw [NodeState.lockAnswer_fst]; rfl) fun ev hev => ?_
    simp only [List.mem_cons] at hev
    rcases hev with rfl | rfl | hev
    · rfl
    · rfl
    · exact lockAnswer_onMemory _ _ _ ev hev
  | memcpy d b hb => exact .memcpy d b hb
  | mallocLocal size ptr content hblock =>
    exact .alloc _ _ size ptr content [.ret n (.malloc ⟨size, ptr, n⟩)]
      (Or.inl rfl) hblock rfl rfl (by simp [Event.onMemory])
  | discardOwn ga => exact .discard _ ga none [.ret n (.free ga ga.freed)] rfl rfl (by simp [Event.onMemory])
  | discardFor ga c srcID ch hch => exact .discard _ ga _ [] rfl rfl (by simp)
  | swept ga b =>
    cases b with
    | startInvalidations d srcID =>
      exact .same _ _ (by rw [stepBroadcast, NodeState.endSession_mem]) (by simp [stepBroadcast])
    | _ => exact .same _ _ rfl (by simp [stepBroadcast])
  | mallocReturn size sga rest ch hch hd => exact .same _ _ rfl (by simp [Event.onMemory])
  | closed y r rest ch hch hd => exact .same _ _ (by rw [NodeState.closed_fst]; rfl) (closed_onMemory _ _ _)
  | serve c ch r e hch hpeer hup hs =>
    have hasked := (hS.serving_link hx hch hpeer).of_up hup
    cases hs with
    | malloc sga ptr content hblock =>
      exact .alloc _ _ sga.size ptr content [] (Or.inr ⟨c, ch, sga, rfl, hch, hpeer, hup⟩) hblock rfl rfl (by simp)
    | read sga b hl hb hr =>
      rcases hasked with ⟨y, hown, hreq, -, rfl⟩ | ⟨y, a, -, hreq, -⟩
      · cases y with
        | performRead ga =>
          cases hreq
          have hn : port = n := hpeer
          exact .register c ga b hn.symm (hl.trans hn.symm) hown hch hb
        | forward c' q => exact absurd ((hS.stuck c).1 _ _ _ hown).1 (by simp)
        | _ => cases hreq
      · cases hreq
    | write sd b hl hb hinv =>
      rcases hasked with ⟨y, hown, hreq, -, rfl⟩ | ⟨y, a, -, hreq, -⟩
      · cases y with
        | performWrite d =>
          cases hreq
          have hn : port = n := hpeer
          exact .take c d b hn.symm (hl.trans hn.symm) hown hch hb hinv
        | forward c' q => exact absurd ((hS.stuck c).1 _ _ _ hown).1 (by simp)
        | _ => cases hreq
      · cases hreq
    | reset => exact .same _ _ (NodeState.endSession_mem ..) (by simp)
    | locks l hn => exact .same _ _ rfl (by simp [Event.onMemory])
    | _ => exact .same _ _ rfl (by simp [Protocol.forward])
  | startInvalidations c d nodes srcID ch b hch hb =>
    obtain ⟨dh, hdh, -, ho, hl⟩ := hS.client_link hx rfl (by simp)
    obtain rfl : ch = dh := Option.some.inj (hch.symm.trans hdh)
    obtain ⟨rfl, ⟨sga, hown, rfl⟩ | ⟨hown, rfl⟩⟩ := hl.of_startInvalidations ho
    · exact .takeShared srcID d nodes _ b (by rw [hown]; rfl) hch (by simp) hb
    · exact .takeShared srcID d nodes _ b (by rw [hown]; rfl) hch (by simp) hb
  | _ => exact .same _ _ rfl (by simp [Protocol.connect])

end
end CacheCoherence.Protocol
