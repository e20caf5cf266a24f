import CacheCoherence.Foundation.TransitionRuns
import CacheCoherence.Protocol.Sessions

/-! # Who serves a request for memory

`performRead`, `performWrite` and `Free` open their connection to the constant `defs::port`,
while `isLocal` compares the home in the address. The two agree on the addresses of one home.
-/
namespace CacheCoherence.Protocol
open TransitionRuns

def Request.address : Request → Option GlobalAddress
  | .read sga => some (.ofSendable sga)
  | .free sga => some (.ofSendable sga)
  | .write sd => some (.ofSendable sd.sga)
  | _ => none

def Exchange.address : Exchange → Option GlobalAddress
  | .performRead ga => some ga
  | .performWrite d => some d.ga
  | .free ga => some ga
  | _ => none

/-- The node can store the copy that `performWrite` makes before it sends. -/
def Exchange.cached (y : Exchange) (cache : Cache Copy) (now : ℤ) : Bool :=
  match y with
  | .performWrite d => (cache.alterCacheItem ⟨d.ga, ⟨d.data, false⟩, now, now⟩ d.ga).isSome
  | _ => true

/-- Every READ, WRITE and FREE request that travels goes to a node at which `isLocal` holds, and no
handler has passed one on. -/
structure Routed (s : State) : Prop where
  delivered : ∀ c ch r ga, s.net c = some ch → ch.up = some r → r.address = some ga →
    isLocal ch.peer ga = true
  kept : ∀ m ph c r, (s.node m).ctl = .exchange ph (.forward c r) → r.address = none

/-- A READ, WRITE or FREE request that the step posts is for an address whose home is the node 3000. -/
def PostsForPort (s : State) (a : Action) : Prop :=
  ∀ n env y ga, a = .exec n env → (s.node n).ctl = .exchange .connected y → y.address = some ga →
    y.cached (s.node n).cache env.now = true → ga.id = port

section
variable {s : State} {n : NodeId} {e : Effect} {env : Env} {x : Ctl}

theorem Exchange.target_of_address {y : Exchange} {ga : GlobalAddress} (h : y.address = some ga) :
    y.target = port := by
  cases y with
  | performRead | performWrite | free => rfl
  | _ => cases h

theorem Exchange.address_request {y : Exchange} (h : ∀ c r, y ≠ .forward c r) :
    (y.request n).address = y.address := by
  cases y with
  | forward c r => exact absurd rfl (h c r)
  | _ => rfl

theorem Forwards.foreign {r : Request} {ga : GlobalAddress} (h : Forwards n env r)
    (hr : r.address = some ga) : isLocal n ga = false := by
  cases h with
  | read sga hne =>
    cases hr
    exact isLocal_of_ne hne
  | free sga hne =>
    cases hr
    exact isLocal_of_ne hne
  | write sd hne =>
    cases hr
    exact isLocal_of_ne hne
  | _ => cases hr

theorem Moves.up (hS : Sessions s) (hx : (s.node n).ctl = x) (h : Moves s n env x e) {c : NodeId}
    {ch : Channel} {r : Request} (hch : (e.apply s n).net c = some ch) (hr : ch.up = some r)
    {ga : GlobalAddress} (hga : r.address = some ga) :
    (∃ dh, s.net c = some dh ∧ dh.up = some r ∧ ch.peer = dh.peer) ∨
    ∃ y, c = n ∧ x = .exchange .connected y ∧ y.address = some ga ∧ ch.peer = y.target ∧
      y.cached (s.node n).cache env.now = true := by
  rcases Effect.net_cases hch with hch | hw
  · exact Or.inl ⟨ch, hch, hr, rfl⟩
  cases h with
  | sendWrite d dh cache hdh ha =>
    cases hw
    cases hr
    cases hga
    obtain ⟨rfl, -⟩ := (hx ▸ (hS.link n dh hdh).2 : Link n _ dh _).of_connected
    exact Or.inr ⟨_, rfl, rfl, rfl, rfl, by simp [Exchange.cached, ha]⟩
  | send y dh hdh hnw hnr =>
    cases hw
    cases hr
    have hnf := (hx ▸ hS.stuck n : Stuck n _).ne_forward rfl
    rw [Exchange.address_request fun d q hy => (hnf d q).1 .connected (by rw [hy])] at hga
    obtain ⟨rfl, -⟩ := (hx ▸ (hS.link n dh hdh).2 : Link n _ dh _).of_connected
    refine Or.inr ⟨y, rfl, rfl, hga, rfl, ?_⟩
    cases y with
    | performWrite d => exact absurd rfl (hnw d)
    | _ => rfl
  | invalidated d sga rest dh hdh hd =>
    cases hw
    exact Or.inl ⟨dh, hdh, hr, rfl⟩
  | sendReset | fetched | received =>
    cases hw
    cases hr
    cases hga
  | discardFor | startInvalidations =>
    cases hw
    cases hr
  | serve c ch r e hch hpeer hup hs =>
    cases hs <;> cases hw <;> cases hr
  | swept ga b => cases b <;> cases hw
  | _ => cases hw

theorem Moves.forwards (hx : (s.node n).ctl = x) (h : Moves s n env x e) {ph : Phase} {c : NodeId} {r : Request}
    (hx' : e.self.ctl = .exchange ph (.forward c r)) :
    (∃ ph', x = .exchange ph' (.forward c r)) ∨
    ∃ ch, x = .serving c ∧ s.net c = some ch ∧ ch.peer = n ∧ ch.up = some r ∧ Forwards n env r := by
  cases h with
  | lockGrant k locks granted hn hset => exact absurd hx' ((settles_lockAnswer _ granted k).ne_forward ph c r)
  | closed y a rest ch hch hd => exact absurd hx' ((settles_closed _ y a).ne_forward ph c r)
  | swept ga b => exact absurd hx' ((settles_swept _ ga b).ne_forward ph c r)
  | connect x y hopen => exact absurd hx' (hopen.settles.2.2.ne_forward ph c r)
  | send y ch hch hnw hnr =>
    cases hx'
    exact Or.inl ⟨_, rfl⟩
  | writeLocal d b =>
    cases hb : b.record.writeInvalidates <;> simp [hb] at hx'
  | freeLocal ga b =>
    cases hb : b.record.freeInvalidates <;> simp [hb] at hx'
  | serve d ch q e hch hpeer hup hs =>
    cases hs with
    | forward q hf =>
      cases hx'
      exact Or.inr ⟨ch, rfl, hch, hpeer, hup, hf⟩
    | reset => exact absurd hx' ((settles_endSession _).ne_forward ph c r)
    | free sga b => cases hb : b.record.freeInvalidates <;> simp [hb] at hx'
    | _ => simp [hx] at hx'
  | _ => cases hx'

theorem Moves.posted (hS : Sessions s) {y : Exchange} (hx : (s.node n).ctl = .exchange .connected y)
    (h : Moves s n env (.exchange .connected y) e) {ga : GlobalAddress} (hga : y.address = some ga)
    (hc : y.cached (s.node n).cache env.now = true) :
    ∃ ch, (e.apply s n).net n = some ch ∧ ch.up = some (y.request n) ∧ ch.peer = y.target := by
  have hlink : ∀ ch, s.net n = some ch → ch.peer = y.target := by
    intro ch hch
    obtain ⟨rfl, -⟩ := (hx ▸ (hS.link n ch hch).2 : Link n _ ch _).of_connected
    rfl
  cases h with
  | connect _ z hopen => cases hopen
  | sendWrite d ch cache hch ha =>
    exact ⟨{ ch with up := some (.write (d.sendable n)) },
      by rw [Effect.net_wire rfl, Function.update_self], rfl, hlink ch hch⟩
  | sendReset => cases hga
  | send _ ch hch =>
    exact ⟨{ ch with up := some (y.request n) }, by rw [Effect.net_wire rfl, Function.update_self], rfl,
      hlink ch hch⟩
  | sendCrash d ch hch ha => simp [Exchange.cached, ha] at hc
  | misread _ r rest ch hch hd hmis => cases hmis

theorem Routed.exec (hS : Sessions s) (h : Routed s) (hm : Moves s n env (s.node n).ctl e) :
    Routed (e.apply s n) ↔ PostsForPort s (.exec n env) := by
  constructor
  · intro h' m env' y ga ha hy hga hc
    cases ha
    rw [hy] at hm
    obtain ⟨ch, hch, hup, hpeer⟩ := hm.posted hS hy hga hc
    have hnf : ∀ c r, y ≠ .forward c r := by
      rintro c r rfl
      cases hga
    have hloc := h'.delivered n ch _ ga hch hup (by rw [Exchange.address_request hnf, hga])
    rw [hpeer, Exchange.target_of_address hga] at hloc
    exact (isLocal_iff _ _).mp hloc
  · intro hpost
    refine ⟨fun c ch r ga hch hup hga => ?_, fun m ph c r hm' => ?_⟩
    · rcases hm.up hS rfl hch hup hga with ⟨dh, hdh, hdup, hpeer⟩ | ⟨y, rfl, hy, hyga, hpeer, hc⟩
      · rw [hpeer]
        exact h.delivered c dh r ga hdh hdup hga
      · rw [hpeer, Exchange.target_of_address hyga]
        exact (isLocal_iff _ _).mpr (hpost c env y ga rfl hy hyga hc)
    · by_cases hmn : m = n
      · subst hmn
        rw [Effect.apply_self] at hm'
        rcases hm.forwards rfl hm' with ⟨ph', hx⟩ | ⟨ch, -, hch, hpeer, hup, hf⟩
        · exact h.kept m ph' c r hx
        · cases hga : r.address with
          | none => rfl
          | some ga =>
            have hloc := h.delivered c ch r ga hch hup hga
            rw [hpeer, hf.foreign hga] at hloc
            cases hloc
      · rw [Effect.apply_ne hmn] at hm'
        exact h.kept m ph c r hm'

theorem Routed.steps {s' : State} {a : Action} (hS : Sessions s) (h : Routed s) (hs : Steps s a s') :
    Routed s' ↔ PostsForPort s a := by
  cases hs with
  | begin n op hidle hsus =>
    refine iff_of_true ⟨h.delivered, fun m ph c r hm => ?_⟩ (by rintro _ _ _ _ ⟨⟩)
    by_cases hmn : m = n
    · subst hmn
      rw [State.begun_self] at hm
      cases op <;> cases hm
    · rw [State.begun_ne hmn] at hm
      exact h.kept m ph c r hm
  | accept m c y hc hm hidle =>
    refine iff_of_true ⟨fun d ch r ga hch hup hga => ?_, fun p ph d r hp => ?_⟩ (by rintro _ _ _ _ ⟨⟩)
    · by_cases hdc : d = c
      · subst hdc
        rw [State.accepted_net_client] at hch
        cases hch
        cases hup
      · rw [State.accepted_net_ne hdc] at hch
        exact h.delivered d ch r ga hch hup hga
    · by_cases hpc : p = c
      · subst hpc
        rw [State.accepted_client] at hp
        cases hp
        exact h.kept p _ d r hc
      · by_cases hpm : p = m
        · subst hpm
          rw [State.accepted_server hpc] at hp
          cases hp
        · rw [State.accepted_ne hpc hpm] at hp
          exact h.kept p ph d r hp
  | exec n env e _ hm => exact h.exec hS hm

end

end CacheCoherence.Protocol
