import CacheCoherence.Protocol.Sessions

/-! # Suspended writes

A node that stands in `prepareForInvalidate` serves one connection in the middle of its own call.
While it does, its thread is never inside a second call of its own.
-/
namespace CacheCoherence.Protocol

def Broadcaster.aside : Broadcaster → Bool
  | .handleFree _ _ | .startInvalidations _ _ => true
  | _ => false

def Exchange.aside : Exchange → Bool
  | .invalidate _ _ _ b => b.aside
  | .forward _ _ => true
  | _ => false

def Ctl.aside : Ctl → Bool
  | .idle | .crashed | .serving _ | .startInvalidations .. => true
  | .broadcast _ _ b => b.aside
  | .discard _ client => client.isSome
  | .exchange _ e => e.aside
  | .closing e _ => e.aside
  | _ => false

/-- At most one write is suspended, and only while the thread is aside. -/
def Suspends (s : State) : Prop :=
  ∀ n, (s.node n).suspended = [] ∨ (s.node n).ctl.aside = true ∧ ∃ p, (s.node n).suspended = [p]

section
variable {s : State} {n : NodeId} {e : Effect} {env : Env} {x : Ctl}

theorem Suspends.of_own (h : Suspends s) (hx : (s.node n).ctl = x) (ho : x.aside = false) :
    (s.node n).suspended = [] := by
  rcases h n with hs | ⟨ha, -⟩
  · exact hs
  · rw [hx, ho] at ha
    cases ha

theorem endSession_suspended (ns : NodeState) (h : ns.suspended = [] ∨ ∃ p, ns.suspended = [p]) :
    ns.endSession.suspended = [] := by
  unfold NodeState.endSession
  rcases h with h | ⟨p, h⟩ <;> simp [h]

/-- A move either resumes a write, or suspends one, or keeps the list; a thread that is aside stays so. -/
theorem Moves.suspends (hx : (s.node n).ctl = x) (h : Moves s n env x e) :
    e.self.suspended = (s.node n).suspended ∧ (x.aside = true → e.self.ctl.aside = true) ∨
    (x.aside = true ∧ e.self.suspended = (s.node n).endSession.suspended ∧
      e.self.ctl = (s.node n).endSession.ctl) ∨
    ∃ d sga, x = .exchange .again (.performWrite d) ∧
      e.self.suspended = (d, .ofSendable sga) :: (s.node n).suspended ∧ e.self.ctl = .idle := by
  cases h with
  | lockGrant k locks granted hn hset =>
    refine Or.inl ⟨?_, by intro h; cases h⟩
    rw [NodeState.lockAnswer_fst]
    rfl
  | connect x y hopen =>
    refine Or.inl ⟨rfl, ?_⟩
    intro h
    cases hopen with
    | invalidate => exact h
    | _ => cases h
  | swept ga b =>
    cases b with
    | startInvalidations d srcID => exact Or.inr (Or.inl ⟨rfl, rfl, rfl⟩)
    | handleFree c srcID => exact Or.inl ⟨rfl, fun _ => rfl⟩
    | _ => exact Or.inl ⟨rfl, by intro h; cases h⟩
  | suspend d sga rest ch hch hd => exact Or.inr (Or.inr ⟨d, sga, rfl, rfl, rfl⟩)
  | closed y r rest ch hch hd =>
    refine Or.inl ⟨by rw [NodeState.closed_fst]; rfl, ?_⟩
    intro h
    cases y with
    | invalidate m rest ga b => exact h
    | forward c r => rfl
    | _ => cases h
  | serve c ch r e hch hpeer hup hs =>
    cases hs with
    | reset => exact Or.inr (Or.inl ⟨rfl, rfl, rfl⟩)
    | free sga b =>
      refine Or.inl ⟨rfl, fun _ => ?_⟩
      cases b.record.freeInvalidates <;> rfl
    | _ => exact Or.inl ⟨rfl, fun _ => by simp [hx, forward, Ctl.aside, Exchange.aside]⟩
  | send y ch hch hnw hnr => exact Or.inl ⟨rfl, fun h => h⟩
  | received y r rest ch hch hd hp hni => exact Or.inl ⟨rfl, fun h => h⟩
  | misread y r rest ch hch hd hm => exact Or.inl ⟨rfl, fun _ => rfl⟩
  | discardFor | startInvalidations => exact Or.inl ⟨rfl, fun _ => rfl⟩
  | _ => exact Or.inl ⟨rfl, by intro h; cases h⟩

theorem Suspends.steps {s' : State} {a : Action} (h : Suspends s) (hs : Steps s a s') : Suspends s' := by
  intro p
  cases hs with
  | begin n op hidle hsus =>
    by_cases hpn : p = n
    · subst hpn
      rw [State.begun_self]
      exact Or.inl hsus
    · rw [State.begun_ne hpn]
      exact h p
  | accept m c y hc hm hidle =>
    have hmc := ne_of_idle_connecting hc hidle
    by_cases hpc : p = c
    · subst hpc
      rw [State.accepted_client]
      rcases h p with hs | ⟨ha, hp⟩
      · exact Or.inl hs
      · rw [hc] at ha
        exact Or.inr ⟨ha, hp⟩
    · by_cases hpm : p = m
      · subst hpm
        rw [State.accepted_server hmc]
        rcases h p with hs | ⟨-, hp⟩
        · exact Or.inl hs
        · exact Or.inr ⟨rfl, hp⟩
      · rw [State.accepted_ne hpc hpm]
        exact h p
  | exec n env e _ hm =>
    by_cases hpn : p = n
    · subst hpn
      rw [Effect.apply_self]
      rcases hm.suspends rfl with ⟨hsus, ha⟩ | ⟨-, hsus, -⟩ | ⟨d, sga, hx, hsus, hctl⟩
      · rw [hsus]
        exact (h p).imp id fun hp => ⟨ha hp.1, hp.2⟩
      · rw [hsus]
        exact Or.inl (endSession_suspended _ ((h p).imp id And.right))
      · rw [hsus, hctl, h.of_own hx rfl]
        exact Or.inr ⟨rfl, _, rfl⟩
    · rw [Effect.apply_ne hpn]
      exact h p

theorem Quiet.suspends (h : Quiet s) : Suspends s := fun n => Or.inl (h.suspended n)

end
end CacheCoherence.Protocol
