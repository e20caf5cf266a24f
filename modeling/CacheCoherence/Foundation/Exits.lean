import Mathlib

/-! # Programs that may exit early

A program over a state ends with a result, or with an exception that leaves the state as it is at that point, or
does not end. The rules here say at which states its exits are, and when they are exceptions.
-/
namespace CacheCoherence.Exits

abbrev Prog (ε σ : Type) := ExceptT ε (StateT σ Option)

variable {ε ε' σ τ α β γ : Type}

/-- The outcome and the state on exit; `none` when the program does not end. -/
def Prog.exec (m : Prog ε σ α) (s : σ) : Option (Except ε α × σ) := m.run.run s

def act (f : σ → Option (Except ε α × σ)) : Prog ε σ α := ExceptT.mk f

def zoom (get : τ → σ) (set : σ → τ → τ) (wrap : ε → ε') (m : Prog ε σ α) : Prog ε' τ α :=
  act fun s => (m.exec (get s)).map fun p => (p.1.mapError wrap, set p.2 s)

/-- Every exit is related to the start. -/
def Leaves (R : σ → σ → Prop) (m : Prog ε σ α) : Prop := ∀ s r t, m.exec s = some (r, t) → R s t

/-- The exits are exceptions under this condition, and results otherwise. -/
def FailsIff (p : Prop) (m : Prog ε σ α) : Prop := ∀ s r t, m.exec s = some (r, t) → ((∃ e, r = .error e) ↔ p)

def Ends (m : Prog ε σ α) : Prop := ∀ s, ∃ r t, m.exec s = some (r, t)

variable {m : Prog ε σ α} {f : α → Prog ε σ β} {g : γ → Prog ε σ PUnit} {s t : σ} {R : σ → σ → Prop} {p q : Prop}

@[simp] theorem exec_pure (a : α) : Prog.exec (pure a : Prog ε σ α) s = some (.ok a, s) := rfl
@[simp] theorem exec_throw (e : ε) : Prog.exec (throw e : Prog ε σ α) s = some (.error e, s) := rfl
@[simp] theorem exec_act (h : σ → Option (Except ε α × σ)) : (act h).exec s = h s := rfl

theorem exec_bind : Prog.exec (m >>= f) s = (m.exec s).bind fun p => match p with
    | (.ok a, t) => (f a).exec t
    | (.error e, t) => some (.error e, t) := by
  simp only [Prog.exec, ExceptT.run_bind, StateT.run_bind]
  refine congrArg _ (funext fun p => ?_)
  obtain ⟨_ | a, t⟩ := p <;> rfl

theorem exec_bind_ok {a : α} (h : m.exec s = some (.ok a, t)) : Prog.exec (m >>= f) s = (f a).exec t := by
  rw [exec_bind, h]
  rfl

theorem exec_bind_cases {r : Except ε β} (h : Prog.exec (m >>= f) s = some (r, t)) :
    (∃ e, r = .error e ∧ m.exec s = some (.error e, t)) ∨ ∃ a u, m.exec s = some (.ok a, u) ∧
      (f a).exec u = some (r, t) := by
  rw [exec_bind] at h
  obtain ⟨⟨_ | a, u⟩, hm, hf⟩ := Option.bind_eq_some_iff.mp h
  · cases hf
    exact Or.inl ⟨_, rfl, hm⟩
  · exact Or.inr ⟨a, u, hm, hf⟩

theorem exec_discard {r : Except ε α} (h : m.exec s = some (r, t)) (b : β) :
    Prog.exec (m >>= fun _ => pure b) s = some (r.map fun _ => b, t) := by
  rw [exec_bind, h]
  cases r <;> rfl

theorem exec_discard_eq {b : β} {r : Except ε β} (h : Prog.exec (m >>= fun _ => pure b) s = some (r, t)) :
    ∃ r₀, m.exec s = some (r₀, t) := by
  rcases exec_bind_cases h with ⟨e, -, he⟩ | ⟨a, u, ha, hu⟩
  · exact ⟨_, he⟩
  · cases hu
    exact ⟨_, ha⟩

theorem exec_bind_eq_ok {b : β} : Prog.exec (m >>= f) s = some (.ok b, t) ↔
    ∃ a u, m.exec s = some (.ok a, u) ∧ (f a).exec u = some (.ok b, t) := by
  constructor
  · intro h
    rcases exec_bind_cases h with ⟨e, he, -⟩ | hok
    · cases he
    · exact hok
  · rintro ⟨a, u, ha, hb⟩
    rw [exec_bind_ok ha, hb]

theorem exec_bind_eq_error {e : ε} : Prog.exec (m >>= f) s = some (.error e, t) ↔
    m.exec s = some (.error e, t) ∨ ∃ a u, m.exec s = some (.ok a, u) ∧ (f a).exec u = some (.error e, t) := by
  constructor
  · intro h
    rcases exec_bind_cases h with ⟨e', he, hm⟩ | hok
    · cases he
      exact Or.inl hm
    · exact Or.inr hok
  · rintro (he | ⟨a, u, ha, hb⟩)
    · rw [exec_bind, he]
      rfl
    · rw [exec_bind_ok ha, hb]

theorem exec_discard_eq_ok {b b' : β} (h : Prog.exec (m >>= fun _ => pure b) s = some (.ok b', t)) :
    ∃ a, m.exec s = some (.ok a, t) := by
  obtain ⟨a, u, ha, hu⟩ := exec_bind_eq_ok.mp h
  cases hu
  exact ⟨a, ha⟩

theorem exec_discard_eq_error {b : β} {e : ε} (h : Prog.exec (m >>= fun _ => pure b) s = some (.error e, t)) :
    m.exec s = some (.error e, t) := by
  rcases exec_bind_eq_error.mp h with he | ⟨a, u, -, hu⟩
  · exact he
  · cases hu

theorem exec_zoom_eq {get : τ → σ} {set : σ → τ → τ} {wrap : ε → ε'} {x y : τ} {r : Except ε' α}
    (h : (zoom get set wrap m).exec x = some (r, y)) :
    ∃ r₀ t, m.exec (get x) = some (r₀, t) ∧ r = r₀.mapError wrap ∧ y = set t x := by
  rw [zoom, exec_act] at h
  obtain ⟨⟨r₀, t⟩, hm, hp⟩ := Option.map_eq_some_iff.mp h
  obtain ⟨rfl, rfl⟩ := Prod.mk.inj hp
  exact ⟨r₀, t, hm, rfl, rfl⟩

theorem leaves_pure (hR : ∀ s, R s s) (a : α) : Leaves R (pure a : Prog ε σ α) := by
  intro s r t h
  cases h
  exact hR s

theorem Leaves.bind (hR : ∀ s t u, R s t → R t u → R s u) (hm : Leaves R m) (hf : ∀ a, Leaves R (f a)) :
    Leaves R (m >>= f) := by
  intro s r t h
  rcases exec_bind_cases h with ⟨e, rfl, he⟩ | ⟨a, u, ha, hu⟩
  · exact hm s _ t he
  · exact hR s u t (hm s _ u ha) (hf a u r t hu)

theorem leaves_zoom {R : τ → τ → Prop} {get : τ → σ} {set : σ → τ → τ} {wrap : ε → ε'} (h : ∀ x t, R x (set t x)) :
    Leaves R (zoom get set wrap m) := by
  intro x r y hxy
  obtain ⟨-, t, -, -, rfl⟩ := exec_zoom_eq hxy
  exact h x t

theorem ends_pure (a : α) : Ends (pure a : Prog ε σ α) := fun s => ⟨_, s, rfl⟩

theorem Ends.bind (hm : Ends m) (hf : ∀ a, Ends (f a)) : Ends (m >>= f) := by
  intro s
  obtain ⟨_ | a, t, ht⟩ := hm s
  · exact ⟨_, t, by rw [exec_bind, ht]; rfl⟩
  · obtain ⟨r, u, hu⟩ := hf a t
    exact ⟨r, u, by rw [exec_bind_ok ht, hu]⟩

theorem Ends.forM (hg : ∀ x, Ends (g x)) (l : List γ) : Ends (l.forM g) := by
  induction l with
  | nil => exact ends_pure ()
  | cons x l ih => exact (hg x).bind fun _ => ih

theorem Ends.zoom {get : τ → σ} {set : σ → τ → τ} {wrap : ε → ε'} (h : Ends m) : Ends (Exits.zoom get set wrap m) := by
  intro x
  obtain ⟨r, t, ht⟩ := h (get x)
  exact ⟨r.mapError wrap, set t x, by rw [Exits.zoom, exec_act, ht]; rfl⟩

theorem failsIff_act {h : σ → Option (Except ε α × σ)} (hok : ∀ s r t, h s = some (r, t) → ∃ a, r = .ok a) :
    FailsIff False (act h) := by
  intro s r t hst
  obtain ⟨a, rfl⟩ := hok s r t hst
  simp

theorem FailsIff.congr (h : FailsIff p m) (hpq : p ↔ q) : FailsIff q m := fun s r t hm => (h s r t hm).trans hpq

theorem failsIff_pure (a : α) : FailsIff False (pure a : Prog ε σ α) := by
  intro s r t h
  cases h
  simp

theorem FailsIff.bind (hm : FailsIff p m) (hf : ∀ a, FailsIff q (f a)) : FailsIff (p ∨ q) (m >>= f) := by
  intro s r t h
  rcases exec_bind_cases h with ⟨e, rfl, he⟩ | ⟨a, u, ha, hu⟩
  · exact ⟨fun _ => Or.inl ((hm s _ t he).mp ⟨e, rfl⟩), fun _ => ⟨e, rfl⟩⟩
  · have hp : ¬ p := fun hp => by
      obtain ⟨e, he⟩ := (hm s _ u ha).mpr hp
      cases he
    rw [hf a u r t hu, or_iff_right hp]

theorem FailsIff.forM {p : γ → Prop} (hg : ∀ x, FailsIff (p x) (g x)) (l : List γ) :
    FailsIff (∃ x ∈ l, p x) (l.forM g) := by
  induction l with
  | nil => exact (failsIff_pure ()).congr (by simp)
  | cons x l ih => exact ((hg x).bind fun _ => ih).congr (by simp)

theorem FailsIff.zoom {get : τ → σ} {set : σ → τ → τ} {wrap : ε → ε'} (h : FailsIff p m) :
    FailsIff p (Exits.zoom get set wrap m) := by
  intro x r y hxy
  obtain ⟨r₀, t, hm, rfl, -⟩ := exec_zoom_eq hxy
  rw [← h _ r₀ t hm]
  cases r₀ <;> simp [Except.mapError]

end CacheCoherence.Exits
