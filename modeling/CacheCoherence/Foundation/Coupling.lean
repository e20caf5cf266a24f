import CacheCoherence.Foundation.Exits

/-! # Two programs side by side

The rules relate the exits of a program to those of another one over a different state: both end or neither does,
and they return, or throw the same exception, in related states.
-/
namespace CacheCoherence.Exits
variable {ε σ τ α β α' β' γ A B : Type}

/-- From `s` and `t` the programs end alike, with results and states related by `Q`, or in states related by `E`
after an exception. -/
def Coupled (m : Prog ε σ α) (k : Prog ε τ β) (s : σ) (t : τ) (Q : α → β → σ → τ → Prop) (E : σ → τ → Prop) : Prop :=
  match m.exec s, k.exec t with
  | some (.ok a, s'), some (.ok b, t') => Q a b s' t'
  | some (.error e, s'), some (.error e', t') => e = e' ∧ E s' t'
  | none, none => True
  | _, _ => False

/-- The calls of a client that goes on after an exception, and what they have returned or thrown. -/
def history (call : A → Prog ε σ α) : List A → σ → Option (List (Except ε α) × σ)
  | [], s => some ([], s)
  | a :: as, s => ((call a).exec s).bind fun p => (history call as p.2).map fun q => (p.1 :: q.1, q.2)

def charges (call : A → Prog ε σ α) (cost : A → σ → ℕ) : List A → σ → ℕ
  | [], _ => 0
  | a :: as, s =>
    match (call a).exec s with
    | some (.ok _, s') => cost a s + charges call cost as s'
    | some (.error _, s') => charges call cost as s'
    | none => 0

section
variable {m : Prog ε σ α} {k : Prog ε τ β} {f : α → Prog ε σ α'} {g : β → Prog ε τ β'} {s s' : σ} {t t' : τ}
  {Q Q' : α → β → σ → τ → Prop} {P : α' → β' → σ → τ → Prop} {R E E' : σ → τ → Prop}

theorem coupled_pure {a : α} {b : β} (h : Q a b s t) :
    Coupled (pure a : Prog ε σ α) (pure b : Prog ε τ β) s t Q E := h

theorem Coupled.mono (h : Coupled m k s t Q E) (hQ : ∀ a b s' t', Q a b s' t' → Q' a b s' t')
    (hE : ∀ s' t', E s' t' → E' s' t') : Coupled m k s t Q' E' := by
  unfold Coupled at h ⊢
  split at h
  · exact hQ _ _ _ _ h
  · exact ⟨h.1, hE _ _ h.2⟩
  · trivial
  · exact h.elim

theorem Coupled.bind (h : Coupled m k s t Q E) (hf : ∀ a b s' t', Q a b s' t' → Coupled (f a) (g b) s' t' P E) :
    Coupled (m >>= f) (k >>= g) s t P E := by
  unfold Coupled at h
  split at h
  · rename_i a s' b t' hm hk
    have hrest := hf a b s' t' h
    unfold Coupled at hrest ⊢
    rw [exec_bind_ok hm, exec_bind_ok hk]
    exact hrest
  · rename_i hm hk
    unfold Coupled
    rw [exec_bind, hm, exec_bind, hk]
    exact h
  · rename_i hm hk
    unfold Coupled
    rw [exec_bind, hm, exec_bind, hk]
    trivial
  · exact h.elim

theorem coupled_left {a : α} {k : Prog ε τ β'} (hm : m.exec s = some (.ok a, s')) (h : Coupled (f a) k s' t P E) :
    Coupled (m >>= f) k s t P E := by
  unfold Coupled at h ⊢
  rw [exec_bind_ok hm]
  exact h

theorem coupled_right {b : β} {m : Prog ε σ α'} (hk : k.exec t = some (.ok b, t')) (h : Coupled m (g b) s t' P E) :
    Coupled m (k >>= g) s t P E := by
  unfold Coupled at h ⊢
  rw [exec_bind_ok hk]
  exact h

theorem coupled_zoom {ε₀ ρ : Type} {get : σ → ρ} {set : ρ → σ → σ} {get' : τ → ρ} {set' : ρ → τ → τ} {wrap : ε₀ → ε}
    {m : Prog ε₀ ρ α} {Q : α → α → σ → τ → Prop} (hget : get s = get' t) (hQ : ∀ a r, Q a a (set r s) (set' r t))
    (hE : ∀ r, E (set r s) (set' r t)) : Coupled (zoom get set wrap m) (zoom get' set' wrap m) s t Q E := by
  unfold Coupled zoom
  rw [exec_act, exec_act, hget]
  match m.exec (get' t) with
  | none => trivial
  | some (.ok a, r) => exact hQ a r
  | some (.error e, r) => exact ⟨rfl, hE r⟩

theorem coupled_forM {R : List γ → σ → τ → Prop} {g : γ → Prog ε σ PUnit} {g' : γ → Prog ε τ PUnit}
    (hbody : ∀ x l s t, R (x :: l) s t → Coupled (g x) (g' x) s t (fun _ _ => R l) E) {l : List γ} {s : σ} {t : τ}
    (h : R l s t) : Coupled (l.forM g) (l.forM g') s t (fun _ _ => R []) E := by
  induction l generalizing s t with
  | nil => exact coupled_pure h
  | cons x l ih => exact (hbody x l s t h).bind fun _ _ _ _ hR => ih hR

theorem Coupled.cases {k : Prog ε τ α} (h : Coupled m k s t (fun a b s' t' => a = b ∧ R s' t') E) :
    (m.exec s = none ∧ k.exec t = none) ∨
      (∃ a s' t', m.exec s = some (.ok a, s') ∧ k.exec t = some (.ok a, t') ∧ R s' t') ∨
      ∃ e s' t', m.exec s = some (.error e, s') ∧ k.exec t = some (.error e, t') ∧ E s' t' := by
  unfold Coupled at h
  split at h
  · rename_i a s' b t' hm hk
    obtain ⟨rfl, hR⟩ := h
    exact Or.inr (Or.inl ⟨a, s', t', hm, hk, hR⟩)
  · rename_i e s' e' t' hm hk
    obtain ⟨rfl, hE⟩ := h
    exact Or.inr (Or.inr ⟨e, s', t', hm, hk, hE⟩)
  · rename_i hm hk
    exact Or.inl ⟨hm, hk⟩
  · exact h.elim

end

section
variable {call : A → Prog ε σ α} {call' : B → Prog ε τ α} {of : A → B} {cost : A → σ → ℕ} {R : ℕ → σ → τ → Prop}

/-- Calls that keep a relation give the same answers for ever; those that return may move its index on. -/
theorem history_rel
    (hcall : ∀ a n s t, R n s t →
      Coupled (call a) (call' (of a)) s t (fun x y s' t' => x = y ∧ R (n + cost a s) s' t') (R n))
    (as : List A) {n : ℕ} {s : σ} {t : τ} (h : R n s t) :
    Option.Rel (fun p q => p.1 = q.1 ∧ R (n + charges call cost as s) p.2 q.2)
      (history call as s) (history call' (as.map of) t) := by
  induction as generalizing n s t with
  | nil => exact .some ⟨rfl, h⟩
  | cons a as ih =>
    have hmap : ∀ {r : Except ε α} {k : ℕ} {o : Option (List (Except ε α) × σ)} {o' : Option (List (Except ε α) × τ)},
        Option.Rel (fun p q => p.1 = q.1 ∧ R k p.2 q.2) o o' →
        Option.Rel (fun p q => p.1 = q.1 ∧ R k p.2 q.2) (o.map fun p => (r :: p.1, p.2))
          (o'.map fun q => (r :: q.1, q.2)) := by
      rintro r k o o' ho
      cases ho with
      | some hpq => exact .some ⟨congrArg _ hpq.1, hpq.2⟩
      | none => exact .none
    rw [List.map_cons, history, history, charges]
    rcases (hcall a n s t h).cases with ⟨hm, hk⟩ | ⟨x, s', t', hm, hk, hR⟩ | ⟨e, s', t', hm, hk, hR⟩
    · rw [hm, hk]
      exact .none
    · simp only [hm, hk, Option.bind_some, ← Nat.add_assoc]
      exact hmap (ih hR)
    · simp only [hm, hk, Option.bind_some]
      exact hmap (ih hR)

end
end CacheCoherence.Exits
