import Mathlib.Algebra.BigOperators.Fin
import CacheCoherence.Foundation.TransitionRuns

/-! # Amortised bounds on runs

A potential is what has been paid for work that is still to be done. When every step does no more work than it
pays for and than the potential falls by, the work of a run is bounded by what its actions pay.
-/
namespace CacheCoherence.Potentials
open TransitionRuns

section
variable {S A : Type*} {step : S → A → Option S} {I : S → Prop} {Φ : S → ℕ} {work cost : A → ℕ}

/-- The work of a run is paid for by its actions and by the potential it starts with. -/
theorem work_le (hI : ∀ s a t, I s → step s a = some t → I t)
    (hΦ : ∀ s a t, I s → step s a = some t → Φ t + work a ≤ Φ s + cost a)
    {s t : S} {as : List A} (hs : I s) (h : run step s as = some t) :
    (as.map work).sum + Φ t ≤ Φ s + (as.map cost).sum := by
  induction as generalizing s with
  | nil =>
    cases h
    simp
  | cons a as ih =>
    obtain ⟨u, hu, h⟩ := run_cons_some h
    have hstep := hΦ s a u hs hu
    have hrest := ih (hI s a u hs hu) h
    rw [List.map_cons, List.map_cons, List.sum_cons, List.sum_cons]
    omega

theorem sum_map_ite (p : A → Bool) (c : ℕ) (as : List A) :
    (as.map fun a => if p a then c else 0).sum = c * as.countP p := by
  induction as with
  | nil => rfl
  | cons a as ih =>
    rw [List.map_cons, List.sum_cons, ih, List.countP_cons]
    split <;> simp [Nat.mul_add, Nat.add_comm]

end

section
variable {ι M : Type*} [Fintype ι] [DecidableEq ι]

theorem sum_update (w : ι → M → ℕ) (f : ι → M) (i : ι) (x : M) :
    ∑ j, w j (Function.update f i x j) + w i (f i) = ∑ j, w j (f j) + w i x := by
  have hrest : ∑ j ∈ Finset.univ.erase i, w j (Function.update f i x j) = ∑ j ∈ Finset.univ.erase i, w j (f j) := by
    refine Finset.sum_congr rfl fun j hj => ?_
    rw [Function.update_of_ne (Finset.ne_of_mem_erase hj)]
  have hnew := Finset.sum_erase_add Finset.univ (fun j => w j (Function.update f i x j)) (Finset.mem_univ i)
  have hold := Finset.sum_erase_add Finset.univ (fun j => w j (f j)) (Finset.mem_univ i)
  simp only [Function.update_self] at hnew
  omega

variable (w : M → ℕ) (f : ι → M) (i : ι) (x : M)

/-- The weight of a map, without the entry that is set aside. -/
def weight (aside : Option ι) : ℕ := ∑ j, if aside = some j then 0 else w (f j)

theorem weight_none : weight w f none = ∑ j, w (f j) := by simp [weight]

theorem weight_some : weight w f (some i) + w (f i) = weight w f none := by
  have hrest : ∑ j ∈ Finset.univ.erase i, (if some i = some j then 0 else w (f j)) =
      ∑ j ∈ Finset.univ.erase i, w (f j) := by
    refine Finset.sum_congr rfl fun j hj => ?_
    rw [if_neg fun heq => Finset.ne_of_mem_erase hj (Option.some.inj heq).symm]
  have hnew := Finset.sum_erase_add Finset.univ (fun j => if some i = some j then 0 else w (f j)) (Finset.mem_univ i)
  have hold := Finset.sum_erase_add Finset.univ (fun j => w (f j)) (Finset.mem_univ i)
  simp only [if_true] at hnew
  rw [weight_none, weight]
  omega

theorem weight_some_le : weight w f (some i) ≤ weight w f none := by
  have h := weight_some w f i
  omega

theorem weight_update_some : weight w (Function.update f i x) (some i) = weight w f (some i) := by
  refine Finset.sum_congr rfl fun j _ => ?_
  by_cases hj : j = i
  · subst hj
    rw [if_pos rfl, if_pos rfl]
  · rw [Function.update_of_ne hj]

theorem weight_update_none : weight w (Function.update f i x) none = weight w f (some i) + w x := by
  rw [← weight_some w (Function.update f i x) i, weight_update_some, Function.update_self]

end

end CacheCoherence.Potentials
