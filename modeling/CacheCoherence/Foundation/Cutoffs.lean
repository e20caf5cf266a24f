import Mathlib

/-! # Sums up to a rank

The weights of the entries of a list whose rank is at most a bound, and what taking off the entry of the
lowest rank does to them.
-/
namespace CacheCoherence.Cutoffs
variable {E α M : Type*} [LinearOrder α] [AddCommMonoid M] (rank : E → α) (weight : E → M)

def upTo (es : List E) (a : α) : M := ((es.filter fun e => rank e ≤ a).map weight).sum

variable {rank weight} {es fs : List E} {e : E} {a : α}

theorem upTo_perm (h : es.Perm fs) (a : α) : upTo rank weight es a = upTo rank weight fs a :=
  ((h.filter _).map weight).sum_eq

theorem upTo_cons (h : rank e ≤ a) : upTo rank weight (e :: es) a = weight e + upTo rank weight es a := by
  simp [upTo, h]

/-- Up to the lowest rank there is only its entry. -/
theorem upTo_first (h : ∀ f ∈ es, rank e < rank f) : upTo rank weight (e :: es) (rank e) = weight e := by
  have hnil : es.filter (fun f => rank f ≤ rank e) = [] := by
    refine List.filter_eq_nil_iff.mpr fun f hf => ?_
    simpa using h f hf
  simp [upTo, hnil]

end CacheCoherence.Cutoffs
