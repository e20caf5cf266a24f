import Mathlib.Logic.Function.Basic

/-! # Shadowing

A list of bindings, the newest first. A binding hides the older ones of its key, and they come back when it is
removed.
-/
namespace CacheCoherence.Shadowing
variable {K V : Type*} [DecidableEq K]

def lookup (bs : List (K × V)) (k : K) : Option V := (bs.find? fun b => b.1 = k).map Prod.snd

def remove (bs : List (K × V)) (k : K) : List (K × V) := bs.eraseP fun b => b.1 = k

variable {k l : K}

theorem lookup_cons (bs : List (K × V)) (k : K) (v : V) :
    lookup ((k, v) :: bs) = Function.update (lookup bs) k (some v) := by
  funext l
  by_cases h : l = k
  · subst h
    simp [lookup]
  · have hne : k ≠ l := fun heq => h heq.symm
    simp [lookup, h, hne]

theorem find?_eraseP_of_ne {E : Type*} (key : E → K) (es : List E) (h : l ≠ k) :
    (es.eraseP fun e => key e = k).find? (fun e => key e = l) = es.find? fun e => key e = l := by
  induction es with
  | nil => rfl
  | cons e es ih =>
    by_cases he : key e = k
    · have hne : key e ≠ l := fun heq => h (heq.symm.trans he)
      rw [List.eraseP_cons_of_pos (by simpa using he), List.find?_cons_of_neg (by simpa using hne)]
    · rw [List.eraseP_cons_of_neg (by simpa using he), List.find?_cons, List.find?_cons, ih]

theorem lookup_remove_of_ne (bs : List (K × V)) (h : l ≠ k) : lookup (remove bs k) l = lookup bs l :=
  congrArg (Option.map Prod.snd) (find?_eraseP_of_ne Prod.fst bs h)

end CacheCoherence.Shadowing
