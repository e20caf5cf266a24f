import Mathlib.Data.List.Nodup
import Mathlib.Logic.Function.Basic

/-! # Separate chaining

A list of entries kept in chains, one for each bucket: every chain is the part of the list that falls into
its bucket, in the order of the list.
-/
namespace CacheCoherence.Chaining
variable {E K B : Type*} [DecidableEq B] (key : E → K) (bucket : K → B)

def Chained (storage : B → List E) (es : List E) : Prop :=
  ∀ b, storage b = es.filter fun e => bucket (key e) = b

variable {key bucket} {storage : B → List E} {es : List E} {e : E}

theorem chained_empty : Chained key bucket (fun _ => []) [] := fun _ => rfl

theorem Chained.mem (h : Chained key bucket storage es) {b : B} {e : E} :
    e ∈ storage b ↔ e ∈ es ∧ bucket (key e) = b := by
  simp [h b]

theorem Chained.push (h : Chained key bucket storage es) (e : E) :
    Chained key bucket (Function.update storage (bucket (key e)) (e :: storage (bucket (key e)))) (e :: es) := by
  intro b
  by_cases hb : b = bucket (key e)
  · subst hb
    simp [h (bucket (key e))]
  · have hne : bucket (key e) ≠ b := fun heq => hb heq.symm
    simp [hb, hne, h b]

theorem Chained.perm (h : Chained key bucket storage es) (hes : es.Nodup) {bs : List B} (hbs : bs.Nodup)
    (hall : ∀ b, b ∈ bs) : (bs.flatMap storage).Perm es := by
  have hnodup : (bs.flatMap storage).Nodup := by
    refine List.nodup_flatMap.mpr ⟨fun b _ => h b ▸ hes.filter _, hbs.imp fun {b c} hbc e heb hec => ?_⟩
    exact hbc ((h.mem.mp heb).2.symm.trans (h.mem.mp hec).2)
  refine (List.perm_ext_iff_of_nodup hnodup hes).mpr fun e => ?_
  constructor
  · intro he
    obtain ⟨b, -, hb⟩ := List.mem_flatMap.mp he
    exact (h.mem.mp hb).1
  · intro he
    exact List.mem_flatMap.mpr ⟨bucket (key e), hall _, h.mem.mpr ⟨he, rfl⟩⟩

theorem flatMap_update_perm {bs : List B} (hbs : bs.Nodup) {b : B} (hb : b ∈ bs) {c : List E}
    (hc : (storage b).Perm (e :: c)) :
    (bs.flatMap storage).Perm (e :: bs.flatMap (Function.update storage b c)) := by
  induction bs with
  | nil => cases hb
  | cons x bs ih =>
    obtain ⟨hx, hbs⟩ := List.nodup_cons.mp hbs
    by_cases hxb : x = b
    · subst hxb
      have hrest : bs.flatMap (Function.update storage x c) = bs.flatMap storage := by
        refine List.flatMap_congr fun y hy => ?_
        have hyx : y ≠ x := fun heq => hx (heq ▸ hy)
        rw [Function.update_of_ne hyx]
      rw [List.flatMap_cons, List.flatMap_cons, hrest, Function.update_self]
      exact hc.append_right _
    · have hmem : b ∈ bs := (List.mem_cons.mp hb).resolve_left fun heq => hxb heq.symm
      rw [List.flatMap_cons, List.flatMap_cons, Function.update_of_ne hxb]
      exact ((ih hbs hmem).append_left (storage x)).trans List.perm_middle

variable [DecidableEq K]

/-- The chain of a key finds what the list finds. -/
theorem Chained.find? (h : Chained key bucket storage es) (k : K) :
    (storage (bucket k)).find? (fun e => key e = k) = es.find? fun e => key e = k := by
  rw [h, List.find?_filter]
  refine congrArg (fun p => es.find? p) (funext fun e => ?_)
  by_cases hk : key e = k <;> simp [hk]

theorem Chained.eraseP (h : Chained key bucket storage es) (k : K) :
    Chained key bucket (Function.update storage (bucket k) ((storage (bucket k)).eraseP fun e => key e = k))
      (es.eraseP fun e => key e = k) := by
  intro b
  by_cases hb : b = bucket k
  · subst hb
    rw [Function.update_self, h, List.eraseP_filter]
    refine congrArg (fun p => (es.eraseP p).filter _) (funext fun e => ?_)
    by_cases hk : key e = k <;> simp [hk]
  · rw [Function.update_of_ne hb, h]
    clear h
    induction es with
    | nil => rfl
    | cons e es ih =>
      by_cases hk : key e = k
      · have hne : bucket k ≠ b := fun heq => hb heq.symm
        simp [hk, hne]
      · rw [List.eraseP_cons_of_neg (by simpa using hk), List.filter_cons, List.filter_cons, ih]

end CacheCoherence.Chaining
