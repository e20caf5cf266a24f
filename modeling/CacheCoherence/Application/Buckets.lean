import CacheCoherence.Application.HashTable
import CacheCoherence.Foundation.Mixing
import Mathlib

/-! # The buckets of the hash table

Every assignment of `hash` is a permutation of the keys, so every bucket is the bucket of equally many of them.
-/
namespace CacheCoherence.HashTable
open Mixing

def assignments : List (UInt32 → UInt32) :=
  [fun key => (key ^^^ (61 : UInt32)) ^^^ (key >>> (16 : UInt32)),
    fun key => key + (key <<< (3 : UInt32)),
    fun key => key ^^^ (key >>> (4 : UInt32)),
    fun key => key * (0x27d4eb2d : UInt32),
    fun key => key ^^^ (key >>> (15 : UInt32))]

theorem hash_eq_foldl (key : UInt32) : hash key = assignments.foldl (fun key assignment => assignment key) key := rfl

theorem bijective_of_words {f : UInt32 → UInt32} {g : BitVec 32 → BitVec 32} (hg : Function.Injective g)
    (hfg : ∀ key, (f key).toBitVec = g key.toBitVec) : Function.Bijective f := by
  refine Finite.injective_iff_bijective.mp fun x y hxy => ?_
  have hwords : g x.toBitVec = g y.toBitVec := by rw [← hfg, ← hfg, hxy]
  exact UInt32.toBitVec_inj.mp (hg hwords)

theorem xorShift_bijective (k : UInt32) (hk : 0 < k.toNat % 32) :
    Function.Bijective fun key : UInt32 => key ^^^ (key >>> k) :=
  bijective_of_words (xorShift_injective hk) fun key => by simp [xorShift]

theorem firstAssignment_bijective : Function.Bijective fun key : UInt32 =>
    (key ^^^ (61 : UInt32)) ^^^ (key >>> (16 : UInt32)) := by
  have hshift : Function.Bijective fun key : UInt32 => key ^^^ (key >>> (16 : UInt32)) :=
    xorShift_bijective 16 (by decide)
  have hxor : Function.Bijective fun key : UInt32 => key ^^^ (61 : UInt32) :=
    bijective_of_words (xor_injective _) fun _ => rfl
  have heq : (fun key : UInt32 => (key ^^^ (61 : UInt32)) ^^^ (key >>> (16 : UInt32))) =
    (fun key => key ^^^ (61 : UInt32)) ∘ fun key => key ^^^ (key >>> (16 : UInt32)) := by
    funext key
    simp only [Function.comp_apply]
    ac_rfl
  rw [heq]
  exact hxor.comp hshift

theorem mul_bijective (c : UInt32) (hc : Nat.Coprime (2 ^ 32) c.toNat) :
    Function.Bijective fun key : UInt32 => key * c :=
  bijective_of_words (mul_injective hc) fun _ => rfl

/-- Shift and addition multiply by nine. -/
theorem addShift_bijective : Function.Bijective fun key : UInt32 => key + (key <<< (3 : UInt32)) := by
  refine bijective_of_words (mul_injective (c := BitVec.ofNat 32 (2 ^ 3 + 1)) (by decide)) fun key => ?_
  rw [← add_shiftLeft]
  simp

theorem assignments_bijective : ∀ assignment ∈ assignments, Function.Bijective assignment := by
  simp only [assignments, List.forall_mem_cons, List.not_mem_nil, false_implies, implies_true, and_true]
  exact ⟨firstAssignment_bijective, addShift_bijective, xorShift_bijective 4 (by decide), mul_bijective _ (by decide),
    xorShift_bijective 15 (by decide)⟩

theorem foldl_bijective {fs : List (UInt32 → UInt32)} (hfs : ∀ f ∈ fs, Function.Bijective f) :
    Function.Bijective fun key => fs.foldl (fun key f => f key) key := by
  induction fs with
  | nil => exact Function.bijective_id
  | cons f fs ih =>
    have hfs' : ∀ g ∈ fs, Function.Bijective g := fun g hg => hfs g (List.mem_cons_of_mem f hg)
    exact (ih hfs').comp (hfs f List.mem_cons_self)

theorem hash_perm : Function.Bijective hash := foldl_bijective assignments_bijective

theorem hashBucket_eq_iff {key : UInt32} {b : Fin 64} : hashBucket key = b ↔ (hash key).toNat % 64 = b.val := by
  have hval : (hashBucket key).val = (hash key).toNat % 64 := UInt32.toNat_mod (hash key) 64
  rw [Fin.ext_iff, hval]

def hashNumbers : UInt32 ≃ Fin (2 ^ 26 * 64) where
  toFun h := ⟨h.toNat, by have := h.toNat_lt; omega⟩
  invFun i := UInt32.ofNat i.val
  left_inv h := UInt32.ofNat_toNat
  right_inv i := Fin.ext (UInt32.toNat_ofNat_of_lt' i.isLt)

theorem card_bucket (b : Fin 64) : Nat.card {key // hashBucket key = b} = 2 ^ 26 := by
  have e : {key // hashBucket key = b} ≃ {x : Fin (2 ^ 26 * 64) // x.val % 64 = b.val} :=
    ((Equiv.ofBijective hash hash_perm).trans hashNumbers).subtypeEquiv fun _ => hashBucket_eq_iff
  exact (Nat.card_congr e).trans (card_residue (2 ^ 26) 64 b)

/-- No two keys have one hash, and the buckets share the keys evenly. -/
theorem hash_lossless :
    (∀ assignment ∈ assignments, Function.Bijective assignment) ∧
      (∀ key, hash key = assignments.foldl (fun key assignment => assignment key) key) ∧
      Function.Bijective hash ∧ ∀ b, Nat.card {key // hashBucket key = b} = 2 ^ 26 :=
  ⟨assignments_bijective, hash_eq_foldl, hash_perm, card_bucket⟩

end CacheCoherence.HashTable
