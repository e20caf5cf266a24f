import Mathlib

/-! # Mixing steps on words

The steps that integer hashes are made of, on words of any width: each of them loses nothing, so what is composed
of them is a permutation of the words.
-/
namespace CacheCoherence.Mixing
variable {w : ℕ}

theorem eq_zero_of_shiftRight {k : ℕ} (hk : 0 < k) {z : BitVec w} (h : z = z >>> k) : z = 0#w := by
  have hnat : z.toNat = z.toNat / 2 ^ k := by
    conv_lhs => rw [h]
    simp [Nat.shiftRight_eq_div_pow]
  apply BitVec.eq_of_toNat_eq
  by_contra hne
  have hpos : 0 < z.toNat := Nat.pos_of_ne_zero (by simpa using hne)
  have hlt : z.toNat / 2 ^ k < z.toNat := Nat.div_lt_self hpos (Nat.one_lt_two_pow hk.ne')
  omega

def xorShift (k : ℕ) (x : BitVec w) : BitVec w := x ^^^ (x >>> k)

/-- Two words with one image differ by a word that equals itself shifted down. -/
theorem xorShift_injective {k : ℕ} (hk : 0 < k) : Function.Injective (xorShift k : BitVec w → BitVec w) := by
  intro x y h
  have hshift : x ^^^ y = (x ^^^ y) >>> k := by
    rw [BitVec.ushiftRight_xor_distrib]
    unfold xorShift at h
    calc x ^^^ y = (x ^^^ (x >>> k)) ^^^ (x >>> k) ^^^ y := by rw [BitVec.xor_assoc x, BitVec.xor_self, BitVec.xor_zero]
      _ = (y ^^^ (y >>> k)) ^^^ (x >>> k) ^^^ y := by rw [h]
      _ = (y ^^^ y) ^^^ ((x >>> k) ^^^ (y >>> k)) := by ac_rfl
      _ = (x >>> k) ^^^ (y >>> k) := by rw [BitVec.xor_self, BitVec.zero_xor]
  exact BitVec.xor_eq_zero_iff.mp (eq_zero_of_shiftRight hk hshift)

theorem xor_injective (c : BitVec w) : Function.Injective fun x : BitVec w => x ^^^ c :=
  fun _ _ h => BitVec.xor_left_inj c |>.mp h

theorem mul_injective {c : BitVec w} (hc : Nat.Coprime (2 ^ w) c.toNat) :
    Function.Injective fun x : BitVec w => x * c := by
  intro x y h
  have hmod : x.toNat * c.toNat ≡ y.toNat * c.toNat [MOD 2 ^ w] := by
    simpa [Nat.ModEq] using congrArg BitVec.toNat h
  have hcancel := Nat.ModEq.cancel_right_of_coprime hc hmod
  exact BitVec.eq_of_toNat_eq (Nat.ModEq.eq_of_lt_of_lt hcancel x.isLt y.isLt)

theorem add_shiftLeft (k : ℕ) (x : BitVec w) : x + (x <<< k) = x * BitVec.ofNat w (2 ^ k + 1) := by
  apply BitVec.eq_of_toNat_eq
  simp [Nat.shiftLeft_eq, Nat.mul_add, Nat.add_comm]

/-- Every residue is taken equally often by the numbers below a multiple. -/
theorem card_residue (m n : ℕ) (b : Fin n) : Nat.card {x : Fin (m * n) // x.val % n = b.val} = m := by
  have e : {x : Fin (m * n) // x.val % n = b.val} ≃ {p : Fin m × Fin n // p.2 = b} :=
    finProdFinEquiv.symm.subtypeEquiv fun x => by simp [finProdFinEquiv, Fin.ext_iff, Fin.modNat]
  have e' : {p : Fin m × Fin n // p.2 = b} ≃ Fin m :=
    ⟨fun p => p.val.1, fun i => ⟨(i, b), rfl⟩, fun ⟨⟨i, _⟩, rfl⟩ => rfl, fun _ => rfl⟩
  rw [Nat.card_congr (e.trans e'), Nat.card_fin]

end CacheCoherence.Mixing
