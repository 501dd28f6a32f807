import Mathlib.FieldTheory.Finite.Basic
import Mathlib.GroupTheory.OrderOfElement
import CircuitProof.Proofs.Bn254.Fields
import CircuitProof.Proofs.Polynomial.Transform

/-!
# The domains of the scalar field are lawful

The root of the largest domain has the largest order, and the other roots are powers of it. The
multiplicative group has no element whose order is a larger power of two, so there are no other
domains.
-/

namespace CircuitProof

/-- The generator is no square, so its odd power has the full order `2 ^ 28`. -/
theorem isPrimitiveRoot_root_maxLog : IsPrimitiveRoot (RadixTwo.root 28 : Scalar) (2 ^ 28) := by
  have horder : orderOf (RadixTwo.root 28 : Scalar) = 2 ^ (27 + 1) := by
    refine orderOf_eq_prime_pow ?_ ?_
    · rw [← power_eq_pow]
      decide +kernel
    · rw [← power_eq_pow]
      decide +kernel
  rw [← horder]
  exact IsPrimitiveRoot.orderOf _

theorem root_eq_pow {k : Nat} (hk : k ≤ 28) :
    (RadixTwo.root k : Scalar) = (RadixTwo.root 28 : Scalar) ^ 2 ^ (28 - k) := by
  obtain ⟨m, hm⟩ : 2 ^ 28 ∣ scalarModulus - 1 := by decide +kernel
  have hroot : ∀ j, (RadixTwo.root j : Scalar) = scalarGenerator ^ (2 ^ 28 * m / 2 ^ j) := by
    intro j
    rw [← hm, ← power_eq_pow]
    rfl
  have hsplit : 2 ^ 28 * m = 2 ^ k * (m * 2 ^ (28 - k)) := by
    rw [mul_left_comm, ← pow_add, Nat.add_sub_cancel' hk, mul_comm]
  rw [hroot, hroot, Nat.mul_div_cancel_left m (by positivity), ← pow_mul, hsplit,
    Nat.mul_div_cancel_left _ (by positivity)]

instance : LawfulRadixTwo Scalar where
  isPrimitiveRoot k hk := by
    have hle : k ≤ 28 := hk
    rw [root_eq_pow hle]
    refine isPrimitiveRoot_root_maxLog.pow (by positivity) ?_
    rw [← pow_add, Nat.sub_add_cancel hle]
  shift_ne_zero := by decide +kernel
  shift_pow_ne_one k hk hone := by
    have hle : k ≤ 28 := hk
    have hpow : (RadixTwo.shift : Scalar) ^ 2 ^ 28 = 1 := by
      rw [← Nat.add_sub_cancel' hle, pow_add, pow_mul, hone, one_pow]
    rw [← power_eq_pow] at hpow
    exact absurd hpow (by decide +kernel)

/-- The field has a domain of each size up to the largest one, and no larger one. -/
theorem exists_isPrimitiveRoot_iff {k : Nat} :
    (∃ w : Scalar, IsPrimitiveRoot w (2 ^ k)) ↔ k ≤ RadixTwo.maxLog Scalar := by
  constructor
  · rintro ⟨w, hw⟩
    have : Fintype Scalar := Fintype.ofFinite Scalar
    have hcard : Fintype.card Scalar = scalarModulus := by
      rw [← Nat.card_eq_fintype_card, Residue.natCard_eq]
    have hone : w ^ (Fintype.card Scalar - 1) = 1 :=
      FiniteField.pow_card_sub_one_eq_one w (hw.ne_zero (Nat.two_pow_pos k).ne')
    have hdvd : 2 ^ k ∣ scalarModulus - 1 := by
      rw [← hcard]
      exact hw.dvd_of_pow_eq_one _ hone
    have hlargest : ¬ 2 ^ 29 ∣ scalarModulus - 1 := by decide +kernel
    by_contra hlt
    exact hlargest ((pow_dvd_pow 2 (Nat.lt_of_not_le hlt)).trans hdvd)
  · intro hle
    exact ⟨_, LawfulRadixTwo.isPrimitiveRoot k hle⟩

end CircuitProof
