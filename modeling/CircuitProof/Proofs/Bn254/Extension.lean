import Mathlib.NumberTheory.LegendreSymbol.Basic
import CircuitProof.Bn254.Domain
import CircuitProof.Proofs.Bn254.Fields

/-!
# The quadratic extension is a field

The base modulus is three modulo four, so minus one is no square in the base field and the norm of an
element vanishes for zero alone.
-/

namespace CircuitProof

namespace Base2

@[simp] theorem c0_zero : (0 : Base2).c0 = 0 := rfl
@[simp] theorem c1_zero : (0 : Base2).c1 = 0 := rfl
@[simp] theorem c0_one : (1 : Base2).c0 = 1 := rfl
@[simp] theorem c1_one : (1 : Base2).c1 = 0 := rfl
@[simp] theorem c0_add (a b : Base2) : (a + b).c0 = a.c0 + b.c0 := rfl
@[simp] theorem c1_add (a b : Base2) : (a + b).c1 = a.c1 + b.c1 := rfl
@[simp] theorem c0_sub (a b : Base2) : (a - b).c0 = a.c0 - b.c0 := rfl
@[simp] theorem c1_sub (a b : Base2) : (a - b).c1 = a.c1 - b.c1 := rfl
@[simp] theorem c0_neg (a : Base2) : (-a).c0 = -a.c0 := rfl
@[simp] theorem c1_neg (a : Base2) : (-a).c1 = -a.c1 := rfl

@[simp] theorem c0_mul (a b : Base2) : (a * b).c0 = a.c0 * b.c0 - a.c1 * b.c1 :=
  Residue.mulSub_eq ..

@[simp] theorem c1_mul (a b : Base2) : (a * b).c1 = a.c0 * b.c1 + a.c1 * b.c0 :=
  Residue.mulAdd_eq ..

theorem ext_parts {a b : Base2} (h₀ : a.c0 = b.c0) (h₁ : a.c1 = b.c1) : a = b := by
  cases a
  cases b
  cases h₀
  cases h₁
  rfl

instance : CommRing Base2 where
  add_assoc a b c := ext_parts (add_assoc ..) (add_assoc ..)
  zero_add a := ext_parts (zero_add _) (zero_add _)
  add_zero a := ext_parts (add_zero _) (add_zero _)
  add_comm a b := ext_parts (add_comm ..) (add_comm ..)
  neg_add_cancel a := ext_parts (neg_add_cancel _) (neg_add_cancel _)
  sub_eq_add_neg a b := ext_parts (sub_eq_add_neg ..) (sub_eq_add_neg ..)
  mul_assoc a b c := by apply ext_parts <;> simp only [c0_mul, c1_mul] <;> ring
  mul_comm a b := by apply ext_parts <;> simp only [c0_mul, c1_mul] <;> ring
  one_mul a := by apply ext_parts <;> simp
  mul_one a := by apply ext_parts <;> simp
  zero_mul a := by apply ext_parts <;> simp
  mul_zero a := by apply ext_parts <;> simp
  left_distrib a b c := by apply ext_parts <;> simp <;> ring
  right_distrib a b c := by apply ext_parts <;> simp <;> ring
  nsmul := nsmulRec
  zsmul := zsmulRec

theorem norm_eq (a : Base2) : a.norm = a.c0 * a.c0 + a.c1 * a.c1 := Residue.mulAdd_eq ..

/-- Minus one is no square, so a sum of two squares is zero only for zeros. -/
theorem norm_ne_zero {a : Base2} (ha : a ≠ 0) : a.norm ≠ 0 := by
  rw [norm_eq]
  intro hnorm
  have hsquares : a.c0.toZMod ^ 2 = -a.c1.toZMod ^ 2 := by
    have h := congrArg Residue.toZMod hnorm
    rw [Residue.toZMod_add, Residue.toZMod_mul, Residue.toZMod_mul, Residue.toZMod_zero] at h
    linear_combination h
  have hzero : a.c1 = 0 := by
    by_contra hne
    have hcast : a.c1.toZMod ≠ 0 := fun h => hne (Residue.toZMod_injective (by simpa using h))
    exact ZMod.mod_four_ne_three_of_sq_eq_neg_sq' hcast hsquares (by decide)
  rw [hzero, mul_zero, add_zero] at hnorm
  exact ha (ext_parts (mul_self_eq_zero.mp hnorm) hzero)

/-- The extension is a field. -/
theorem mul_inv_cancel_of_ne_zero {a : Base2} (ha : a ≠ 0) : a * a⁻¹ = 1 := by
  have hnorm := mul_inv_cancel₀ (norm_ne_zero ha)
  have hinv : a⁻¹ = ⟨a.norm⁻¹ * a.c0, a.norm⁻¹ * -a.c1⟩ := rfl
  rw [hinv]
  apply ext_parts
  · rw [c0_mul, c0_one]
    linear_combination hnorm - a.norm⁻¹ * norm_eq a
  · rw [c1_mul, c1_one]
    ring

instance : Field Base2 where
  exists_pair_ne := ⟨0, 1, by decide +kernel⟩
  mul_inv_cancel _ := mul_inv_cancel_of_ne_zero
  inv_zero := by decide +kernel
  nnqsmul := _
  nnqsmul_def _ _ := rfl
  qsmul := _
  qsmul_def _ _ := rfl

end Base2

end CircuitProof
