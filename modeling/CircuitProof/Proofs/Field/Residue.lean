import Mathlib.Data.ZMod.Basic
import Mathlib.SetTheory.Cardinal.Finite
import Mathlib.Tactic.LinearCombination
import Mathlib.Tactic.Ring
import CircuitProof.Field.Residue

/-!
# Residues modulo a prime form a field

The operations on residues are those of the integers modulo `p`. The factors that Euclid's algorithm
keeps give the inverse, because each of its rounds leaves them tied to the two remainders.
-/

namespace CircuitProof

namespace Residue

variable {p : Nat}

/-- A residue is a number below the modulus. -/
def equivFin : Residue p ≃ Fin p where
  toFun a := ⟨a.val, a.lt⟩
  invFun i := ⟨i.val, i.isLt⟩
  left_inv _ := rfl
  right_inv _ := rfl

instance : Finite (Residue p) := .of_equiv _ equivFin.symm

theorem natCard_eq : Nat.card (Residue p) = p := by rw [Nat.card_congr equivFin, Nat.card_fin]

/-- The class as an element of the ring of integers modulo `p`. -/
def toZMod (a : Residue p) : ZMod p := (a.val : ZMod p)

/-- Equations between residues may be checked in the ring of integers modulo `p`. -/
theorem toZMod_injective : Function.Injective (toZMod : Residue p → ZMod p) := by
  intro a b h
  apply ext_val
  have hmod : a.val % p = b.val % p := (ZMod.natCast_eq_natCast_iff' a.val b.val p).mp h
  rwa [Nat.mod_eq_of_lt a.lt, Nat.mod_eq_of_lt b.lt] at hmod

@[simp] theorem toZMod_add (a b : Residue p) : (a + b).toZMod = a.toZMod + b.toZMod := by
  simp [toZMod]

variable [Modulus p]

@[simp] theorem toZMod_ofNat (n : Nat) : (ofNat n : Residue p).toZMod = n := by
  simp [toZMod]

@[simp] theorem toZMod_zero : (0 : Residue p).toZMod = 0 := by
  simp [toZMod]

@[simp] theorem toZMod_one : (1 : Residue p).toZMod = 1 := by
  rw [show (1 : Residue p) = ofNat 1 from rfl, toZMod_ofNat, Nat.cast_one]

@[simp] theorem toZMod_mul (a b : Residue p) : (a * b).toZMod = a.toZMod * b.toZMod := by
  simp [toZMod]

@[simp] theorem toZMod_neg (a : Residue p) : (-a).toZMod = -a.toZMod := by
  simp [toZMod, Nat.cast_sub (Nat.le_of_lt a.lt)]

omit [Modulus p] in
@[simp] theorem toZMod_sub (a b : Residue p) : (a - b).toZMod = a.toZMod - b.toZMod := by
  simp [toZMod, Nat.cast_sub (Nat.le_of_lt b.lt), sub_eq_add_neg]

instance : CommRing (Residue p) where
  add_assoc a b c := toZMod_injective (by simp only [toZMod_add, add_assoc])
  zero_add a := toZMod_injective (by simp only [toZMod_add, toZMod_zero, zero_add])
  add_zero a := toZMod_injective (by simp only [toZMod_add, toZMod_zero, add_zero])
  add_comm a b := toZMod_injective (by simp only [toZMod_add, add_comm])
  neg_add_cancel a := toZMod_injective (by
    simp only [toZMod_add, toZMod_neg, toZMod_zero, neg_add_cancel])
  sub_eq_add_neg a b := toZMod_injective (by
    simp only [toZMod_add, toZMod_neg, toZMod_sub, sub_eq_add_neg])
  mul_assoc a b c := toZMod_injective (by simp only [toZMod_mul, mul_assoc])
  mul_comm a b := toZMod_injective (by simp only [toZMod_mul, mul_comm])
  one_mul a := toZMod_injective (by simp only [toZMod_mul, toZMod_one, one_mul])
  mul_one a := toZMod_injective (by simp only [toZMod_mul, toZMod_one, mul_one])
  zero_mul a := toZMod_injective (by simp only [toZMod_mul, toZMod_zero, zero_mul])
  mul_zero a := toZMod_injective (by simp only [toZMod_mul, toZMod_zero, mul_zero])
  left_distrib a b c := toZMod_injective (by simp only [toZMod_mul, toZMod_add, mul_add])
  right_distrib a b c := toZMod_injective (by simp only [toZMod_mul, toZMod_add, add_mul])
  natCast_zero := rfl
  natCast_succ n := toZMod_injective (by
    change (ofNat (n + 1) : Residue p).toZMod = (ofNat n + 1 : Residue p).toZMod
    rw [toZMod_add, toZMod_ofNat, toZMod_ofNat, toZMod_one, Nat.cast_succ])
  nsmul := nsmulRec
  zsmul := zsmulRec

/-- Every residue is a natural number of ones. -/
theorem exists_natCast (a : Residue p) : ∃ n : Nat, (n : Residue p) = a :=
  ⟨a.val, toZMod_injective (toZMod_ofNat a.val)⟩

/-! ## Inversion -/

/-- A number with the sign that Euclid's algorithm keeps beside it. -/
def signed (negative : Bool) (n : ZMod p) : ZMod p := if negative then -n else n

omit [Modulus p] in
theorem signed_not (negative : Bool) (n : ZMod p) : signed (!negative) n = -signed negative n := by
  cases negative <;> simp [signed]

omit [Modulus p] in
theorem signed_add_mul (negative : Bool) (s t q : ZMod p) :
    signed negative (s + q * t) = signed negative s + q * signed negative t := by
  cases negative
  · rfl
  · simp only [signed, ↓reduceIte]
    ring

omit [Modulus p] in
/-- While the factors of the two remainders are tied to them, with opposite signs, the algorithm
ends with a factor of their greatest common divisor. -/
theorem euclid_spec (x : ZMod p) {fuel a b s t : Nat} {negative : Bool} (hle : b ≤ a) (ha : 0 < a)
    (hfuel : a * b < 2 ^ fuel) (hs : signed negative (s : ZMod p) * x = a)
    (ht : signed (!negative) (t : ZMod p) * x = b) :
    signed (euclid fuel a b s t negative).2 ((euclid fuel a b s t negative).1 : ZMod p) * x =
      Nat.gcd a b := by
  induction fuel generalizing a b s t negative with
  | zero =>
    have hzero : b = 0 := by
      rcases Nat.mul_eq_zero.mp (Nat.lt_one_iff.mp hfuel) with h | h
      · omega
      · exact h
    rw [euclid, hzero, Nat.gcd_zero_right]
    exact hs
  | succ fuel ih =>
    by_cases hb : b = 0
    · rw [euclid, if_pos hb, hb, Nat.gcd_zero_right]
      exact hs
    · have hpos : 0 < b := Nat.pos_of_ne_zero hb
      have hlt : a % b < b := Nat.mod_lt a hpos
      have hhalf : 2 * (a % b) ≤ a := by
        have hquotient : 1 ≤ a / b := Nat.div_pos hle hpos
        have hsplit : b * (a / b) + a % b = a := Nat.div_add_mod a b
        have hmul : b * 1 ≤ b * (a / b) := Nat.mul_le_mul_left b hquotient
        omega
      have hsmaller : b * (a % b) < 2 ^ fuel := by
        have hbound : b * (2 * (a % b)) ≤ b * a := Nat.mul_le_mul_left b hhalf
        rw [Nat.pow_succ] at hfuel
        rw [Nat.mul_comm a b] at hfuel
        rw [Nat.mul_left_comm] at hbound
        omega
      have hrest : signed (!!negative) ((s + a / b * t : Nat) : ZMod p) * x = (a % b : Nat) := by
        have hdivision : (b : ZMod p) * (a / b : Nat) + (a % b : Nat) = a := by
          exact_mod_cast congrArg (Nat.cast : Nat → ZMod p) (Nat.div_add_mod a b)
        rw [signed_not] at ht
        rw [Bool.not_not, Nat.cast_add, Nat.cast_mul, signed_add_mul]
        linear_combination hs - (a / b : Nat) * ht - hdivision
      rw [euclid, if_neg hb, ih (Nat.le_of_lt hlt) hpos hsmaller ht hrest, Nat.gcd_comm b,
        ← Nat.gcd_rec, Nat.gcd_comm]

/-- Euclid's algorithm keeps its factor up to a sign, and ends at the greatest common divisor. -/
theorem toZMod_inv_mul_self (a : Residue p) :
    (a⁻¹).toZMod * a.toZMod = Nat.gcd p a.val := by
  have hpos : 0 < p := Modulus.pos
  have hfuel : p * a.val < 2 ^ (2 * (p.log2 + 1)) := by
    have hlog : p < 2 ^ (p.log2 + 1) := Nat.lt_log2_self
    rw [Nat.two_mul, Nat.pow_add]
    exact Nat.mul_lt_mul'' hlog (Nat.lt_trans a.lt hlog)
  rcases hresult : euclid (2 * (p.log2 + 1)) p a.val 0 1 true with ⟨factor, negative⟩
  have hspec : signed negative (factor : ZMod p) * a.toZMod = Nat.gcd p a.val := by
    have hstart := euclid_spec a.toZMod (Nat.le_of_lt a.lt) hpos hfuel
      (s := 0) (t := 1) (by simp [signed] : signed true ((0 : Nat) : ZMod p) * a.toZMod = (p : Nat))
      (by simp [signed, toZMod])
    rwa [hresult] at hstart
  have hinverse : a⁻¹ = if negative then -ofNat factor else ofNat factor := by
    change Residue.inv a = _
    rw [Residue.inv, hresult]
  rw [← hspec, hinverse]
  cases negative <;> simp [signed]

theorem inv_zero_eq : (0 : Residue p)⁻¹ = 0 := by
  have hresult : euclid (2 * (p.log2 + 1)) p (0 : Residue p).val 0 1 true = (0, true) := by
    rw [Nat.mul_succ, euclid, if_pos val_zero]
  change Residue.inv 0 = 0
  rw [Residue.inv, hresult]
  exact neg_zero

/-- Modulo a prime every residue but zero has an inverse. -/
theorem mul_inv_cancel_of_ne_zero [Fact p.Prime] {a : Residue p} (ha : a ≠ 0) : a * a⁻¹ = 1 := by
  have hpos : 0 < a.val := by
    apply Nat.pos_of_ne_zero
    intro hzero
    exact ha (ext_val (by rw [hzero, val_zero]))
  have hcoprime : Nat.gcd p a.val = 1 :=
    Nat.coprime_of_lt_prime (Nat.ne_of_gt hpos) a.lt Fact.out
  apply toZMod_injective
  rw [toZMod_mul, mul_comm, toZMod_inv_mul_self, hcoprime, Nat.cast_one, toZMod_one]

instance [Fact p.Prime] : Field (Residue p) where
  exists_pair_ne := ⟨0, 1, fun h => by
    have hcast : (0 : ZMod p) = 1 := by rw [← toZMod_zero, h, toZMod_one]
    exact zero_ne_one hcast⟩
  mul_inv_cancel a ha := mul_inv_cancel_of_ne_zero ha
  inv_zero := inv_zero_eq
  nnqsmul := _
  nnqsmul_def := fun _ _ => rfl
  qsmul := _
  qsmul_def := fun _ _ => rfl

end Residue

end CircuitProof
