import Mathlib.Algebra.Field.GeomSum
import Mathlib.Algebra.Polynomial.BigOperators
import Mathlib.RingTheory.RootsOfUnity.PrimitiveRoots
import CircuitProof.Polynomial.Domain
import CircuitProof.Proofs.Field.Power
import CircuitProof.Proofs.Linear.Evaluation

/-!
# Evaluating and interpolating on a domain

The transform of a coefficient list lists the values of its polynomial at the powers of the root,
and the transform with the inverse root, divided by the size, takes the values back to coefficients,
because the powers of a root of unity sum to zero.
-/

namespace CircuitProof

open Polynomial Finset

/-- The stated roots have the orders that they should have, and the shift lies outside of every
domain. -/
class LawfulRadixTwo (F : Type) [Field F] [RadixTwo F] : Prop where
  isPrimitiveRoot : ∀ k ≤ RadixTwo.maxLog F, IsPrimitiveRoot (RadixTwo.root k : F) (2 ^ k)
  shift_ne_zero : (RadixTwo.shift : F) ≠ 0
  shift_pow_ne_one : ∀ k ≤ RadixTwo.maxLog F, (RadixTwo.shift : F) ^ 2 ^ k ≠ 1

variable {F : Type} [Field F]

/-! ## Polynomials of coefficient lists -/

noncomputable def ofCoefficients : List F → F[X]
  | [] => 0
  | c :: cs => C c + X * ofCoefficients cs

theorem coeff_ofCoefficients (cs : List F) (i : Nat) :
    (ofCoefficients cs).coeff i = valueAt cs i := by
  induction cs generalizing i with
  | nil => simp [ofCoefficients, valueAt]
  | cons c cs ih =>
    cases i with
    | zero => simp [ofCoefficients, valueAt]
    | succ i => simp [ofCoefficients, ih, valueAt]

theorem degree_ofCoefficients_lt (cs : List F) : (ofCoefficients cs).degree < cs.length := by
  rw [degree_lt_iff_coeff_zero]
  intro i hi
  rw [coeff_ofCoefficients, valueAt, List.getElem?_eq_none hi, Option.getD_none]

theorem eval_ofCoefficients (cs : List F) (x : F) :
    (ofCoefficients cs).eval x = ∑ i ∈ range cs.length, valueAt cs i * x ^ i := by
  induction cs with
  | nil => simp [ofCoefficients]
  | cons c cs ih =>
    have hhead : valueAt (c :: cs) 0 = c := rfl
    have htail : ∀ i, valueAt (c :: cs) (i + 1) = valueAt cs i := fun i => rfl
    rw [ofCoefficients, eval_add, eval_mul, eval_C, eval_X, ih, List.length_cons, sum_range_succ',
      hhead, pow_zero, mul_one, add_comm, mul_sum]
    congr 1
    refine sum_congr rfl fun i _ => ?_
    rw [htail, pow_succ]
    ring

/-- Moving a polynomial by a factor. -/
theorem eval_distributePowers (cs : List F) (g x : F) :
    (ofCoefficients (distributePowers cs g)).eval x = (ofCoefficients cs).eval (g * x) := by
  have hgeneral : ∀ start : F, (ofCoefficients
      (List.zipWith (· * ·) cs (powersFrom start g cs.length))).eval x =
        start * (ofCoefficients cs).eval (g * x) := by
    induction cs with
    | nil => simp [ofCoefficients]
    | cons c cs ih =>
      intro start
      simp only [List.length_cons, powersFrom, List.zipWith_cons_cons, ofCoefficients, eval_add,
        eval_mul, eval_C, eval_X, ih]
      ring
  rw [distributePowers, powers, hgeneral, one_mul]

theorem powersFrom_eq_map (start x : F) (n : Nat) :
    powersFrom start x n = (List.range n).map fun i => start * x ^ i := by
  induction n generalizing start with
  | zero => rfl
  | succ n ih =>
    rw [powersFrom, ih, List.range_succ_eq_map, List.map_cons, List.map_map, pow_zero, mul_one]
    congr 1
    refine List.map_congr_left fun i _ => ?_
    rw [Function.comp, pow_succ']
    ring

theorem powers_eq_map (x : F) (n : Nat) : powers x n = (List.range n).map fun i => x ^ i := by
  simp [powers, powersFrom_eq_map]

/-! ## The transform -/

/-- A polynomial is made of its even part and its odd part. -/
theorem eval_evens_odds (cs : List F) (x : F) :
    (ofCoefficients cs).eval x =
      (ofCoefficients (evens cs)).eval (x * x) + x * (ofCoefficients (odds cs)).eval (x * x) := by
  induction cs using evens.induct with
  | case1 => simp [evens, odds, ofCoefficients]
  | case2 c => simp [evens, odds, ofCoefficients]
  | case3 c d rest ih =>
    simp only [evens, odds, ofCoefficients, eval_add, eval_mul, eval_C, eval_X, ih]
    ring

/-- Half way round, a root of unity of even order is minus one. -/
theorem pow_half_eq_neg_one {w : F} {k : Nat} (hw : IsPrimitiveRoot w (2 ^ (k + 1))) :
    w ^ 2 ^ k = -1 := by
  have horder : IsPrimitiveRoot (w ^ 2 ^ k) 2 :=
    hw.pow (Nat.two_pow_pos (k + 1)) (pow_succ 2 k)
  exact horder.eq_neg_one_of_two_right

/-- The transform lists the values at the powers of the root. -/
theorem fft_eq_map_eval {w : F} {k : Nat} {cs : List F} (hw : IsPrimitiveRoot w (2 ^ k))
    (hlength : cs.length = 2 ^ k) :
    fft w k cs = (List.range (2 ^ k)).map fun i => (ofCoefficients cs).eval (w ^ i) := by
  induction k generalizing w cs with
  | zero =>
    obtain ⟨c, rfl⟩ := List.length_eq_one_iff.mp hlength
    simp [fft, ofCoefficients]
  | succ k ih =>
    have hw' : IsPrimitiveRoot (w * w) (2 ^ k) := by
      rw [← pow_two]
      exact hw.pow (Nat.two_pow_pos (k + 1)) (pow_succ' 2 k)
    have heven : (evens cs).length = 2 ^ k := by
      rw [length_evens, hlength, pow_succ]
      omega
    have hodd : (odds cs).length = 2 ^ k := by
      rw [length_odds, hlength, pow_succ]
      omega
    have hhalf : ∀ i, w ^ (2 ^ k + i) = -w ^ i := by
      intro i
      rw [pow_add, pow_half_eq_neg_one hw, neg_one_mul]
    rw [fft, ih hw' heven, ih hw' hodd, Nat.pow_eq, powers_eq_map]
    simp only [List.zipWith_map, List.zipWith_self]
    rw [pow_succ, Nat.mul_two, List.range_add, List.map_append, List.map_map]
    congr 1
    · refine List.map_congr_left fun i _ => ?_
      rw [eval_evens_odds cs, ← mul_pow]
    · refine List.map_congr_left fun i _ => ?_
      rw [Function.comp, eval_evens_odds cs, hhalf, neg_mul_neg, ← mul_pow, neg_mul,
        sub_eq_add_neg]

/-! ## The inverse transform -/

/-- The powers of one root of unity, divided by those of another, sum to zero unless both are the
same. -/
theorem sum_pow_mul_inv_pow {w : F} {n i j : Nat} (hw : IsPrimitiveRoot w n) (hi : i < n)
    (hj : j < n) :
    ∑ m ∈ range n, (w ^ i * (w⁻¹) ^ j) ^ m = if i = j then (n : F) else 0 := by
  have hne : w ≠ 0 := hw.ne_zero (by omega)
  by_cases hij : i = j
  · subst hij
    have hone : w ^ i * (w⁻¹) ^ i = 1 := by rw [← mul_pow, mul_inv_cancel₀ hne, one_pow]
    simp only [hone, one_pow, sum_const, card_range, nsmul_eq_mul, mul_one, ↓reduceIte]
  · have hratio : w ^ i * (w⁻¹) ^ j ≠ 1 := by
      intro hone
      rw [inv_pow, ← div_eq_mul_inv, div_eq_one_iff_eq (pow_ne_zero j hne)] at hone
      exact hij (hw.pow_inj hi hj hone)
    have hpow : (w ^ i * (w⁻¹) ^ j) ^ n = 1 := by
      rw [mul_pow, ← pow_mul, ← pow_mul, mul_comm i, mul_comm j, pow_mul, pow_mul, hw.pow_eq_one,
        hw.inv.pow_eq_one, one_pow, one_pow, one_mul]
    rw [if_neg hij, geom_sum_eq hratio, hpow, sub_self, zero_div]

namespace Domain

theorem size_eq (d : Domain) : d.size = 2 ^ d.log := rfl

theorem size_pos (d : Domain) : 0 < d.size := Nat.two_pow_pos d.log

theorem vanishing_eq (d : Domain) (x : F) : d.vanishing x = x ^ d.size - 1 := by
  rw [vanishing, power_eq_pow]

variable [RadixTwo F]

theorem isPrimitiveRoot [LawfulRadixTwo F] {d : Domain} (hd : d.log ≤ RadixTwo.maxLog F) :
    IsPrimitiveRoot (d.root F) d.size := LawfulRadixTwo.isPrimitiveRoot d.log hd

theorem size_ne_zero {d : Domain} (hw : IsPrimitiveRoot (d.root F) d.size) :
    (d.size : F) ≠ 0 := by
  have hpos : NeZero d.size := ⟨d.size_pos.ne'⟩
  exact (hw.neZero').out

theorem points_eq_map (d : Domain) :
    d.points F = (List.range d.size).map fun i => d.root F ^ i := powers_eq_map _ _

omit [Field F] in
/-- A domain for at least `n` points has them, and its root is one that the field states. -/
theorem log_le_of_forSize? {n : Nat} {d : Domain} (h : forSize? F n = some d) :
    d.log ≤ RadixTwo.maxLog F ∧ n ≤ d.size := by
  rw [forSize?] at h
  split at h
  · next hle =>
    obtain rfl := Option.some.inj h
    refine ⟨hle, ?_⟩
    rw [size_eq, logFor]
    split
    · omega
    · have hlt : n - 1 < 2 ^ ((n - 1).log2 + 1) := Nat.lt_log2_self
      dsimp only
      omega
  · cases h

/-- The fast transform evaluates the polynomial at every point of the domain. -/
theorem evaluate_eq_map {d : Domain} {cs : List F} (hw : IsPrimitiveRoot (d.root F) d.size)
    (hlength : cs.length = d.size) :
    d.evaluate cs = (List.range d.size).map fun i => (ofCoefficients cs).eval (d.root F ^ i) :=
  fft_eq_map_eval hw hlength

/-- Going back is the same transform at the inverse root, divided by the size. -/
theorem interpolate_eq_map {d : Domain} {values : List F}
    (hw : IsPrimitiveRoot (d.root F) d.size) (hlength : values.length = d.size) :
    d.interpolate values = (List.range d.size).map fun m =>
      (ofCoefficients values).eval ((d.root F)⁻¹ ^ m) * (d.size : F)⁻¹ := by
  rw [interpolate, fft_eq_map_eval hw.inv hlength, List.map_map]
  rfl

theorem length_interpolate {d : Domain} {values : List F}
    (hw : IsPrimitiveRoot (d.root F) d.size) (hlength : values.length = d.size) :
    (d.interpolate values).length = d.size := by
  rw [interpolate_eq_map hw hlength, List.length_map, List.length_range]

theorem valueAt_interpolate {d : Domain} {values : List F}
    (hw : IsPrimitiveRoot (d.root F) d.size) (hlength : values.length = d.size) {m : Nat}
    (hm : m < d.size) :
    valueAt (d.interpolate values) m =
      (∑ j ∈ range d.size, valueAt values j * ((d.root F)⁻¹ ^ m) ^ j) * (d.size : F)⁻¹ := by
  rw [interpolate_eq_map hw hlength, valueAt, List.getElem?_map, List.getElem?_range hm,
    Option.map_some, Option.getD_some, eval_ofCoefficients, hlength]

/-- The interpolating polynomial at any point, as a sum over the values. -/
theorem eval_interpolate_eq_sum {d : Domain} {values : List F}
    (hw : IsPrimitiveRoot (d.root F) d.size) (hlength : values.length = d.size) (x : F) :
    (ofCoefficients (d.interpolate values)).eval x =
      ∑ j ∈ range d.size, valueAt values j *
        ((∑ m ∈ range d.size, (x * (d.root F)⁻¹ ^ j) ^ m) * (d.size : F)⁻¹) := by
  rw [eval_ofCoefficients, length_interpolate hw hlength]
  calc ∑ m ∈ range d.size, valueAt (d.interpolate values) m * x ^ m
      = ∑ m ∈ range d.size, ∑ j ∈ range d.size,
          valueAt values j * ((x * (d.root F)⁻¹ ^ j) ^ m * (d.size : F)⁻¹) := by
        refine sum_congr rfl fun m hm => ?_
        rw [valueAt_interpolate hw hlength (mem_range.mp hm), sum_mul, sum_mul]
        refine sum_congr rfl fun j _ => ?_
        rw [mul_pow, ← pow_mul, ← pow_mul, mul_comm m j]
        ring
    _ = ∑ j ∈ range d.size, valueAt values j *
          ((∑ m ∈ range d.size, (x * (d.root F)⁻¹ ^ j) ^ m) * (d.size : F)⁻¹) := by
        rw [sum_comm]
        refine sum_congr rfl fun j _ => ?_
        rw [sum_mul, mul_sum]

/-- The interpolating polynomial takes the given values. -/
theorem eval_interpolate {d : Domain} {values : List F}
    (hw : IsPrimitiveRoot (d.root F) d.size) (hlength : values.length = d.size) {i : Nat}
    (hi : i < d.size) :
    (ofCoefficients (d.interpolate values)).eval (d.root F ^ i) = valueAt values i := by
  rw [eval_interpolate_eq_sum hw hlength, sum_eq_single i]
  · rw [sum_pow_mul_inv_pow hw hi hi, if_pos rfl, mul_inv_cancel₀ (size_ne_zero hw), mul_one]
  · intro j hj hne
    rw [sum_pow_mul_inv_pow hw hi (mem_range.mp hj), if_neg (Ne.symm hne), zero_mul, mul_zero]
  · intro hout
    exact absurd (mem_range.mpr hi) hout

end Domain

end CircuitProof
