import Mathlib.AlgebraicGeometry.EllipticCurve.Affine.Point
import Mathlib.Tactic.FieldSimp
import Mathlib.Tactic.LinearCombination
import CircuitProof.Curve.Point
import CircuitProof.Proofs.Field.Power

/-!
# The group of a curve

Points on `y² = x³ + b` form a commutative group, and the additions of coordinates are the group's.
In Jacobian coordinates the formulas come to the same affine coordinates, whether these lie on a curve
or not.
-/

namespace CircuitProof

variable {K : Type} [Field K] [DecidableEq K]

/-! ## Jacobian coordinates -/

namespace Jacobian

@[simp] theorem toPoint_infinity : (infinity : Jacobian K).toPoint = .infinity := by
  simp [infinity, toPoint]

@[simp] theorem toPoint_ofPoint (p : Point K) : (ofPoint p).toPoint = p := by
  cases p with
  | infinity => exact toPoint_infinity
  | finite x y => simp [ofPoint, toPoint]

theorem toPoint_of_ne_zero {p : Jacobian K} (h : p.z ≠ 0) :
    p.toPoint = .finite (p.x / p.z ^ 2) (p.y / p.z ^ 3) := by
  rw [toPoint, if_neg h]
  field_simp

variable [NeZero (2 : K)]

theorem toPoint_double (p : Jacobian K) : p.double.toPoint = p.toPoint.add p.toPoint := by
  by_cases hz : p.z = 0
  · simp [toPoint, double, hz]
  · rw [toPoint_of_ne_zero hz, Point.add, if_pos rfl]
    by_cases hy : p.y = 0
    · simp [toPoint, double, hy]
    · have hdouble : p.double.z = 2 * (p.y * p.z) := by
        simp only [double]
        ring
      have hne : p.double.z ≠ 0 := by
        rw [hdouble]
        exact mul_ne_zero two_ne_zero (mul_ne_zero hy hz)
      rw [if_pos ⟨rfl, div_ne_zero hy (pow_ne_zero 3 hz)⟩, toPoint_of_ne_zero hne, hdouble,
        Point.onLine, Point.tangentSlope, ← two_mul (p.y / p.z ^ 3)]
      simp only [double]
      congr 1
      · field_simp
        ring
      · field_simp
        ring

/-- The formulas in Jacobian coordinates cover all cases of the sum of points. -/
theorem toPoint_add (p q : Jacobian K) : (p.add q).toPoint = p.toPoint.add q.toPoint := by
  by_cases hp : p.z = 0
  · simp [add, toPoint, hp]
  by_cases hq : q.z = 0
  · simp [add, toPoint, hp, hq]
  have hx : p.x * (q.z * q.z) = q.x * (p.z * p.z) ↔ p.x / p.z ^ 2 = q.x / q.z ^ 2 := by
    rw [div_eq_div_iff (pow_ne_zero 2 hp) (pow_ne_zero 2 hq), pow_two, pow_two]
  have hy : p.y * (q.z * (q.z * q.z)) = q.y * (p.z * (p.z * p.z)) ↔
      p.y / p.z ^ 3 = q.y / q.z ^ 3 := by
    rw [div_eq_div_iff (pow_ne_zero 3 hp) (pow_ne_zero 3 hq), pow_succ', pow_two, pow_succ', pow_two]
  rw [add, if_neg hp, if_neg hq]
  by_cases hxs : p.x * (q.z * q.z) = q.x * (p.z * p.z)
  · by_cases hys : p.y * (q.z * (q.z * q.z)) = q.y * (p.z * (p.z * p.z))
    · have hsame : p.toPoint = q.toPoint := by
        rw [toPoint_of_ne_zero hp, toPoint_of_ne_zero hq, hx.mp hxs, hy.mp hys]
      rw [if_pos hxs, if_pos hys, toPoint_double, hsame]
    · rw [if_pos hxs, if_neg hys, toPoint_infinity, toPoint_of_ne_zero hp, toPoint_of_ne_zero hq,
        Point.add, if_pos (hx.mp hxs), if_neg fun h => hys (hy.mpr h.1)]
  · obtain ⟨px, py, pz⟩ := p
    obtain ⟨qx, qy, qz⟩ := q
    have hh : qx * (pz * pz) - px * (qz * qz) ≠ 0 := sub_ne_zero.mpr (Ne.symm hxs)
    have hslope : Point.chordSlope (px / pz ^ 2) (py / pz ^ 3) (qx / qz ^ 2) (qy / qz ^ 3) =
        (qy * (pz * (pz * pz)) - py * (qz * (qz * qz))) /
          (pz * qz * (qx * (pz * pz) - px * (qz * qz))) := by
      have hdifference : qx / qz ^ 2 - px / pz ^ 2 =
          (qx * (pz * pz) - px * (qz * qz)) / (pz * qz) ^ 2 := by
        field_simp
      rw [Point.chordSlope, hdifference]
      field_simp
    rw [if_neg hxs, toPoint_of_ne_zero (mul_ne_zero (mul_ne_zero hp hq) hh), toPoint_of_ne_zero hp,
      toPoint_of_ne_zero hq, Point.add, if_neg fun h => hxs (hx.mpr h), hslope, Point.onLine]
    dsimp only at hp hq ⊢
    -- in terms of the difference `h` every denominator is a product of variables
    generalize hdef : qx * (pz * pz) - px * (qz * qz) = h at hh ⊢
    have hqx : qx = (h + px * qz ^ 2) / pz ^ 2 := by
      field_simp
      linear_combination hdef
    rw [hqx]
    congr 1
    · field_simp
      ring
    · field_simp
      ring

end Jacobian

/-! ## Points on the curve -/

def curve (b : K) : WeierstrassCurve.Affine K := ⟨0, 0, 0, 0, b⟩

/-- The curve `y² = x³ + b` has no singular point. -/
class SmoothCurve (b : K) : Prop where
  discriminant_ne_zero : (curve b).Δ ≠ 0

namespace Point

open WeierstrassCurve.Affine (Equation Nonsingular equation_iff_nonsingular_of_Δ_ne_zero)

variable {b : K}

def ofCurve : (curve b).Point → Point K
  | .zero => infinity
  | .some x y _ => finite x y

omit [DecidableEq K] in
@[simp] theorem ofCurve_zero : ofCurve (0 : (curve b).Point) = infinity := rfl

omit [DecidableEq K] in
@[simp] theorem ofCurve_some {x y : K} (h : (curve b).Nonsingular x y) :
    ofCurve (.some x y h) = finite x y := rfl

omit [DecidableEq K] in
theorem ofCurve_injective : Function.Injective (ofCurve : (curve b).Point → Point K) := by
  intro P Q h
  cases P with
  | zero =>
    cases Q with
    | zero => rfl
    | some => cases h
  | some x y hP =>
    cases Q with
    | zero => cases h
    | some x' y' hQ =>
      cases h
      rfl

omit [DecidableEq K] in
theorem equation_iff {x y : K} : (curve b).Equation x y ↔ y * y = x * x * x + b := by
  rw [WeierstrassCurve.Affine.equation_iff]
  simp only [curve, zero_mul, add_zero, pow_two, pow_three, mul_assoc]

/-- The coordinates on a smooth curve are those of its points. -/
theorem onCurve_iff [SmoothCurve b] {p : Point K} :
    p.onCurve b = true ↔ ∃ P : (curve b).Point, ofCurve P = p := by
  constructor
  · intro h
    cases p with
    | infinity => exact ⟨0, rfl⟩
    | finite x y =>
      have hequation : (curve b).Equation x y := equation_iff.mpr (of_decide_eq_true h)
      exact ⟨.some x y ((equation_iff_nonsingular_of_Δ_ne_zero
        SmoothCurve.discriminant_ne_zero).mp hequation), rfl⟩
  · rintro ⟨P, rfl⟩
    cases P with
    | zero => rfl
    | some x y h => exact decide_eq_true (equation_iff.mp h.1)

omit [DecidableEq K] in
theorem negY_eq (x y : K) : (curve b).negY x y = -y := by
  simp [WeierstrassCurve.Affine.negY, curve]

omit [DecidableEq K] in
theorem ofCurve_neg (P : (curve b).Point) : ofCurve (-P) = (ofCurve P).neg := by
  cases P with
  | zero => rfl
  | some x y h =>
    rw [WeierstrassCurve.Affine.Point.neg_some, ofCurve_some, ofCurve_some, neg, negY_eq]

theorem ofCurve_add_some [NeZero (2 : K)] {x₁ y₁ x₂ y₂ : K} (h₁ : (curve b).Nonsingular x₁ y₁)
    (h₂ : (curve b).Nonsingular x₂ y₂) :
    ofCurve (.some x₁ y₁ h₁ + .some x₂ y₂ h₂) = (finite x₁ y₁).add (finite x₂ y₂) := by
  have hline : ∀ m : K, finite ((curve b).addX x₁ x₂ m) ((curve b).addY x₁ x₂ y₁ m) =
      onLine m x₁ y₁ x₂ := by
    intro m
    simp only [WeierstrassCurve.Affine.addX, WeierstrassCurve.Affine.addY,
      WeierstrassCurve.Affine.negAddY, negY_eq, onLine]
    simp only [curve, zero_mul, add_zero, sub_zero, pow_two]
    congr 1
    ring
  by_cases hx : x₁ = x₂
  · by_cases hy : y₁ = y₂ ∧ y₁ ≠ 0
    · have hne : y₁ ≠ (curve b).negY x₂ y₂ := by
        rw [negY_eq, ← hy.1]
        intro h
        have hdouble : 2 * y₁ = 0 := by linear_combination h
        exact hy.2 ((mul_eq_zero.mp hdouble).resolve_left two_ne_zero)
      have hslope : (curve b).slope x₁ x₂ y₁ y₂ = tangentSlope x₁ y₁ := by
        rw [WeierstrassCurve.Affine.slope_of_Y_ne hx hne, negY_eq, tangentSlope, div_eq_mul_inv,
          sub_neg_eq_add]
        simp only [curve, mul_zero, zero_mul, add_zero, sub_zero]
        congr 1
        ring
      rw [WeierstrassCurve.Affine.Point.add_of_Y_ne hne, ofCurve_some, hline, hslope, add, if_pos hx,
        if_pos hy, hx]
    · have heq : y₁ = (curve b).negY x₂ y₂ := by
        rcases WeierstrassCurve.Affine.Y_eq_of_X_eq h₁.1 h₂.1 hx with hsame | hneg
        · have hzero : y₁ = 0 := by
            by_contra hne
            exact hy ⟨hsame, hne⟩
          rw [negY_eq, ← hsame, hzero, neg_zero]
        · exact hneg
      rw [WeierstrassCurve.Affine.Point.add_of_Y_eq hx heq, add, if_pos hx, if_neg hy]
      rfl
  · have hslope : (curve b).slope x₁ x₂ y₁ y₂ = chordSlope x₁ y₁ x₂ y₂ := by
      rw [WeierstrassCurve.Affine.slope_of_X_ne hx, chordSlope, ← div_eq_mul_inv,
        ← neg_sub y₂, ← neg_sub x₂, neg_div_neg_eq]
    rw [WeierstrassCurve.Affine.Point.add_of_X_ne hx, ofCurve_some, hline, hslope, add, if_neg hx]

/-- The chord and tangent formulas are those of the group law. -/
theorem ofCurve_add [NeZero (2 : K)] (P Q : (curve b).Point) :
    ofCurve (P + Q) = (ofCurve P).add (ofCurve Q) := by
  cases P with
  | zero => exact (congrArg ofCurve (zero_add Q)).trans (infinity_add _).symm
  | some x y hP =>
    cases Q with
    | zero => exact (congrArg ofCurve (add_zero _)).trans (add_infinity _).symm
    | some x' y' hQ => exact ofCurve_add_some hP hQ

end Point

/-! ## Jacobian coordinates of points of a curve -/

namespace Jacobian

variable {b : K}

/-- The Jacobian coordinates are those of a point of the curve. -/
def Represents (p : Jacobian K) (P : (curve b).Point) : Prop := p.toPoint = Point.ofCurve P

namespace Represents

theorem infinity : (infinity : Jacobian K).Represents (0 : (curve b).Point) := toPoint_infinity

theorem ofPoint (P : (curve b).Point) : (ofPoint (Point.ofCurve P)).Represents P :=
  toPoint_ofPoint _

variable [NeZero (2 : K)] {p q : Jacobian K} {P Q : (curve b).Point}

theorem double (hp : p.Represents P) : p.double.Represents (P + P) := by
  rw [Represents, toPoint_double, hp, Point.ofCurve_add]

theorem add (hp : p.Represents P) (hq : q.Represents Q) : (p.add q).Represents (P + Q) := by
  rw [Represents, toPoint_add, hp, hq, Point.ofCurve_add]

end Represents

end Jacobian

/-! ## Multiples -/

namespace Point

variable [NeZero (2 : K)] {b : K}

/-- Points of the curve as digits: what has been added up is doubled before each further point. -/
theorem ofDigits_map (digits : List (curve b).Point) :
    ofDigits (digits.map ofCurve) = ofCurve (digits.foldl (fun sum P => sum + sum + P) 0) := by
  have hfold : ∀ {start : Jacobian K} {P : (curve b).Point}, start.Represents P →
      ((digits.map ofCurve).foldl (fun sum p => sum.double.add (.ofPoint p)) start).Represents
        (digits.foldl (fun sum P => sum + sum + P) P) := by
    induction digits with
    | nil => exact fun h => h
    | cons digit digits ih => exact fun h => ih (h.double.add (.ofPoint digit))
  exact hfold .infinity

/-- Repeated doubling by the binary digits of a number adds a point to itself that many times. -/
theorem foldl_binaryDigits {A : Type} [AddCommGroup A] (n : Nat) (P : A) :
    (binaryDigits n).foldl (fun sum digit => sum + sum + if digit then P else 0) 0 = n • P := by
  have hfold : ∀ (digits : List Bool) (sum : A),
      Multiplicative.ofAdd (digits.foldl (fun sum digit => sum + sum + if digit then P else 0) sum) =
        digits.foldl (fun acc digit =>
          if digit then acc * acc * Multiplicative.ofAdd P else acc * acc)
          (Multiplicative.ofAdd sum) := by
    intro digits
    induction digits with
    | nil => exact fun _ => rfl
    | cons digit digits ih =>
      intro sum
      rw [List.foldl_cons, List.foldl_cons, ih]
      cases digit
      · simp
      · simp
  apply Multiplicative.ofAdd.injective
  rw [hfold, ofAdd_nsmul, ← power_eq_pow]
  rfl

/-- Doubling and adding along the binary digits gives the multiple. -/
theorem multiple_ofCurve (n : Nat) (P : (curve b).Point) :
    multiple n (ofCurve P) = ofCurve (n • P) := by
  cases P with
  | zero => exact (congrArg ofCurve (nsmul_zero (M := (curve b).Point) n)).symm
  | some x y h =>
    have hdigits : (binaryDigits n).map (fun digit => if digit then finite x y else infinity) =
        ((binaryDigits n).map fun digit =>
          if digit then (.some x y h : (curve b).Point) else 0).map ofCurve := by
      rw [List.map_map]
      refine List.map_congr_left fun digit _ => ?_
      cases digit <;> rfl
    rw [← foldl_binaryDigits, ofCurve_some, multiple, hdigits, ofDigits_map, List.foldl_map]

end Point

end CircuitProof
