import Mathlib.FieldTheory.Finite.Basic
import CircuitProof.Bn254.Group
import CircuitProof.Proofs.Bn254.Group

/-!
# Points are known by their first coordinates

An element other than zero and its negative are never the same, and exactly one of the two is the
larger. So a point of the curve is found again from its first coordinate and from which of the two
possible second coordinates it has.
-/

namespace CircuitProof

/-! ## Square roots of squares

What is offered as a root squares to its argument, and every square has a root that is found: in the
base field because the modulus is three modulo four, in the extension by roots of the norm and of half
the sum or the difference of the real part and the norm's root.
-/

/-- The base field has as many elements as its modulus says. -/
theorem pow_baseModulus (a : Base) : a ^ baseModulus = a := by
  have : Fintype Base := Fintype.ofFinite Base
  have hcard : Fintype.card Base = baseModulus := by
    rw [← Nat.card_eq_fintype_card, Residue.natCard_eq]
  calc a ^ baseModulus = a ^ Fintype.card Base := by rw [hcard]
    _ = a := FiniteField.pow_card a

namespace Base

variable {a root : Base}

theorem mul_self_of_sqrt? (h : sqrt? a = some root) : root * root = a := by
  rw [sqrt?] at h
  split at h
  · next hroot =>
    cases h
    exact hroot
  · cases h

/-- The power that is offered for `y²` squares to `y ^ (q + 1)`, which is `y²`. -/
theorem exists_sqrt? (y : Base) : ∃ root, sqrt? (y * y) = some root := by
  have hexponent : (baseModulus + 1) / 4 * 4 = baseModulus + 1 := by decide
  have hroot : power (y * y) ((baseModulus + 1) / 4) * power (y * y) ((baseModulus + 1) / 4) =
      y * y := by
    rw [power_eq_pow, ← pow_two, ← pow_two, ← pow_mul, ← pow_mul]
    calc y ^ (2 * ((baseModulus + 1) / 4 * 2))
        = y ^ (baseModulus + 1) := by rw [← hexponent]; congr 1
      _ = y ^ 2 := by rw [pow_succ, pow_baseModulus, pow_two]
  exact ⟨_, if_pos hroot⟩

theorem half_add_half (a : Base) : a * half + a * half = a := by
  have hone : half + half = 1 := by decide +kernel
  rw [← mul_add, hone, mul_one]

end Base

namespace Base2

variable {a root : Base2}

/-- What is offered is the root that is looked for, once it has been checked. -/
theorem sqrt?_eq_some_iff : sqrt? a = some root ↔
    (if a.c1 = 0 then sqrtBase? a.c0 else sqrtMixed? a) = some root ∧ root * root = a := by
  have hbind : sqrt? a = (if a.c1 = 0 then sqrtBase? a.c0 else sqrtMixed? a).bind fun root =>
      if root * root = a then some root else none := by
    rw [sqrt?]
    split <;> rfl
  rw [hbind, Option.bind_eq_some_iff]
  constructor
  · rintro ⟨candidate, hcandidate, hroot⟩
    split at hroot
    · next hsquare =>
      cases hroot
      exact ⟨hcandidate, hsquare⟩
    · cases hroot
  · rintro ⟨hcandidate, hsquare⟩
    exact ⟨root, hcandidate, if_pos hsquare⟩

/-! ### Elements of the base field -/

theorem mul_self_of_sqrtBase? {c : Base} (h : sqrtBase? c = some root) : root * root = ⟨c, 0⟩ := by
  rw [sqrtBase?] at h
  split at h
  · next x hx =>
    cases h
    apply ext_parts <;> simp [Base.mul_self_of_sqrt? hx]
  · next hnone =>
    obtain ⟨x, hx, rfl⟩ := Option.map_eq_some_iff.mp h
    apply ext_parts <;> simp [Base.mul_self_of_sqrt? hx]

/-- An element of the base field has a root if it is a square there or its negative is one. -/
theorem exists_sqrtBase? {c : Base} (h : IsSquare c ∨ IsSquare (-c)) :
    ∃ root, sqrtBase? c = some root := by
  rw [sqrtBase?]
  cases hreal : Base.sqrt? c with
  | some root => exact ⟨_, rfl⟩
  | none =>
    rcases h with ⟨x, rfl⟩ | ⟨x, hx⟩
    · obtain ⟨root, hroot⟩ := Base.exists_sqrt? x
      rw [hreal] at hroot
      cases hroot
    · obtain ⟨root, hroot⟩ := Base.exists_sqrt? x
      rw [hx, hroot]
      exact ⟨_, rfl⟩

/-! ### Elements with a `u` part -/

/-- Half the sum of the real part and a root of the norm is the square of a root's real part. -/
theorem mul_self_mixed {s x : Base} (hc1 : a.c1 ≠ 0) (hs : s * s = a.norm)
    (hx : x * x = (a.c0 + s) * Base.half) :
    (⟨x, a.c1 * (x + x)⁻¹⟩ : Base2) * ⟨x, a.c1 * (x + x)⁻¹⟩ = a := by
  have htwice : x * x + x * x = a.c0 + s := by rw [hx, Base.half_add_half]
  rw [norm_eq] at hs
  have hne : x ≠ 0 := by
    rintro rfl
    refine hc1 (mul_self_eq_zero.mp ?_)
    linear_combination (a.c0 - s) * htwice - hs
  have hdouble : x + x ≠ 0 := by
    rw [← two_mul]
    exact mul_ne_zero two_ne_zero hne
  have hinv : (x + x) * (x + x)⁻¹ = 1 := mul_inv_cancel₀ hdouble
  apply ext_parts
  · refine mul_left_cancel₀ (show (2 : Base) ≠ 0 from two_ne_zero) ?_
    rw [c0_mul]
    dsimp only
    generalize (x + x)⁻¹ = w at hinv ⊢
    linear_combination (1 + 2 * w * w * (s - a.c0)) * htwice + 2 * w * w * hs -
      (s - a.c0) * (2 * x * w + 1) * hinv
  · rw [c1_mul]
    linear_combination a.c1 * hinv

theorem sqrtMixed?_eq_some_iff : sqrtMixed? a = some root ↔
    ∃ s x, Base.sqrt? a.norm = some s ∧
      (Base.sqrt? ((a.c0 + s) * Base.half)).or (Base.sqrt? ((a.c0 - s) * Base.half)) = some x ∧
      root = ⟨x, a.c1 * (x + x)⁻¹⟩ := by
  simp only [sqrtMixed?, Option.bind_eq_bind, Option.bind_eq_some_iff, Option.some.injEq,
    @eq_comm _ root]
  exact ⟨fun ⟨s, hs, x, hx, hroot⟩ => ⟨s, x, hs, hx, hroot⟩,
    fun ⟨s, x, hs, hx, hroot⟩ => ⟨s, hs, x, hx, hroot⟩⟩

/-- The root is correct whichever of the two halves was a square. -/
theorem mul_self_of_sqrtMixed? (hc1 : a.c1 ≠ 0) (h : sqrtMixed? a = some root) : root * root = a := by
  obtain ⟨s, x, hs, hx, rfl⟩ := sqrtMixed?_eq_some_iff.mp h
  have hnorm := Base.mul_self_of_sqrt? hs
  rcases Option.or_eq_some_iff.mp hx with hsum | ⟨-, hdifference⟩
  · exact mul_self_mixed hc1 hnorm (Base.mul_self_of_sqrt? hsum)
  · refine mul_self_mixed (s := -s) hc1 (by rw [neg_mul_neg, hnorm]) ?_
    rw [Base.mul_self_of_sqrt? hdifference, sub_eq_add_neg]

/-- The norm of a square is a square, and one of the two halves is one too. -/
theorem exists_sqrtMixed? (y : Base2) : ∃ root, sqrtMixed? (y * y) = some root := by
  have hnorm : (y * y).norm = y.norm * y.norm := by
    simp only [norm_eq, c0_mul, c1_mul]
    ring
  obtain ⟨s, hs⟩ := Base.exists_sqrt? y.norm
  rw [← hnorm] at hs
  have hhalf : ∀ n : Base, n = y.norm → ((y * y).c0 + n) * Base.half = y.c0 * y.c0 := by
    rintro n rfl
    rw [← Base.half_add_half (y.c0 * y.c0), norm_eq, c0_mul]
    ring
  have hfound : ∃ x, (Base.sqrt? (((y * y).c0 + s) * Base.half)).or
      (Base.sqrt? (((y * y).c0 - s) * Base.half)) = some x := by
    obtain ⟨x, hx⟩ := Base.exists_sqrt? y.c0
    have hsquares : s * s = y.norm * y.norm := hnorm ▸ Base.mul_self_of_sqrt? hs
    rcases mul_self_eq_mul_self_iff.mp hsquares with hpos | hneg
    · exact ⟨x, by rw [hhalf s hpos, hx, Option.some_or]⟩
    · rw [sub_eq_add_neg, hhalf (-s) (by rw [hneg, neg_neg]), hx]
      cases Base.sqrt? (((y * y).c0 + s) * Base.half) with
      | some other => exact ⟨other, rfl⟩
      | none => exact ⟨x, rfl⟩
  obtain ⟨x, hx⟩ := hfound
  exact ⟨_, sqrtMixed?_eq_some_iff.mpr ⟨s, x, hs, hx, rfl⟩⟩

/-! ### All elements -/

theorem exists_sqrt? (y : Base2) : ∃ root, sqrt? (y * y) = some root := by
  by_cases hc1 : (y * y).c1 = 0
  · have hproduct : 2 * (y.c0 * y.c1) = 0 := by
      rw [c1_mul] at hc1
      linear_combination hc1
    have hsquare : IsSquare (y * y).c0 ∨ IsSquare (-(y * y).c0) := by
      rw [c0_mul]
      rcases mul_eq_zero.mp ((mul_eq_zero.mp hproduct).resolve_left two_ne_zero) with h | h
      · exact .inr ⟨y.c1, by rw [h]; ring⟩
      · exact .inl ⟨y.c0, by rw [h]; ring⟩
    obtain ⟨root, hroot⟩ := exists_sqrtBase? hsquare
    refine ⟨root, sqrt?_eq_some_iff.mpr ⟨by rw [if_pos hc1, hroot], ?_⟩⟩
    rw [mul_self_of_sqrtBase? hroot]
    exact ext_parts rfl hc1.symm
  · obtain ⟨root, hroot⟩ := exists_sqrtMixed? y
    exact ⟨root, sqrt?_eq_some_iff.mpr
      ⟨by rw [if_neg hc1, hroot], mul_self_of_sqrtMixed? hc1 hroot⟩⟩

end Base2

/-! ## Signs -/

namespace Base

theorem val_neg_of_ne_zero {y : Base} (h : y ≠ 0) : (-y).val = baseModulus - y.val := by
  have hpos : y.val ≠ 0 := fun hzero => h (Residue.ext_val hzero)
  rw [Residue.val_neg, Nat.mod_eq_of_lt (by have := y.lt; omega)]

theorem neg_eq_iff_eq_zero {y : Base} : -y = y ↔ y = 0 := by
  refine ⟨fun h => ?_, fun h => by rw [h, neg_zero]⟩
  have hdouble : 2 * y = 0 := by linear_combination -h
  exact (mul_eq_zero.mp hdouble).resolve_left two_ne_zero

/-- The modulus is odd, so no element but zero is its own negative. -/
theorem isLarger_neg {y : Base} (h : y ≠ 0) : isLarger (-y) = !isLarger y := by
  have hodd : baseModulus % 2 = 1 := by decide
  have hval := val_neg_of_ne_zero h
  have hlt := y.lt
  rw [isLarger, isLarger, neg_neg, ← decide_not, decide_eq_decide]
  omega

end Base

namespace Base2

/-- Elements are compared by their `u` parts and, where these agree, by their real parts. -/
theorem isLarger_neg {y : Base2} (h : y ≠ 0) : isLarger (-y) = !isLarger y := by
  have hlarger : ∀ z : Base2, isLarger z = if z.c1 = 0 then z.c0.isLarger else z.c1.isLarger := by
    intro z
    simp only [isLarger, c1_neg, c0_neg, Base.neg_eq_iff_eq_zero, Base.isLarger]
  rw [hlarger, hlarger]
  simp only [c1_neg, c0_neg, neg_eq_zero]
  split
  · next hc1 => exact Base.isLarger_neg fun hc0 => h (ext_parts hc0 hc1)
  · next hc1 => exact Base.isLarger_neg hc1

end Base2

/-- Of the two roots the one with the mark of `y` is `y`. -/
theorem choose_eq {K : Type} [Field K] {isLarger : K → Bool}
    (hneg : ∀ y, y ≠ 0 → isLarger (-y) = !isLarger y) {root y : K} (h : root * root = y * y) :
    choose isLarger (isLarger y) root = y := by
  rw [choose]
  rcases mul_self_eq_mul_self_iff.mp h with rfl | rfl
  · exact if_pos rfl
  · by_cases hy : y = 0
    · simp [hy]
    · rw [hneg y hy, if_neg (by simp), neg_neg]

theorem Point.onCurve_finite_iff {K : Type} [Add K] [Mul K] [DecidableEq K] {b x y : K} :
    (finite x y).onCurve b = true ↔ y * y = x * x * x + b := decide_eq_true_iff

/-- The compact form loses nothing of a point on the curve. -/
theorem G1.ofX?_isLarger {x y : Base} (h : (Point.finite x y).onCurve coefficient = true) :
    ofX? x y.isLarger = some (.finite x y) := by
  have hequation := Point.onCurve_finite_iff.mp h
  obtain ⟨root, hroot⟩ := Base.exists_sqrt? y
  rw [ofX?, ← hequation, hroot, Option.map_some,
    choose_eq (fun _ => Base.isLarger_neg) (Base.mul_self_of_sqrt? hroot)]

theorem G2.ofX?_isLarger {x y : Base2} (h : (Point.finite x y).onCurve coefficient = true) :
    ofX? x y.isLarger = some (.finite x y) := by
  have hequation := Point.onCurve_finite_iff.mp h
  obtain ⟨root, hroot⟩ := Base2.exists_sqrt? y
  rw [ofX?, ← hequation, hroot, Option.map_some,
    choose_eq (fun _ => Base2.isLarger_neg) (Base2.sqrt?_eq_some_iff.mp hroot).2]

end CircuitProof
