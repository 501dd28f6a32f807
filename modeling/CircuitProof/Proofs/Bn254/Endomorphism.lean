import CircuitProof.Proofs.Bn254.Group
import CircuitProof.Proofs.Curve.Members

/-!
# Multiples by halves of a scalar

Multiplying first coordinates by a cube root of unity takes sums of points to sums. It takes the
generator to its multiple by the eigenvalue, so it does that to every member, the members being the
multiples of the generator. A scalar is worth its first part and the eigenvalue times its second
one; the joint run of doublings adds up both.
-/

namespace CircuitProof

/-! ## Digits from the top -/

section Digits

variable {A : Type} [AddCommGroup A]

theorem foldl_doublings (digit : Nat → A) (n : Nat) (start : A) :
    ((List.range n).reverse.map digit).foldl (fun sum P => sum + sum + P) start =
      2 ^ n • start + ∑ i ∈ Finset.range n, 2 ^ i • digit i := by
  induction n generalizing start with
  | zero => simp
  | succ n ih =>
    rw [List.range_succ, List.reverse_append, List.reverse_singleton, List.singleton_append,
      List.map_cons, List.foldl_cons, ih, Finset.sum_range_succ]
    module

/-- A number is told by its bits. -/
theorem sum_testBit {k n : Nat} (h : k < 2 ^ n) (P : A) :
    ∑ i ∈ Finset.range n, 2 ^ i • (if k.testBit i then P else 0) = k • P := by
  have hsum : ∀ n : Nat, ∑ i ∈ Finset.range n, 2 ^ i • (if k.testBit i then P else 0) =
      (k % 2 ^ n) • P := by
    intro n
    induction n with
    | zero => simp [Nat.mod_one]
    | succ n ih =>
      have hbit : (if k.testBit n then P else 0) = (k / 2 ^ n % 2) • P := by
        rw [Nat.testBit_eq_decide_div_mod_eq]
        rcases Nat.mod_two_eq_zero_or_one (k / 2 ^ n) with h | h <;> simp [h]
      rw [Finset.sum_range_succ, ih, hbit, Nat.mod_pow_succ, add_smul, mul_smul]
  rw [hsum, Nat.mod_eq_of_lt h]

end Digits

/-- Members as digits add up to the sum of their multiples by the weights. -/
theorem Point.ofDigits_ofMember {K : Type} [Field K] [DecidableEq K] [NeZero (2 : K)] {b : K}
    {order : Nat} (digit : Nat → members b order) (n : Nat) :
    ofDigits ((List.range n).reverse.map fun i => ofMember (digit i)) =
      ofMember (∑ i ∈ Finset.range n, 2 ^ i • digit i) := by
  have hmap : (List.range n).reverse.map (fun i => ofMember (digit i)) =
      ((List.range n).reverse.map fun i => (digit i).val).map ofCurve := by
    rw [List.map_map]
    rfl
  rw [hmap, ofDigits_map, foldl_doublings, smul_zero, zero_add, ofMember,
    AddSubgroup.val_finsetSum]
  rfl

namespace G1

open Point (ofMember)

/-! ## The endomorphism -/

theorem rootOfUnity_cubed : rootOfUnity * rootOfUnity * rootOfUnity = 1 := by decide +kernel

/-- The inverse of the root of unity is its square. -/
theorem rootOfUnity_inv : rootOfUnity⁻¹ = rootOfUnity * rootOfUnity :=
  inv_eq_of_mul_eq_one_left rootOfUnity_cubed

theorem endomorphism_onLine (m x₁ y₁ x₂ : Base) :
    endomorphism (Point.onLine m x₁ y₁ x₂) =
      Point.onLine (rootOfUnity * rootOfUnity * m) (rootOfUnity * x₁) y₁ (rootOfUnity * x₂) := by
  have hcubed := rootOfUnity_cubed
  simp only [Point.onLine, endomorphism, Point.finite.injEq]
  generalize rootOfUnity = β at hcubed ⊢
  constructor
  · linear_combination (-β * m * m) * hcubed
  · linear_combination (m * m * m * (β * β * β + 1) - m * (x₁ + x₁ + x₂)) * hcubed

/-- Slopes are multiplied by `β²`, and chords and tangents go over into one another. -/
theorem endomorphism_add (p q : G1) :
    endomorphism (p.add q) = (endomorphism p).add (endomorphism q) := by
  have hne : rootOfUnity ≠ 0 := by
    intro hzero
    have hcubed := rootOfUnity_cubed
    rw [hzero, mul_zero] at hcubed
    exact zero_ne_one hcubed
  cases p with
  | infinity => rw [Point.infinity_add, endomorphism_infinity, Point.infinity_add]
  | finite x₁ y₁ =>
    cases q with
    | infinity => rw [Point.add_infinity, endomorphism_infinity, Point.add_infinity]
    | finite x₂ y₂ =>
      have hsame : rootOfUnity * x₁ = rootOfUnity * x₂ ↔ x₁ = x₂ := mul_right_inj' hne
      rw [Point.add, endomorphism, endomorphism, Point.add]
      by_cases hx : x₁ = x₂
      · rw [if_pos hx, if_pos (hsame.mpr hx)]
        by_cases hy : y₁ = y₂ ∧ y₁ ≠ 0
        · have hslope : Point.tangentSlope (rootOfUnity * x₁) y₁ =
              rootOfUnity * rootOfUnity * Point.tangentSlope x₁ y₁ := by
            simp only [Point.tangentSlope]
            ring
          rw [if_pos hy, if_pos hy, endomorphism_onLine, hslope]
        · rw [if_neg hy, if_neg hy, endomorphism_infinity]
      · have hslope : Point.chordSlope (rootOfUnity * x₁) y₁ (rootOfUnity * x₂) y₂ =
            rootOfUnity * rootOfUnity * Point.chordSlope x₁ y₁ x₂ y₂ := by
          rw [Point.chordSlope, Point.chordSlope, ← mul_sub, mul_inv, rootOfUnity_inv]
          ring
        rw [if_neg hx, if_neg (mt hsame.mp hx), endomorphism_onLine, hslope]

/-- The generator is enough: every member is a multiple of it. -/
theorem endomorphism_generator : endomorphism generator = generator.multiple eigenvalue := by
  decide +kernel

/-- The members are the multiples of the generator. -/
theorem exists_generator :
    ∃ G : members, ofMember G = generator ∧ ∀ P : members, ∃ n : Nat, n • G = P := by
  obtain ⟨G, hG⟩ := isMember_iff.mp isMember_generator
  have hne : G ≠ 0 := by
    rintro rfl
    cases hG
  have hcard : 2 * Nat.card Base + 1 < scalarModulus ^ 2 := by
    rw [Residue.natCard_eq]
    decide
  exact ⟨G, hG, Point.exists_nsmul_eq hcard hne⟩

/-- The endomorphism multiplies members by the eigenvalue. -/
theorem endomorphism_ofMember (P : members) :
    endomorphism (ofMember P) = ofMember (eigenvalue • P) := by
  obtain ⟨G, hG, hmultiples⟩ := exists_generator
  obtain ⟨n, rfl⟩ := hmultiples P
  have hgenerator : endomorphism (ofMember G) = ofMember (eigenvalue • G) := by
    rw [hG, endomorphism_generator, Point.ofMember_nsmul, hG]
  induction n with
  | zero => simp
  | succ n ih =>
    rw [succ_nsmul, Point.ofMember_add, endomorphism_add, ih, hgenerator, ← Point.ofMember_add,
      smul_add]

/-! ## Split scalars -/

theorem signed_ofMember (k : Int) (P : members) :
    signed k (ofMember P) = ofMember (if k < 0 then -P else P) := by
  rw [signed, ← Point.ofMember_neg]
  split <;> rfl

theorem natAbs_nsmul_signed (k : Int) (P : members) :
    k.natAbs • (if k < 0 then -P else P) = k • P := by
  rw [← natCast_zsmul]
  split
  · next h => rw [Int.ofNat_natAbs_of_nonpos h.le, neg_smul, smul_neg, neg_neg]
  · next h => rw [Int.natAbs_of_nonneg (not_lt.mp h)]

/-- Only the residue of an integer modulo the order counts. -/
theorem zsmul_eq_nsmul {i : Int} {k : Nat} (h : (scalarModulus : Int) ∣ i - k) (P : members) :
    i • P = k • P := by
  obtain ⟨c, hc⟩ := h
  rw [eq_add_of_sub_eq' hc, add_smul, mul_comm, mul_smul, natCast_zsmul, natCast_zsmul,
    Point.order_nsmul, smul_zero, add_zero]

/-- A multiple by the parts of a scalar is the multiple by the scalar. -/
theorem splitMultiple_ofMember (k : Nat) (P : members) :
    splitMultiple k (ofMember P) = (ofMember P).multiple k := by
  obtain ⟨k₁, k₂, hsplit⟩ : ∃ k₁ k₂, split k = (k₁, k₂) := ⟨_, _, rfl⟩
  have hvalue : (scalarModulus : Int) ∣ k₁ + eigenvalue * k₂ - k := by
    have hdvd := dvd_split k
    rwa [hsplit] at hdvd
  rw [splitMultiple, hsplit]
  dsimp only
  rw [endomorphism_ofMember, signed_ofMember, signed_ofMember, ← Point.ofMember_add]
  generalize hP₁ : (if k₁ < 0 then -P else P) = P₁
  generalize hP₂ : (if k₂ < 0 then -(eigenvalue • P) else eigenvalue • P) = P₂
  set length := (max k₁.natAbs k₂.natAbs).log2 + 1 with hlength
  have hshort : ∀ n ≤ max k₁.natAbs k₂.natAbs, n < 2 ^ length := fun n hn =>
    hn.trans_lt Nat.lt_log2_self
  have hdigit : ∀ i, jointDigit (ofMember P₁) (ofMember P₂) (ofMember (P₁ + P₂))
      (k₁.natAbs.testBit i) (k₂.natAbs.testBit i) =
        ofMember ((if k₁.natAbs.testBit i then P₁ else 0) +
          if k₂.natAbs.testBit i then P₂ else 0) := by
    intro i
    cases k₁.natAbs.testBit i <;> cases k₂.natAbs.testBit i <;> simp [jointDigit]
  simp only [hdigit, Point.ofDigits_ofMember, smul_add, Finset.sum_add_distrib]
  rw [sum_testBit (hshort _ (le_max_left ..)), sum_testBit (hshort _ (le_max_right ..)), ← hP₁, ← hP₂,
    natAbs_nsmul_signed, natAbs_nsmul_signed, ← natCast_zsmul P eigenvalue, ← mul_smul, mul_comm,
    ← add_smul, zsmul_eq_nsmul hvalue, Point.ofMember_nsmul]

end G1

end CircuitProof
