import Mathlib.Algebra.Field.ZMod
import Mathlib.Algebra.Group.Subgroup.Ker
import Mathlib.Algebra.Module.ZMod
import Mathlib.FieldTheory.Finiteness
import Mathlib.LinearAlgebra.Dual.Lemmas
import Mathlib.LinearAlgebra.FiniteDimensional.Lemmas
import CircuitProof.Proofs.Curve.Combination

/-!
# The members of a group of points

The points of a curve that a fixed number takes to zero are a subgroup, and every operation on their
coordinates is the subgroup's. When the number is prime, the subgroup has a logarithm to the base of each
of its points but zero.
-/

namespace CircuitProof

/-- In a group of prime exponent every element but zero is the base of a logarithm. -/
theorem exists_logarithm {A : Type} [AddCommGroup A] {p : Nat} [Fact p.Prime]
    (hexponent : ∀ a : A, p • a = 0) {base : A} (h : base ≠ 0) :
    ∃ logarithm : A →+ ZMod p, logarithm base = 1 := by
  have : Module (ZMod p) A := AddCommGroup.zmodModule hexponent
  obtain ⟨f, hf⟩ : ∃ f : A →ₗ[ZMod p] ZMod p, f base ≠ 0 := by
    by_contra hnone
    push Not at hnone
    exact h ((Module.forall_dual_apply_eq_zero_iff (ZMod p) base).mp hnone)
  exact ⟨((f base)⁻¹ • f).toAddMonoidHom, inv_mul_cancel₀ hf⟩

namespace Point

variable {K : Type} [Field K] [DecidableEq K] {b : K} {order : Nat}

/-- The points of the curve that the order takes to zero. -/
def members (b : K) (order : Nat) : AddSubgroup (curve b).Point := (nsmulAddMonoidHom order).ker

def isMember (b : K) (order : Nat) (p : Point K) : Bool :=
  p.onCurve b && multiple order p = .infinity

def ofMember (P : members b order) : Point K := ofCurve P.val

theorem ofMember_injective : Function.Injective (ofMember : members b order → Point K) :=
  ofCurve_injective.comp Subtype.val_injective

@[simp] theorem ofMember_zero : ofMember (0 : members b order) = infinity := rfl

theorem ofMember_neg (P : members b order) : ofMember (-P) = (ofMember P).neg := ofCurve_neg P.val

omit [DecidableEq K] in
theorem neg_neg_eq (p : Point K) : p.neg.neg = p := by
  cases p with
  | infinity => rfl
  | finite x y => exact congrArg (finite x) (neg_neg y)

theorem order_nsmul (P : members b order) : order • P = 0 := Subtype.ext P.property

/-- Only the residue of a number modulo the order counts. -/
theorem mod_nsmul (n : Nat) (P : members b order) : (n % order) • P = n • P := by
  conv_rhs => rw [← Nat.mod_add_div n order, add_smul, mul_comm, mul_smul, order_nsmul, smul_zero,
    add_zero]

variable [NeZero (2 : K)]

theorem ofMember_add (P Q : members b order) : ofMember (P + Q) = (ofMember P).add (ofMember Q) :=
  ofCurve_add P.val Q.val

theorem ofMember_nsmul (n : Nat) (P : members b order) :
    ofMember (n • P) = (ofMember P).multiple n :=
  (multiple_ofCurve n P.val).symm

/-- Numbers that fit into the bits multiply the members beside them. -/
theorem combine_ofMember {bits : Nat} (hbits : 0 < bits) {numbers : List Nat}
    (hnumbers : ∀ n ∈ numbers, n < 2 ^ bits) (points : List (members b order)) :
    combine bits numbers (points.map ofMember) =
      ofMember ((numbers.zip points).map fun term => term.1 • term.2).sum := by
  have hpoints : points.map ofMember = (points.map Subtype.val).map ofCurve := by
    rw [List.map_map]
    rfl
  rw [hpoints, combine_ofCurve hbits hnumbers, ofMember, AddSubgroup.val_list_sum, List.map_map,
    List.zip_map_right, List.map_map]
  rfl

/-! ## Membership -/

variable [SmoothCurve b]

/-- The membership test accepts exactly the coordinates of the subgroup's points. -/
theorem isMember_iff {p : Point K} :
    isMember b order p = true ↔ ∃ P : members b order, ofMember P = p := by
  rw [isMember, Bool.and_eq_true, onCurve_iff, decide_eq_true_eq]
  constructor
  · rintro ⟨⟨P, rfl⟩, h⟩
    rw [multiple_ofCurve, ← ofCurve_zero] at h
    exact ⟨⟨P, ofCurve_injective h⟩, rfl⟩
  · rintro ⟨P, rfl⟩
    refine ⟨⟨P.val, rfl⟩, ?_⟩
    rw [ofMember, multiple_ofCurve, ← ofCurve_zero]
    exact congrArg ofCurve P.property

theorem isMember_ofMember (P : members b order) : isMember b order (ofMember P) = true :=
  isMember_iff.mpr ⟨P, rfl⟩

theorem exists_map_ofMember {points : List (Point K)}
    (h : ∀ p ∈ points, isMember b order p = true) :
    ∃ Ps : List (members b order), points = Ps.map ofMember := by
  induction points with
  | nil => exact ⟨[], rfl⟩
  | cons p points ih =>
    obtain ⟨P, rfl⟩ := isMember_iff.mp (h p List.mem_cons_self)
    obtain ⟨Ps, rfl⟩ := ih fun q hq => h q (List.mem_cons_of_mem _ hq)
    exact ⟨P :: Ps, rfl⟩

/-- A point is a member if its negative is. -/
theorem isMember_neg (p : Point K) : isMember b order p.neg = isMember b order p := by
  have hneg : ∀ {p : Point K}, isMember b order p = true → isMember b order p.neg = true := by
    intro p h
    obtain ⟨P, rfl⟩ := isMember_iff.mp h
    rw [← ofMember_neg]
    exact isMember_ofMember (-P)
  rw [Bool.eq_iff_iff]
  exact ⟨fun h => neg_neg_eq p ▸ hneg h, hneg⟩

/-- The logarithm of points to the base of a member. What it gives for points that are no members has no
meaning. -/
theorem exists_logarithm_ofMember [Fact order.Prime] {base : Point K}
    (hmember : isMember b order base = true) (h : base ≠ infinity) :
    ∃ logarithm : Point K → ZMod order, logarithm base = 1 ∧
      ∀ P Q : members b order, logarithm ((ofMember P).add (ofMember Q)) =
        logarithm (ofMember P) + logarithm (ofMember Q) := by
  obtain ⟨P, rfl⟩ := isMember_iff.mp hmember
  have hne : P ≠ 0 := by
    rintro rfl
    exact h rfl
  obtain ⟨f, hf⟩ := exists_logarithm order_nsmul hne
  have hlogarithm : ∀ Q : members b order, f (Function.invFun ofMember (ofMember Q)) = f Q :=
    fun Q => congrArg f (Function.leftInverse_invFun ofMember_injective Q)
  refine ⟨fun p => f (Function.invFun ofMember p), (hlogarithm P).trans hf, fun Q R => ?_⟩
  dsimp only
  rw [← ofMember_add, hlogarithm, hlogarithm, hlogarithm, map_add]

end Point

/-! ## Members of prime order

A first coordinate has two points at most, so a curve over a small field has few points. Where they
are fewer than the square of a prime order, the members of that order are the multiples of any of
them but zero: two that are independent would have too many sums.
-/

namespace Point

variable {K : Type} [Field K] {b : K}

/-- A second coordinate for the first one, where there is any. -/
noncomputable def squareRoot (b x : K) : K := Classical.epsilon fun y => y * y = x * x * x + b

variable [DecidableEq K]

/-- The first coordinate, and whether the second one is the chosen square root. -/
noncomputable def code : (curve b).Point → Option (K × Bool)
  | .zero => none
  | .some x y _ => some (x, decide (y = squareRoot b x))

/-- A first coordinate has two points at most, which the mark tells apart. -/
theorem code_injective : Function.Injective (code : (curve b).Point → Option (K × Bool)) := by
  have hroot : ∀ {x y : K}, (curve b).Nonsingular x y →
      y = squareRoot b x ∨ y = -squareRoot b x := by
    intro x y h
    have hy := equation_iff.mp h.1
    have hroot : squareRoot b x * squareRoot b x = x * x * x + b :=
      Classical.epsilon_spec (p := fun y => y * y = x * x * x + b) ⟨y, hy⟩
    exact mul_self_eq_mul_self_iff.mp (hy.trans hroot.symm)
  intro P Q h
  cases P with
  | zero =>
    cases Q with
    | zero => rfl
    | some => cases h
  | some x y hP =>
    cases Q with
    | zero => cases h
    | some x' y' hQ =>
      obtain ⟨rfl, hsign⟩ := Prod.mk.inj (Option.some.inj h)
      have hchosen : y = squareRoot b x ↔ y' = squareRoot b x := decide_eq_decide.mp hsign
      have hy : y = y' := by
        by_cases hy : y = squareRoot b x
        · rw [hchosen.mp hy, hy]
        · rw [(hroot hP).resolve_left hy, (hroot hQ).resolve_left (mt hchosen.mpr hy)]
      subst hy
      rfl

theorem finite_points [Finite K] : Finite (curve b).Point := .of_injective code code_injective

theorem card_points_le [Finite K] : Nat.card (curve b).Point ≤ 2 * Nat.card K + 1 := by
  have hcard := Nat.card_le_card_of_injective _ (code_injective (b := b))
  rwa [Finite.card_option, Nat.card_prod, Nat.card_eq_fintype_card (α := Bool), Fintype.card_bool,
    mul_comm] at hcard

variable {order : Nat} [Fact order.Prime]

/-- Where the curve has fewer points than the square of the order, every member is a multiple of any
member but zero. -/
theorem exists_nsmul_eq [Finite K] (hcard : 2 * Nat.card K + 1 < order ^ 2) {base : members b order}
    (hbase : base ≠ 0) (P : members b order) : ∃ n : Nat, n • base = P := by
  have : Module (ZMod order) (members b order) := AddCommGroup.zmodModule order_nsmul
  have : Finite (curve b).Point := finite_points
  have hsize : Nat.card (members b order) =
      order ^ Module.finrank (ZMod order) (members b order) := by
    rw [Module.natCard_eq_pow_finrank (K := ZMod order), Nat.card_zmod]
  have hfew : Nat.card (members b order) < order ^ 2 :=
    (AddSubgroup.card_le_card_addGroup _).trans_lt (card_points_le.trans_lt hcard)
  have hlt : Module.finrank (ZMod order) (members b order) < 2 := by
    rw [hsize] at hfew
    exact (Nat.pow_lt_pow_iff_right (Fact.out : order.Prime).one_lt).mp hfew
  have hpos : 0 < Module.finrank (ZMod order) (members b order) :=
    Module.finrank_pos_iff_exists_ne_zero.mpr ⟨base, hbase⟩
  have hone : Module.finrank (ZMod order) (members b order) = 1 := by omega
  obtain ⟨c, hc⟩ := (finrank_eq_one_iff_of_nonzero' base hbase).mp hone P
  refine ⟨c.val, ?_⟩
  rw [← Nat.cast_smul_eq_nsmul (ZMod order), ZMod.natCast_zmod_val, hc]

end Point

end CircuitProof
