import Mathlib.Algebra.Field.Basic
import Mathlib.Algebra.Group.TypeTags.Basic
import CircuitProof.Argument.Proving
import CircuitProof.Proofs.Polynomial.Lagrange

/-!
# Lawful groups and pairings

The members of a lawful group form a vector space over its scalars, so whatever is computed from
multiples of the generator is the multiple by the same computation on the scalars. A lawful pairing
moves scalars from one side to the other and takes sums to products. The scalars themselves are such
groups, each scalar the exponent of a generator, with multiplication as the pairing.

In groups of prime order with a pairing that is not degenerate, a multiple of a generator and the
pairing of two multiples both tell the scalar.
-/

namespace CircuitProof

variable {F G G₁ G₂ T : Type} [Field F]

namespace PointGroup

/-- The operations are those of a vector space on the members, and a combination is the sum of the
multiples. -/
structure Lawful (group : PointGroup F G) : Prop where
  generator_mem : group.isMember group.generator = true
  zero_mem : group.isMember group.zero = true
  add_mem : ∀ {p q}, group.isMember p = true → group.isMember q = true →
    group.isMember (group.add p q) = true
  neg_mem : ∀ {p}, group.isMember p = true → group.isMember (group.neg p) = true
  scale_mem : ∀ k {p}, group.isMember p = true → group.isMember (group.scale k p) = true
  add_assoc : ∀ {p q r}, group.isMember p = true → group.isMember q = true →
    group.isMember r = true → group.add (group.add p q) r = group.add p (group.add q r)
  add_comm : ∀ {p q}, group.isMember p = true → group.isMember q = true →
    group.add p q = group.add q p
  zero_add : ∀ {p}, group.isMember p = true → group.add group.zero p = p
  neg_add : ∀ {p}, group.isMember p = true → group.add (group.neg p) p = group.zero
  one_scale : ∀ {p}, group.isMember p = true → group.scale 1 p = p
  mul_scale : ∀ j k {p}, group.isMember p = true →
    group.scale (j * k) p = group.scale j (group.scale k p)
  add_scale : ∀ j k {p}, group.isMember p = true →
    group.scale (j + k) p = group.add (group.scale j p) (group.scale k p)
  scaleMember_eq : ∀ k {p}, group.isMember p = true → group.scaleMember k p = group.scale k p
  combine_eq : ∀ scalars points, (∀ p ∈ points, group.isMember p = true) →
    group.combine scalars points =
      (List.zipWith group.scale scalars points).foldr group.add group.zero

def multiple (group : PointGroup F G) (k : F) : G := group.scale k group.generator

variable {group : PointGroup F G}

namespace Lawful

theorem multiple_mem (h : group.Lawful) (k : F) : group.isMember (group.multiple k) = true :=
  h.scale_mem k h.generator_mem

theorem add_multiple (h : group.Lawful) (j k : F) :
    group.add (group.multiple j) (group.multiple k) = group.multiple (j + k) :=
  (h.add_scale j k h.generator_mem).symm

theorem multiple_one (h : group.Lawful) : group.multiple 1 = group.generator :=
  h.one_scale h.generator_mem

theorem scale_multiple (h : group.Lawful) (j k : F) :
    group.scale j (group.multiple k) = group.multiple (j * k) :=
  (h.mul_scale j k h.generator_mem).symm

theorem scaleMember_multiple (h : group.Lawful) (j k : F) :
    group.scaleMember j (group.multiple k) = group.multiple (j * k) := by
  rw [h.scaleMember_eq j (h.multiple_mem k), h.scale_multiple]

theorem multiple_zero (h : group.Lawful) : group.multiple 0 = group.zero := by
  have hmem := h.multiple_mem 0
  have hdouble : group.add (group.multiple 0) (group.multiple 0) = group.multiple 0 := by
    rw [h.add_multiple, add_zero]
  have hassoc := h.add_assoc (h.neg_mem hmem) hmem hmem
  rw [hdouble, h.neg_add hmem, h.zero_add hmem] at hassoc
  exact hassoc

theorem neg_multiple (h : group.Lawful) (k : F) :
    group.neg (group.multiple k) = group.multiple (-k) := by
  have hmem := h.multiple_mem k
  have hneg := h.neg_mem hmem
  have hsum : group.add (group.multiple (-k)) (group.multiple k) = group.zero := by
    rw [h.add_multiple, neg_add_cancel, h.multiple_zero]
  have hassoc := h.add_assoc (h.multiple_mem (-k)) hmem hneg
  rw [hsum, h.zero_add hneg, h.add_comm hmem hneg, h.neg_add hmem,
    h.add_comm (h.multiple_mem (-k)) h.zero_mem, h.zero_add (h.multiple_mem (-k))] at hassoc
  exact hassoc

theorem sub_multiple (h : group.Lawful) (j k : F) :
    group.sub (group.multiple j) (group.multiple k) = group.multiple (j - k) := by
  rw [sub, h.neg_multiple, h.add_multiple, sub_eq_add_neg]

omit [Field F] in
theorem ofScalars_eq (scalars : List F) :
    group.ofScalars scalars = scalars.map group.multiple := rfl

/-- A combination of multiples is the multiple by the sum of the products. -/
theorem combine_ofScalars (h : group.Lawful) (ks js : List F) :
    group.combine ks (group.ofScalars js) = group.multiple (dot ks js) := by
  rw [h.combine_eq, ofScalars_eq]
  · induction ks generalizing js with
    | nil => exact h.multiple_zero.symm
    | cons k ks ih =>
      cases js with
      | nil => exact h.multiple_zero.symm
      | cons j js =>
        rw [List.map_cons, List.zipWith_cons_cons, List.foldr_cons, ih, h.scale_multiple,
          h.add_multiple, dot_cons]
  · intro p hp
    obtain ⟨j, -, rfl⟩ := List.mem_map.mp hp
    exact h.multiple_mem j

/-- The prover's combinations come to single multiples of the generator. -/
theorem blinded_multiple (h : group.Lawful) (start k delta : F) (z query : List F) :
    group.blinded (group.multiple start) z (group.ofScalars query) k (group.multiple delta) =
      group.multiple (start + dot z query + k * delta) := by
  rw [blinded, h.combine_ofScalars, h.add_multiple, h.scale_multiple, h.add_multiple]

end Lawful

end PointGroup

namespace PairingGroups

/-- Both groups are lawful, and on members the product of pairings is that of a map that moves
scalars across and takes sums to products. -/
structure Lawful [Mul T] (groups : PairingGroups F G₁ G₂ T) (pair : G₁ → G₂ → T) : Prop where
  first : groups.first.Lawful
  second : groups.second.Lawful
  product_one : ∀ {p q}, groups.first.isMember p = true → groups.second.isMember q = true →
    groups.product? [(p, q)] = some (pair p q)
  product_two : ∀ {p q p' q'}, groups.first.isMember p = true →
    groups.second.isMember q = true → groups.first.isMember p' = true →
    groups.second.isMember q' = true →
    groups.product? [(p, q), (p', q')] = some (pair p q * pair p' q')
  pair_add : ∀ {p q q'}, groups.first.isMember p = true → groups.second.isMember q = true →
    groups.second.isMember q' = true →
    pair p (groups.second.add q q') = pair p q * pair p q'
  pair_scale : ∀ k {p q}, groups.first.isMember p = true → groups.second.isMember q = true →
    pair (groups.first.scale k p) q = pair p (groups.second.scale k q)

namespace Lawful

variable [Mul T] {groups : PairingGroups F G₁ G₂ T} {pair : G₁ → G₂ → T}

/-- The pairing of two multiples depends on the product of the scalars only. -/
theorem pair_multiple (h : groups.Lawful pair) (j k : F) :
    pair (groups.first.multiple j) (groups.second.multiple k) =
      pair groups.first.generator (groups.second.multiple (j * k)) := by
  rw [← h.second.scale_multiple]
  exact h.pair_scale j h.first.generator_mem (h.second.multiple_mem k)

theorem mul_pair_multiple (h : groups.Lawful pair) (j k : F) :
    pair groups.first.generator (groups.second.multiple j) *
        pair groups.first.generator (groups.second.multiple k) =
      pair groups.first.generator (groups.second.multiple (j + k)) := by
  rw [← h.second.add_multiple]
  exact (h.pair_add h.first.generator_mem (h.second.multiple_mem j)
    (h.second.multiple_mem k)).symm

end Lawful

/-- The lawful groups have prime order: every scalar is a natural number of ones, and every member
of the first group is a multiple of its generator. The generators do not pair as a generator and
zero do. -/
structure PrimeOrder [Mul T] (groups : PairingGroups F G₁ G₂ T) (pair : G₁ → G₂ → T) : Prop
    extends groups.Lawful pair where
  exists_natCast : ∀ k : F, ∃ n : Nat, (n : F) = k
  exists_multiple : ∀ {p}, groups.first.isMember p = true → ∃ k, groups.first.multiple k = p
  nondegenerate : pair groups.first.generator groups.second.generator ≠
    pair groups.first.generator groups.second.zero

namespace PrimeOrder

variable [Mul T] {groups : PairingGroups F G₁ G₂ T} {pair : G₁ → G₂ → T}

/-- Natural multiples of a scalar that pairs as zero does pair so too. -/
theorem pair_natCast_mul (h : groups.PrimeOrder pair) {k : F}
    (hk : pair groups.first.generator (groups.second.multiple k) =
      pair groups.first.generator (groups.second.multiple 0)) (n : Nat) :
    pair groups.first.generator (groups.second.multiple (n * k)) =
      pair groups.first.generator (groups.second.multiple 0) := by
  induction n with
  | zero => rw [Nat.cast_zero, zero_mul]
  | succ n ih =>
    rw [Nat.cast_succ, add_mul, one_mul, ← h.mul_pair_multiple, ih, hk, h.mul_pair_multiple,
      add_zero]

/-- The pairing of the generators has the full order. -/
theorem eq_zero_of_pair_eq (h : groups.PrimeOrder pair) {k : F}
    (hk : pair groups.first.generator (groups.second.multiple k) =
      pair groups.first.generator (groups.second.multiple 0)) : k = 0 := by
  by_contra hne
  -- the inverse is a natural number, and that many times the scalar is one
  obtain ⟨n, hn⟩ := h.exists_natCast k⁻¹
  have hone := h.pair_natCast_mul hk n
  rw [hn, inv_mul_cancel₀ hne, h.second.multiple_one, h.second.multiple_zero] at hone
  exact h.nondegenerate hone

/-- The pairing of the generators tells the scalar. -/
theorem pair_multiple_inj (h : groups.PrimeOrder pair) {j k : F} :
    pair groups.first.generator (groups.second.multiple j) =
      pair groups.first.generator (groups.second.multiple k) ↔ j = k := by
  constructor
  · intro hpair
    apply sub_eq_zero.mp
    apply h.eq_zero_of_pair_eq
    rw [sub_eq_add_neg, ← h.mul_pair_multiple, hpair, h.mul_pair_multiple, add_neg_cancel]
  · intro heq
    rw [heq]

theorem first_multiple_injective (h : groups.PrimeOrder pair) :
    Function.Injective groups.first.multiple := by
  intro j k heq
  have hpair := congrArg (fun p => pair p (groups.second.multiple 1)) heq
  simp only [h.pair_multiple, mul_one] at hpair
  exact h.pair_multiple_inj.mp hpair

theorem second_multiple_injective (h : groups.PrimeOrder pair) :
    Function.Injective groups.second.multiple := by
  intro j k heq
  exact h.pair_multiple_inj.mp (congrArg (pair groups.first.generator) heq)

end PrimeOrder

/-- The scalars as a group of points: the exponents of the generator. -/
def exponentGroup (F : Type) [Field F] : PointGroup F F where
  zero := 0
  add := (· + ·)
  neg := (- ·)
  scale := (· * ·)
  scaleMember := (· * ·)
  combine := dot
  generator := 1
  isMember _ := true

def exponentGroups (F : Type) [Field F] : PairingGroups F F F (Multiplicative F) where
  first := exponentGroup F
  second := exponentGroup F
  product? pairs := some (pairs.map fun pq => Multiplicative.ofAdd (pq.1 * pq.2)).prod

theorem exponentGroup_lawful : (exponentGroup F).Lawful where
  generator_mem := rfl
  zero_mem := rfl
  add_mem _ _ := rfl
  neg_mem _ := rfl
  scale_mem _ _ _ := rfl
  add_assoc _ _ _ := add_assoc _ _ _
  add_comm _ _ := add_comm _ _
  zero_add _ := zero_add _
  neg_add _ := neg_add_cancel _
  one_scale _ := one_mul _
  mul_scale j k p _ := mul_assoc j k p
  add_scale j k p _ := add_mul j k p
  scaleMember_eq _ _ _ := rfl
  combine_eq _ _ _ := rfl

theorem exponentGroups_lawful :
    (exponentGroups F).Lawful fun p q => Multiplicative.ofAdd (p * q) where
  first := exponentGroup_lawful
  second := exponentGroup_lawful
  product_one _ _ := by simp [exponentGroups]
  product_two _ _ _ _ := by simp [exponentGroups]
  pair_add _ _ _ := congrArg Multiplicative.ofAdd (mul_add _ _ _)
  pair_scale k p q _ _ := by
    have hscale : k * p * q = p * (k * q) := by rw [mul_comm k p, mul_assoc]
    exact congrArg Multiplicative.ofAdd hscale

/-- The exponents satisfy all that is asked of the groups, so the demands contradict nothing. -/
theorem exponentGroups_primeOrder (hnat : ∀ k : F, ∃ n : Nat, (n : F) = k) :
    (exponentGroups F).PrimeOrder fun p q => Multiplicative.ofAdd (p * q) where
  toLawful := exponentGroups_lawful
  exists_natCast := hnat
  exists_multiple _ := ⟨_, mul_one _⟩
  nondegenerate heq := by
    have hmul : (1 : F) * 1 = 1 * 0 := Multiplicative.ofAdd.injective heq
    rw [mul_zero, mul_one] at hmul
    exact one_ne_zero hmul

end PairingGroups

end CircuitProof
