import CircuitProof.Proofs.Bn254.Lawful
import CircuitProof.Proofs.Contract.Equivalence

/-!
# The two point groups with a pairing are lawful

What is asked of a pairing is what it does on members, so with any pairing the two groups have all
the laws that the argument rests on.
-/

namespace CircuitProof

namespace Contract

open Point (ofMember)

variable {T R : Type} [Mul T] [One T] [CommGroup R] {product? : List (G1 × G2) → Option T}
  {value : R → T} {pair : G1 → G2 → R}

theorem IsPairing.pair_nsmul (h : IsPairing product? value pair) (n : Nat) (P : G1.members)
    (Q : G2.members) :
    pair (ofMember P) (ofMember (n • Q)) = pair (ofMember P) (ofMember Q) ^ n := by
  induction n with
  | zero => rw [zero_smul, h.pair_zero, pow_zero]
  | succ n ih => rw [add_smul, one_smul, Point.ofMember_add, h.pair_add, ih, pow_succ]

/-- The verifier of the contract and that of the argument may rest on the same pairing. -/
theorem IsPairing.lawful (h : IsPairing product? value pair) :
    (groupsWith product?).Lawful fun p q => value (pair p q) where
  first := G1.group_lawful
  second := G2.group_lawful
  product_one hp hq := by
    refine (h.product_eq (by simpa using ⟨hp, hq⟩)).trans ?_
    simp
  product_two hp hq hp' hq' := by
    refine (h.product_eq (by simpa using ⟨⟨hp, hq⟩, hp', hq'⟩)).trans ?_
    simp [h.value_mul]
  pair_add hp hq hq' := by
    obtain ⟨P, rfl⟩ := G1.isMember_iff.mp hp
    obtain ⟨Q, rfl⟩ := G2.isMember_iff.mp hq
    obtain ⟨Q', rfl⟩ := G2.isMember_iff.mp hq'
    exact (congrArg value (h.pair_add P Q Q')).trans (h.value_mul _ _)
  pair_scale k p q hp hq := by
    obtain ⟨P, rfl⟩ := G1.isMember_iff.mp hp
    obtain ⟨Q, rfl⟩ := G2.isMember_iff.mp hq
    have hfirst : (groupsWith product?).first.scale k (ofMember P) = ofMember (k.val • P) :=
      (Point.ofMember_nsmul k.val P).symm
    have hsecond : (groupsWith product?).second.scale k (ofMember Q) = ofMember (k.val • Q) :=
      (Point.ofMember_nsmul k.val Q).symm
    rw [hfirst, hsecond, h.nsmul_pair, h.pair_nsmul]

end Contract

end CircuitProof
