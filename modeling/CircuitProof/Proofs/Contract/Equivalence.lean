import CircuitProof.Proofs.Argument.Balance
import CircuitProof.Proofs.Contract.Verifier

/-!
# The contract and the verifier accept the same proofs

The contract negates the first point of a proof and compares the product of four pairings with one;
verification compares the pairing of the first two points with a product. For a pairing that takes sums to
products these are the same, and so is the product with the second points of the key negated.
-/

namespace CircuitProof

namespace Contract

open G1 (members)
open Point (ofMember)

/-! ## The points of the pairing -/

/-- The contract negates by a subtraction from the modulus, which takes zero to zero. -/
theorem coordinates₁_neg (p : G1) : coordinates₁ p.neg =
    ((coordinates₁ p).1, (baseModulus - (coordinates₁ p).2) % baseModulus) := by
  cases p with
  | infinity => rfl
  | finite x y => simp [Point.neg, coordinates₁]

/-- The modulus less a coordinate is the coordinate of the negative. -/
theorem point₁?_neg (x : Nat) {y : Nat} (hy : y < baseModulus) :
    point₁? G1.isMember x ((baseModulus - y) % baseModulus) =
      (point₁? G1.isMember x y).map Point.neg := by
  have htwice : (baseModulus - (baseModulus - y) % baseModulus) % baseModulus = y := by
    simp only [baseModulus] at hy ⊢
    omega
  ext p
  rw [Option.map_eq_some_iff]
  simp only [point₁?_eq_some_iff]
  constructor
  · rintro ⟨hmember, hcoordinates⟩
    refine ⟨p.neg, ⟨by rw [G1.isMember_neg, hmember], ?_⟩, Point.neg_neg_eq p⟩
    rw [coordinates₁_neg, hcoordinates, htwice]
  · rintro ⟨p, ⟨hmember, hcoordinates⟩, rfl⟩
    refine ⟨by rw [G1.isMember_neg, hmember], ?_⟩
    rw [coordinates₁_neg, hcoordinates]

/-- The words of the call are those of the proof's points, the first one negated, and of the key's. -/
theorem pairs?_pairingWords {T : Type} {product? : List (G1 × G2) → Option T}
    {vk : VerifyingKey G1 G2} (hvk : Storable.Members vk) (words : ProofWords) (P : members) :
    pairs? (groupsWith product?) (pairingWords vk words P) =
      words.reduced.proof?.map fun proof =>
        [(proof.a.neg, proof.b), (vk.alpha, vk.beta), (ofMember P, vk.gamma), (proof.c, vk.delta)] := by
  obtain ⟨halpha, hbeta, hgamma, hdelta, -⟩ := hvk
  obtain ⟨_, _, _, _, hbetaWords⟩ := exists_coordinates₂ vk.beta
  obtain ⟨_, _, _, _, hgammaWords⟩ := exists_coordinates₂ vk.gamma
  obtain ⟨_, _, _, _, hdeltaWords⟩ := exists_coordinates₂ vk.delta
  have hbeta' := point₂?_eq_some_iff.mpr ⟨hbeta, hbetaWords⟩
  have hgamma' := point₂?_eq_some_iff.mpr ⟨hgamma, hgammaWords⟩
  have hdelta' := point₂?_eq_some_iff.mpr ⟨hdelta, hdeltaWords⟩
  have hfirst : (groupsWith product?).first.isMember = G1.isMember := rfl
  have hsecond : (groupsWith product?).second.isMember = G2.isMember := rfl
  have hneg := point₁?_neg words.a.1 (Nat.mod_lt words.a.2 (by decide : 0 < baseModulus))
  simp only [pairingWords, answer, hbetaWords, hgammaWords, hdeltaWords, List.cons_append,
    List.nil_append, pairs?, hfirst, hsecond, hneg, point₁?_coordinates halpha, hbeta',
    point₁?_coordinates (Point.isMember_ofMember P), hgamma', hdelta', ProofWords.reduced,
    ProofWords.proof?]
  cases point₁? G1.isMember words.a.1 (words.a.2 % baseModulus) with
  | none => rfl
  | some a =>
    cases point₂? G2.isMember words.b.1.1 words.b.1.2 words.b.2.1 words.b.2.2 with
    | none => rfl
    | some b => cases point₁? G1.isMember words.c.1 words.c.2 <;> rfl

/-! ## Pairings -/

/-- On members the product of pairings has the value of a product in a commutative group `R`, where the
pairing takes sums on either side to products. -/
structure IsPairing {T R : Type} [Mul T] [One T] [CommGroup R] (product? : List (G1 × G2) → Option T)
    (value : R → T) (pair : G1 → G2 → R) : Prop where
  value_injective : Function.Injective value
  value_one : value 1 = 1
  value_mul : ∀ x y, value (x * y) = value x * value y
  product_eq : ∀ {pairs}, (∀ pq ∈ pairs, G1.isMember pq.1 = true ∧ G2.isMember pq.2 = true) →
    product? pairs = some (value (pairs.map fun pq => pair pq.1 pq.2).prod)
  add_pair : ∀ (P Q : G1.members) (R : G2.members),
    pair ((ofMember P).add (ofMember Q)) (ofMember R) =
      pair (ofMember P) (ofMember R) * pair (ofMember Q) (ofMember R)
  pair_add : ∀ (P : G1.members) (Q R : G2.members),
    pair (ofMember P) ((ofMember Q).add (ofMember R)) =
      pair (ofMember P) (ofMember Q) * pair (ofMember P) (ofMember R)

/-- On points of two sets the product of pairings has the value of a product in a group, and negating
the second point of a pairing inverts it. The members are among the points, and others may be. -/
structure PairsOn {T R : Type} [Mul T] [CommGroup R] (product? : List (G1 × G2) → Option T)
    (value : R → T) (pair : G1 → G2 → R) (first : Set G1) (second : Set G2) : Prop where
  value_injective : Function.Injective value
  value_mul : ∀ x y, value (x * y) = value x * value y
  product_eq : ∀ {pairs}, (∀ pq ∈ pairs, pq.1 ∈ first ∧ pq.2 ∈ second) →
    product? pairs = some (value (pairs.map fun pq => pair pq.1 pq.2).prod)
  pair_neg : ∀ {p q}, p ∈ first → q ∈ second → pair p q.neg = (pair p q)⁻¹
  neg_mem : ∀ {q}, q ∈ second → q.neg ∈ second
  mem_first : ∀ {p}, G1.isMember p = true → p ∈ first
  mem_second : ∀ {q}, G2.isMember q = true → q ∈ second

/-- The points that verification pairs with those of a proof, with the point of the inputs. -/
structure KeyPoints (first : Set G1) (second : Set G2) (vk : VerifyingKey G1 G2) (inputs : G1) :
    Prop where
  alpha : vk.alpha ∈ first
  beta : vk.beta ∈ second
  gamma : vk.gamma ∈ second
  delta : vk.delta ∈ second
  inputs : inputs ∈ first

section Pairing

variable {T R : Type} [Mul T] [One T] [CommGroup R] {product? : List (G1 × G2) → Option T}
  {value : R → T} {pair : G1 → G2 → R} {first : Set G1} {second : Set G2}

theorem IsPairing.zero_pair (h : IsPairing product? value pair) (Q : G2.members) :
    pair (ofMember (0 : members)) (ofMember Q) = 1 := by
  have hsum := h.add_pair 0 0 Q
  rwa [← Point.ofMember_add, add_zero, left_eq_mul] at hsum

theorem IsPairing.pair_zero (h : IsPairing product? value pair) (P : members) :
    pair (ofMember P) (ofMember (0 : G2.members)) = 1 := by
  have hsum := h.pair_add P 0 0
  rwa [← Point.ofMember_add, add_zero, left_eq_mul] at hsum

theorem IsPairing.neg_pair (h : IsPairing product? value pair) {p : G1} {q : G2}
    (hp : G1.isMember p = true) (hq : G2.isMember q = true) : pair p.neg q = (pair p q)⁻¹ := by
  obtain ⟨P, rfl⟩ := G1.isMember_iff.mp hp
  obtain ⟨Q, rfl⟩ := G2.isMember_iff.mp hq
  have hsum := h.add_pair (-P) P Q
  rw [← Point.ofMember_add, neg_add_cancel, h.zero_pair, Point.ofMember_neg] at hsum
  exact eq_inv_of_mul_eq_one_left hsum.symm

theorem IsPairing.pair_neg (h : IsPairing product? value pair) {p : G1} {q : G2}
    (hp : G1.isMember p = true) (hq : G2.isMember q = true) : pair p q.neg = (pair p q)⁻¹ := by
  obtain ⟨P, rfl⟩ := G1.isMember_iff.mp hp
  obtain ⟨Q, rfl⟩ := G2.isMember_iff.mp hq
  have hsum := h.pair_add P (-Q) Q
  rw [← Point.ofMember_add, neg_add_cancel, h.pair_zero, Point.ofMember_neg] at hsum
  exact eq_inv_of_mul_eq_one_left hsum.symm

/-- Sums on the first side become products. -/
theorem IsPairing.nsmul_pair (h : IsPairing product? value pair) (n : Nat) (P : members)
    (Q : G2.members) :
    pair (ofMember (n • P)) (ofMember Q) = pair (ofMember P) (ofMember Q) ^ n := by
  induction n with
  | zero => rw [zero_smul, h.zero_pair, pow_zero]
  | succ n ih => rw [add_smul, one_smul, Point.ofMember_add, h.add_pair, ih, pow_succ]

/-- What a bilinear pairing of members does is enough on them. -/
theorem IsPairing.pairsOn_members (h : IsPairing product? value pair) :
    PairsOn product? value pair {p | G1.isMember p = true} {q | G2.isMember q = true} where
  value_injective := h.value_injective
  value_mul := h.value_mul
  product_eq := h.product_eq
  pair_neg := h.pair_neg
  neg_mem hq := (G2.isMember_neg _).trans hq
  mem_first := id
  mem_second := id

/-- For a key of members the points may be all the members there are. -/
theorem keyPoints_of_members {vk : VerifyingKey G1 G2} (hvk : Storable.Members vk) {inputs : G1}
    (hinputs : G1.isMember inputs = true) :
    KeyPoints {p | G1.isMember p = true} {q | G2.isMember q = true} vk inputs :=
  ⟨hvk.1, hvk.2.1, hvk.2.2.1, hvk.2.2.2.1, hinputs⟩

/-- What a key and a proof of members have to satisfy, where `p` is the sum of the statement's points by
the inputs. -/
def Balanced (pair : G1 → G2 → R) (vk : VerifyingKey G1 G2) (proof : Proof G1 G2) (p : G1) : Prop :=
  pair proof.a proof.b = pair vk.alpha vk.beta * (pair p vk.gamma * pair proof.c vk.delta)

/-- The product of the contract is one if the pairings are as verification wants them. -/
theorem product?_eq_one_iff (h : IsPairing product? value pair) {vk : VerifyingKey G1 G2}
    (hvk : Storable.Members vk) {proof : Proof G1 G2} (hproof : Storable.Members proof) (P : members) :
    product? [(proof.a.neg, proof.b), (vk.alpha, vk.beta), (ofMember P, vk.gamma),
        (proof.c, vk.delta)] = some 1 ↔
      Balanced pair vk proof (ofMember P) := by
  obtain ⟨halpha, hbeta, hgamma, hdelta, -⟩ := hvk
  obtain ⟨ha, hb, hc⟩ := hproof
  have hmembers : ∀ pq ∈ [(proof.a.neg, proof.b), (vk.alpha, vk.beta), (ofMember P, vk.gamma),
      (proof.c, vk.delta)], G1.isMember pq.1 = true ∧ G2.isMember pq.2 = true := by
    simp only [List.forall_mem_cons]
    exact ⟨⟨(G1.isMember_neg _).trans ha, hb⟩, ⟨halpha, hbeta⟩, ⟨Point.isMember_ofMember P, hgamma⟩,
      ⟨hc, hdelta⟩, nofun⟩
  rw [h.product_eq hmembers, Option.some.injEq, ← h.value_one, h.value_injective.eq_iff]
  simp only [List.map_cons, List.map_nil, List.prod_cons, List.prod_nil, mul_one, h.neg_pair ha hb]
  exact inv_mul_eq_one

omit [One T] in
/-- With the second points of the inputs and of `C` negated, one product is compared with the pairing of
the key's first points. -/
theorem PairsOn.product?_negated_eq_iff (h : PairsOn product? value pair first second)
    {vk : VerifyingKey G1 G2} {inputs : G1} (hkey : KeyPoints first second vk inputs)
    {proof : Proof G1 G2} (hproof : Storable.Members proof) :
    product? [(proof.a, proof.b), (inputs, vk.gamma.neg), (proof.c, vk.delta.neg)] =
        product? [(vk.alpha, vk.beta)] ↔ Balanced pair vk proof inputs := by
  obtain ⟨ha, hb, hc⟩ := hproof
  have hc' := h.mem_first hc
  have hpoints : ∀ pq ∈ [(proof.a, proof.b), (inputs, vk.gamma.neg), (proof.c, vk.delta.neg)],
      pq.1 ∈ first ∧ pq.2 ∈ second := by
    simp only [List.forall_mem_cons]
    exact ⟨⟨h.mem_first ha, h.mem_second hb⟩, ⟨hkey.inputs, h.neg_mem hkey.gamma⟩,
      ⟨hc', h.neg_mem hkey.delta⟩, nofun⟩
  have hfixed : ∀ pq ∈ [(vk.alpha, vk.beta)], pq.1 ∈ first ∧ pq.2 ∈ second := by
    simpa using ⟨hkey.alpha, hkey.beta⟩
  rw [h.product_eq hpoints, h.product_eq hfixed, Option.some.injEq, h.value_injective.eq_iff]
  simp only [List.map_cons, List.map_nil, List.prod_cons, List.prod_nil, mul_one,
    h.pair_neg hkey.inputs hkey.gamma, h.pair_neg hc' hkey.delta]
  rw [← mul_inv, mul_inv_eq_iff_eq_mul]
  rfl

/-! ## Verification -/

variable [DecidableEq T]

omit [One T] in
/-- With a key whose points pair, verification looks at the points of the proof and then at the
pairings. -/
theorem PairsOn.verify_eq (h : PairsOn product? value pair first second)
    {vk : VerifyingKey G1 G2} {start inputs : G1} {bases : List G1} {shown : List Scalar}
    (hstatement : vk.statement = start :: bases) (hshown : shown.length = bases.length)
    (hinputs : inputs = G1.group.add start (G1.group.combine shown bases))
    (hkey : KeyPoints first second vk inputs) (proof : Proof G1 G2) :
    vk.verify (groupsWith product?) shown proof =
      match proof.malformed? (groupsWith product?) with
      | some element => .error (.malformedProof element)
      | none => .ok (decide (value (pair proof.a proof.b) =
          value (pair vk.alpha vk.beta) *
            value (pair inputs vk.gamma * pair proof.c vk.delta))) := by
  have hlength : shown.length = vk.numShown := by
    rw [VerifyingKey.numShown, hstatement, List.length_cons, hshown, Nat.add_sub_cancel]
  have hfixed : product? [(vk.alpha, vk.beta)] = some _ :=
    h.product_eq (by simpa using ⟨hkey.alpha, hkey.beta⟩)
  have hprepare : vk.prepare (groupsWith product?) = .ok ⟨vk, value (pair vk.alpha vk.beta)⟩ := by
    simp [VerifyingKey.prepare, groupsWith, hfixed]
  have hsum : (groupsWith product?).first.add start
      ((groupsWith product?).first.combine shown bases) = inputs := hinputs.symm
  simp only [VerifyingKey.verify, hprepare, bind, Except.bind, PreparedKey.verify, hstatement, hsum]
  rw [if_neg (not_not.mpr hlength)]
  cases hmalformed : proof.malformed? (groupsWith product?) with
  | some element => rfl
  | none =>
    obtain ⟨ha, hb, hc⟩ := Proof.malformed?_eq_none_iff.mp hmalformed
    have hleft : product? [(proof.a, proof.b)] = some _ :=
      h.product_eq (by simpa using ⟨h.mem_first ha, h.mem_second hb⟩)
    have hright : product? [(inputs, vk.gamma), (proof.c, vk.delta)] = some _ :=
      h.product_eq (by simpa using ⟨⟨hkey.inputs, hkey.gamma⟩, h.mem_first hc, hkey.delta⟩)
    simp only [groupsWith, hleft, hright]
    simp

omit [Mul T] [One T] [CommGroup R] [DecidableEq T] in
/-- Where the points of a statement are members, adding up is done in their group. -/
theorem add_combine_eq_inputSum {start : G1} {bases : List G1} {points : List members}
    (hpoints : start :: bases = points.map ofMember) (shown : List Scalar) :
    G1.group.add start (G1.group.combine shown bases) =
      ofMember (inputSum points (shown.map (·.val))) := by
  obtain _ | ⟨S, Bs⟩ := points
  · cases hpoints
  · obtain ⟨rfl, rfl⟩ := List.cons.inj hpoints
    rw [G1.combine_ofMember]
    exact (Point.ofMember_add ..).symm

/-- For a key of members, a proof is accepted if its points are members and balance. -/
theorem verify_eq_ok_true_iff (h : IsPairing product? value pair) {vk : VerifyingKey G1 G2}
    (hvk : Storable.Members vk) {points : List members} (hpoints : vk.statement = points.map ofMember)
    {shown : List Scalar} (hlength : shown.length + 1 = points.length) {proof : Proof G1 G2} :
    vk.verify (groupsWith product?) shown proof = .ok true ↔ Storable.Members proof ∧
      Balanced pair vk proof (ofMember (inputSum points (shown.map (·.val)))) := by
  have hcount : vk.statement.length = points.length := by rw [hpoints, List.length_map]
  cases hstatement : vk.statement with
  | nil =>
    rw [hstatement, List.length_nil, ← hlength] at hcount
    cases hcount
  | cons start bases =>
    have hshown : shown.length = bases.length := by
      rw [hstatement, List.length_cons, ← hlength] at hcount
      exact (Nat.succ.inj hcount).symm
    have hinputs := add_combine_eq_inputSum (hstatement.symm.trans hpoints) shown
    have hkey := keyPoints_of_members hvk
      (Point.isMember_ofMember (inputSum points (shown.map (·.val))))
    have hmalformed : proof.malformed? (groupsWith product?) = none ↔ Storable.Members proof :=
      Proof.malformed?_eq_none_iff
    rw [h.pairsOn_members.verify_eq hstatement hshown hinputs.symm hkey, ← hmalformed]
    cases proof.malformed? (groupsWith product?) with
    | some element => simp
    | none => simp [Balanced, ← h.value_mul, h.value_injective.eq_iff]

/-- The contract of a key of members accepts the same proofs as verification with the key. -/
theorem accepts_iff_verify (h : IsPairing product? value pair) {vk : VerifyingKey G1 G2}
    (hvk : Storable.Members vk) (hlimit : vk.statement.length < wordLimit) (words : ProofWords)
    (input : List Nat) :
    accepts (groupsWith product?) vk words input = true ↔
      input.length = vk.numShown ∧ vk.statement ≠ [] ∧ (∀ k ∈ input, k < scalarModulus) ∧
        ∃ proof, words.reduced.text.toProof = .ok proof ∧
          vk.verify (groupsWith product?) (input.map Residue.ofNat) proof = .ok true := by
  obtain ⟨points, hpoints⟩ := Point.exists_map_ofMember hvk.2.2.2.2
  have hlength : input.length + 1 = points.length ↔
      input.length = vk.numShown ∧ vk.statement ≠ [] := by
    rw [VerifyingKey.numShown, hpoints, List.length_map]
    cases points with
    | nil => simp
    | cons start bases => simp
  rw [hpoints, List.length_map] at hlimit
  rw [accepts_iff_pairing hpoints hlimit, hlength, and_assoc, and_assoc]
  refine and_congr_right fun hshown => and_congr_right fun hne => and_congr_right fun hscalars => ?_
  have hvalues : (input.map (Residue.ofNat : Nat → Scalar)).map (·.val) = input := by
    rw [List.map_map]
    exact (List.map_congr_left fun k hk => Nat.mod_eq_of_lt (hscalars k hk)).trans (List.map_id _)
  have hinput : (input.map (Residue.ofNat : Nat → Scalar)).length + 1 = points.length := by
    rw [List.length_map]
    exact hlength.mpr ⟨hshown, hne⟩
  simp only [pairs?_pairingWords hvk, ProofWords.toProof_text_eq_ok_iff, Option.map_eq_some_iff,
    verify_eq_ok_true_iff h hvk hpoints hinput, hvalues]
  constructor
  · rintro ⟨_, ⟨proof, hproof, rfl⟩, hproduct⟩
    have hmembers := (ProofWords.proof?_eq_some_iff.mp hproof).1
    exact ⟨proof, hproof, hmembers, (product?_eq_one_iff h hvk hmembers _).mp hproduct⟩
  · rintro ⟨proof, hproof, hmembers, hpair⟩
    exact ⟨_, ⟨proof, hproof, rfl⟩, (product?_eq_one_iff h hvk hmembers _).mpr hpair⟩

end Pairing

/-! ## A pairing by logarithms -/

noncomputable def logarithm₁ : G1 → ZMod scalarModulus :=
  Classical.choose (Point.exists_logarithm_ofMember G1.isMember_generator nofun)

noncomputable def logarithm₂ : G2 → ZMod scalarModulus :=
  Classical.choose (Point.exists_logarithm_ofMember G2.isMember_generator nofun)

theorem logarithm₁_generator : logarithm₁ G1.generator = 1 :=
  (Classical.choose_spec (Point.exists_logarithm_ofMember G1.isMember_generator nofun)).1

theorem logarithm₁_add (P Q : G1.members) : logarithm₁ ((ofMember P).add (ofMember Q)) =
    logarithm₁ (ofMember P) + logarithm₁ (ofMember Q) :=
  (Classical.choose_spec (Point.exists_logarithm_ofMember G1.isMember_generator nofun)).2 P Q

theorem logarithm₂_generator : logarithm₂ G2.generator = 1 :=
  (Classical.choose_spec (Point.exists_logarithm_ofMember G2.isMember_generator nofun)).1

theorem logarithm₂_add (P Q : G2.members) : logarithm₂ ((ofMember P).add (ofMember Q)) =
    logarithm₂ (ofMember P) + logarithm₂ (ofMember Q) :=
  (Classical.choose_spec (Point.exists_logarithm_ofMember G2.isMember_generator nofun)).2 P Q

/-- The pairing of multiples of the generators, as a power of the pairing of the generators. -/
noncomputable def logarithmPair (p : G1) (q : G2) : Multiplicative (ZMod scalarModulus) :=
  .ofAdd (logarithm₁ p * logarithm₂ q)

noncomputable def logarithmProduct? (pairs : List (G1 × G2)) :
    Option (Multiplicative (ZMod scalarModulus)) :=
  some (pairs.map fun pq => logarithmPair pq.1 pq.2).prod

/-- There is a pairing of the two groups, so what is asked of one can be met. -/
theorem isPairing_logarithm : IsPairing logarithmProduct? id logarithmPair where
  value_injective := Function.injective_id
  value_one := rfl
  value_mul _ _ := rfl
  product_eq _ := rfl
  add_pair P Q R := by
    simp only [logarithmPair, logarithm₁_add, add_mul, ofAdd_add]
  pair_add P Q R := by
    simp only [logarithmPair, logarithm₂_add, mul_add, ofAdd_add]

def generatorKey : VerifyingKey G1 G2 where
  alpha := G1.generator.neg
  beta := G2.generator
  gamma := G2.generator
  delta := G2.generator
  statement := [G1.generator, G1.generator]

def generatorProof : Proof G1 G2 := ⟨G1.generator, G2.generator, G1.generator.neg⟩

/-- The words of the proof, the second one not reduced. -/
def generatorWords : ProofWords where
  a := (1, baseModulus + 2)
  b :=
    ((11559732032986387107991004021392285783925812861821192530917403151452391805634,
        10857046999023057135944570762232829481370756359578518086990519993285655852781),
      (4082367875863433681332203403145435568316851327593401208105741076214120093531,
        8495653923123431417604973247489272438418190587263600148770280649306958101930))
  c := (1, baseModulus - 2)

theorem members_generatorKey : Storable.Members generatorKey := by
  have hneg := (G1.isMember_neg G1.generator).trans G1.isMember_generator
  refine ⟨hneg, G2.isMember_generator, G2.isMember_generator, G2.isMember_generator, fun p hp => ?_⟩
  simp only [generatorKey, List.mem_cons, List.not_mem_nil, or_false, or_self] at hp
  exact hp ▸ G1.isMember_generator

/-- In logarithms, `1 = -1 + (1 + k) - 1`. -/
theorem verify_generatorProof (k : Nat) :
    generatorKey.verify (groupsWith logarithmProduct?) [Residue.ofNat k] generatorProof = .ok true ↔
      (k : ZMod scalarModulus) = 2 := by
  obtain ⟨P, hP⟩ := G1.isMember_iff.mp G1.isMember_generator
  obtain ⟨Q, hQ⟩ := G2.isMember_iff.mp G2.isMember_generator
  have hpoints : generatorKey.statement = [P, P].map ofMember := by
    rw [List.map_cons, List.map_cons, hP]
    rfl
  have hmembers : Storable.Members generatorProof :=
    ⟨G1.isMember_generator, G2.isMember_generator,
      (G1.isMember_neg G1.generator).trans G1.isMember_generator⟩
  have hgenerators : logarithmPair G1.generator G2.generator = .ofAdd 1 := by
    rw [logarithmPair, logarithm₁_generator, logarithm₂_generator, mul_one]
  have hneg : logarithmPair G1.generator.neg G2.generator = .ofAdd (-1) := by
    rw [isPairing_logarithm.neg_pair G1.isMember_generator G2.isMember_generator, hgenerators,
      ofAdd_neg]
  have hsum : logarithmPair
      (ofMember (inputSum [P, P] ([(Residue.ofNat k : Scalar)].map (·.val)))) G2.generator =
        .ofAdd ((k : ZMod scalarModulus) + 1) := by
    have hmultiple : inputSum [P, P] ([(Residue.ofNat k : Scalar)].map (·.val)) = (k + 1) • P := by
      simp [inputSum, Point.mod_nsmul, add_smul, add_comm]
    rw [hmultiple, ← hQ, isPairing_logarithm.nsmul_pair, hP, hQ, hgenerators, ← ofAdd_nsmul,
      nsmul_one, Nat.cast_succ]
  rw [verify_eq_ok_true_iff isPairing_logarithm members_generatorKey hpoints rfl, and_iff_right hmembers,
    Balanced]
  simp only [generatorKey, generatorProof] at hsum ⊢
  rw [hgenerators, hneg, hsum, ← ofAdd_add, ← ofAdd_add, Multiplicative.ofAdd.injective.eq_iff]
  constructor
  · intro h
    linear_combination -h
  · intro h
    linear_combination -h

/-- The contract of the key accepts the proof for the input two, and not for the input three. -/
theorem accepts_iff_verify_generators :
    IsPairing logarithmProduct? id logarithmPair ∧ Storable.Members generatorKey ∧
      generatorKey.statement.length < wordLimit ∧
      accepts (groupsWith logarithmProduct?) generatorKey generatorWords [2] = true ∧
      accepts (groupsWith logarithmProduct?) generatorKey generatorWords [3] = false := by
  have hlimit : generatorKey.statement.length < wordLimit := by decide
  have hproof : generatorWords.reduced.text.toProof = .ok generatorProof :=
    ProofWords.toProof_text_eq_ok_iff.mpr (by decide +kernel)
  have hiff := accepts_iff_verify isPairing_logarithm members_generatorKey hlimit generatorWords
  refine ⟨isPairing_logarithm, members_generatorKey, hlimit, ?_, ?_⟩
  · exact (hiff [2]).mpr ⟨rfl, nofun, by decide, generatorProof, hproof,
      (verify_generatorProof 2).mpr rfl⟩
  · rw [Bool.eq_false_iff]
    intro haccepts
    obtain ⟨-, -, -, proof, hother, hverify⟩ := (hiff [3]).mp haccepts
    cases hproof.symm.trans hother
    have hthree := (verify_generatorProof 3).mp hverify
    exact absurd hthree (by decide)

end Contract

end CircuitProof
