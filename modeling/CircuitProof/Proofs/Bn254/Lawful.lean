import CircuitProof.Proofs.Argument.Groups
import CircuitProof.Proofs.Bn254.Endomorphism

/-!
# The two point groups are lawful

The operations on coordinates are those of the members, on which scalars act by their least numbers.
So both groups are vector spaces on their members, and combinations come to the sums of the
multiples.
-/

namespace CircuitProof

namespace Point

variable {K : Type} [Field K] [DecidableEq K]

def group (b : K) (generator : Point K) (scaleMember : Scalar → Point K → Point K) :
    PointGroup Scalar (Point K) where
  zero := infinity
  add := add
  neg := neg
  scale k p := p.multiple k.val
  scaleMember := scaleMember
  combine scalars points := combine scalarBits (scalars.map (·.val)) points
  generator := generator
  isMember := isMember b scalarModulus

variable [NeZero (2 : K)] {b : K} {generator : Point K} {scaleMember : Scalar → Point K → Point K}

/-- Coordinates are added as the members are. -/
theorem add_ofMember (P Q : members b scalarModulus) :
    (group b generator scaleMember).add (ofMember P) (ofMember Q) = ofMember (P + Q) :=
  (ofMember_add P Q).symm

theorem scale_ofMember (k : Scalar) (P : members b scalarModulus) :
    (group b generator scaleMember).scale k (ofMember P) = ofMember (k.val • P) :=
  (ofMember_nsmul k.val P).symm

omit [NeZero (2 : K)] in
theorem neg_ofMember (P : members b scalarModulus) :
    (group b generator scaleMember).neg (ofMember P) = ofMember (-P) :=
  (ofMember_neg P).symm

/-- The combination adds up the multiples. -/
theorem combine_eq_foldr (scalars : List Scalar) (Ps : List (members b scalarModulus)) :
    (group b generator scaleMember).combine scalars (Ps.map ofMember) =
      (List.zipWith (group b generator scaleMember).scale scalars (Ps.map ofMember)).foldr
        (group b generator scaleMember).add (group b generator scaleMember).zero := by
  have hscalars : ∀ n ∈ scalars.map (·.val), n < 2 ^ scalarBits := by
    intro n hn
    obtain ⟨k, -, rfl⟩ := List.mem_map.mp hn
    exact k.lt.trans (by decide)
  refine (combine_ofMember (by decide) hscalars Ps).trans ?_
  clear hscalars
  induction scalars generalizing Ps with
  | nil => rfl
  | cons k scalars ih =>
    cases Ps with
    | nil => rfl
    | cons P Ps =>
      simp only [List.map_cons, List.zip_cons_cons, List.sum_cons, List.zipWith_cons_cons,
        List.foldr_cons, ← ih, scale_ofMember, add_ofMember]

variable [SmoothCurve b]

/-- Operations on coordinates make a lawful group. -/
theorem group_lawful (hgenerator : isMember b scalarModulus generator = true)
    (hscaleMember : ∀ k (P : members b scalarModulus),
      scaleMember k (ofMember P) = (ofMember P).multiple k.val) :
    (group b generator scaleMember).Lawful where
  generator_mem := hgenerator
  zero_mem := isMember_ofMember (0 : members b scalarModulus)
  add_mem hp hq := by
    obtain ⟨P, rfl⟩ := isMember_iff.mp hp
    obtain ⟨Q, rfl⟩ := isMember_iff.mp hq
    rw [add_ofMember]
    exact isMember_ofMember _
  neg_mem hp := by
    obtain ⟨P, rfl⟩ := isMember_iff.mp hp
    rw [neg_ofMember]
    exact isMember_ofMember _
  scale_mem k _ hp := by
    obtain ⟨P, rfl⟩ := isMember_iff.mp hp
    rw [scale_ofMember]
    exact isMember_ofMember _
  add_assoc hp hq hr := by
    obtain ⟨P, rfl⟩ := isMember_iff.mp hp
    obtain ⟨Q, rfl⟩ := isMember_iff.mp hq
    obtain ⟨R, rfl⟩ := isMember_iff.mp hr
    simp only [add_ofMember, add_assoc]
  add_comm hp hq := by
    obtain ⟨P, rfl⟩ := isMember_iff.mp hp
    obtain ⟨Q, rfl⟩ := isMember_iff.mp hq
    rw [add_ofMember, add_ofMember, add_comm]
  zero_add _ := infinity_add _
  neg_add hp := by
    obtain ⟨P, rfl⟩ := isMember_iff.mp hp
    rw [neg_ofMember, add_ofMember, neg_add_cancel]
    rfl
  one_scale hp := by
    obtain ⟨P, rfl⟩ := isMember_iff.mp hp
    have hone : (1 : Scalar).val = 1 := rfl
    rw [scale_ofMember, hone, one_smul]
  mul_scale j k _ hp := by
    obtain ⟨P, rfl⟩ := isMember_iff.mp hp
    rw [scale_ofMember, scale_ofMember, scale_ofMember, Residue.val_mul, mod_nsmul, mul_smul]
  add_scale j k _ hp := by
    obtain ⟨P, rfl⟩ := isMember_iff.mp hp
    rw [scale_ofMember, scale_ofMember, scale_ofMember, add_ofMember, Residue.val_add, mod_nsmul,
      add_smul]
  scaleMember_eq k _ hp := by
    obtain ⟨P, rfl⟩ := isMember_iff.mp hp
    exact hscaleMember k P
  combine_eq scalars points hpoints := by
    obtain ⟨Ps, rfl⟩ := exists_map_ofMember hpoints
    exact combine_eq_foldr scalars Ps

end Point

theorem G1.group_lawful : G1.group.Lawful :=
  Point.group_lawful isMember_generator fun k P => splitMultiple_ofMember k.val P

theorem G2.group_lawful : G2.group.Lawful :=
  Point.group_lawful isMember_generator fun _ _ => rfl

end CircuitProof
