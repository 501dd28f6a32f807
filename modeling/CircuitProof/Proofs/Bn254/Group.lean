import CircuitProof.Bn254.Engine
import CircuitProof.Proofs.Bn254.Extension
import CircuitProof.Proofs.Bn254.Fields
import CircuitProof.Proofs.Curve.Members

/-!
# The members of the two point groups

Both curves are smooth and neither field has characteristic two, so what holds of the members of a group
of points holds of both groups.
-/

namespace CircuitProof

instance : NeZero (2 : Base) := ⟨by decide +kernel⟩
instance : NeZero (2 : Base2) := ⟨by decide +kernel⟩

instance : SmoothCurve G1.coefficient := ⟨by decide +kernel⟩
instance : SmoothCurve G2.coefficient := ⟨by decide +kernel⟩

namespace G1

open Point (ofMember)

abbrev members : AddSubgroup (curve coefficient).Point := Point.members coefficient scalarModulus

theorem isMember_iff {p : G1} : isMember p = true ↔ ∃ P : members, ofMember P = p :=
  Point.isMember_iff

theorem isMember_neg (p : G1) : isMember p.neg = isMember p := Point.isMember_neg p

theorem isMember_generator : isMember generator = true := by decide +kernel

/-- Scalars multiply the members beside them. -/
theorem combine_ofMember (scalars : List Scalar) (points : List members) :
    group.combine scalars (points.map ofMember) =
      ofMember (((scalars.map (·.val)).zip points).map fun term => term.1 • term.2).sum := by
  have hscalars : ∀ n ∈ scalars.map (·.val), n < 2 ^ scalarBits := by
    intro n hn
    obtain ⟨k, _, rfl⟩ := List.mem_map.mp hn
    exact k.lt.trans (by decide)
  exact Point.combine_ofMember (by decide) hscalars points

end G1

namespace G2

open Point (ofMember)

abbrev members : AddSubgroup (curve coefficient).Point := Point.members coefficient scalarModulus

theorem isMember_iff {p : G2} : isMember p = true ↔ ∃ P : members, ofMember P = p :=
  Point.isMember_iff

theorem isMember_neg (p : G2) : isMember p.neg = isMember p := Point.isMember_neg p

theorem isMember_generator : isMember generator = true := by decide +kernel

end G2

end CircuitProof
