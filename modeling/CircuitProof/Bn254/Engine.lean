import CircuitProof.Argument.Keys
import CircuitProof.Bn254.Group
import CircuitProof.Bn254.Pairing
import CircuitProof.Curve.Combination

/-!
# The groups of BN254 as the argument uses them
-/

namespace CircuitProof

/-! ## Multiples along an endomorphism

The map `(x, y) ↦ (β x, y)`, with a cube root of unity `β`, takes each member of the first group to its
multiple by a fixed scalar `λ`. A scalar `k` is split as `k₁ + λ k₂` with parts of half its length, and
one run of doublings serves both parts. Only on members is the map a multiple: from a pair of
coordinates off the curve the run may lead elsewhere than repeated addition does.
-/

namespace G1

def rootOfUnity : Base :=
  Residue.ofNat 21888242871839275220042445260109153167277707414472061641714758635765020556616

/-- The scalar by which the endomorphism multiplies members. -/
def eigenvalue : Nat :=
  21888242871839275217838484774961031246154997185409878258781734729429964517155

def endomorphism : G1 → G1
  | .infinity => .infinity
  | .finite x y => .finite (rootOfUnity * x) y

@[simp] theorem endomorphism_infinity : endomorphism .infinity = .infinity := rfl

/-! ### Splitting a scalar

The pairs `(long₁, -short)` and `(short, long₂)` span the pairs `(i, j)` for which the group order
divides `i + λ j`. What is left of `(k, 0)` after whole numbers of both are taken off it is short and has
the value of `k`.
-/

def short : Nat := 9931322734385697763
def long₁ : Nat := 147946756881789319000765030803803410728
def long₂ : Nat := 147946756881789319010696353538189108491

def split (k : Nat) : Int × Int :=
  let count₁ := k * long₂ / scalarModulus
  let count₂ := k * short / scalarModulus
  ((k : Int) - count₁ * long₁ - count₂ * short, (count₁ * short : Int) - count₂ * long₂)

/-- The parts of a scalar have its value. -/
theorem dvd_split (k : Nat) :
    (scalarModulus : Int) ∣ (split k).1 + eigenvalue * (split k).2 - k := by
  simp only [split, short, long₁, long₂, eigenvalue, scalarModulus]
  omega

def signed (k : Int) (p : G1) : G1 := if k < 0 then p.neg else p

/-- The digit that stands for a bit of each of two numbers. -/
def jointDigit (p q both : G1) : Bool → Bool → G1
  | false, false => .infinity
  | true, false => p
  | false, true => q
  | true, true => both

/-- The multiple of a member by a scalar, from its multiples by both parts of the scalar. -/
def splitMultiple (k : Nat) (p : G1) : G1 :=
  let (k₁, k₂) := split k
  let p₁ := signed k₁ p
  let p₂ := signed k₂ (endomorphism p)
  let both := p₁.add p₂
  let length := (max k₁.natAbs k₂.natAbs).log2 + 1
  Point.ofDigits ((List.range length).reverse.map fun i =>
    jointDigit p₁ p₂ both (k₁.natAbs.testBit i) (k₂.natAbs.testBit i))

end G1

/-! ## The operations -/

def G1.group : PointGroup Scalar G1 where
  zero := .infinity
  add := Point.add
  neg := Point.neg
  scale k p := p.multiple k.val
  scaleMember k p := G1.splitMultiple k.val p
  combine scalars points := Point.combine scalarBits (scalars.map (·.val)) points
  generator := G1.generator
  isMember := G1.isMember

def G2.group : PointGroup Scalar G2 where
  zero := .infinity
  add := Point.add
  neg := Point.neg
  scale k p := p.multiple k.val
  scaleMember k p := p.multiple k.val
  combine scalars points := Point.combine scalarBits (scalars.map (·.val)) points
  generator := G2.generator
  isMember := G2.isMember

def bn254 : PairingGroups Scalar G1 G2 Base12 where
  first := G1.group
  second := G2.group
  product? := Pairing.product?

end CircuitProof
