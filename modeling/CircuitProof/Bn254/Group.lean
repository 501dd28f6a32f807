import CircuitProof.Bn254.Domain
import CircuitProof.Curve.Point

/-!
# The two point groups of BN254

`G1` holds points over the base field with `y² = x³ + 3`, `G2` points over its quadratic extension
with `y² = x³ + 3 / (9 + u)`. A point is a member of its group when it lies on the curve and the
group order takes it to infinity.
-/

namespace CircuitProof

abbrev G1 := Point Base
abbrev G2 := Point Base2

namespace G1

def coefficient : Base := Residue.ofNat 3

def generator : G1 := .finite 1 (Residue.ofNat 2)

def isMember (p : G1) : Bool :=
  p.onCurve coefficient && Point.multiple scalarModulus p = .infinity

@[simp] theorem isMember_infinity : isMember .infinity = true := rfl

/-- Two zeros are no point of the curve, so they are free to stand for infinity. -/
@[simp] theorem isMember_zero : isMember (.finite 0 0) = false := by decide +kernel

end G1

namespace G2

/-- The element `9 + u`, neither a square nor a cube, by which the curve is twisted. -/
def twist : Base2 := ⟨Residue.ofNat 9, 1⟩

def coefficient : Base2 := Base2.scale G1.coefficient twist⁻¹

def generator : G2 :=
  .finite
    ⟨Residue.ofNat
        10857046999023057135944570762232829481370756359578518086990519993285655852781,
      Residue.ofNat
        11559732032986387107991004021392285783925812861821192530917403151452391805634⟩
    ⟨Residue.ofNat
        8495653923123431417604973247489272438418190587263600148770280649306958101930,
      Residue.ofNat
        4082367875863433681332203403145435568316851327593401208105741076214120093531⟩

def isMember (p : G2) : Bool :=
  p.onCurve coefficient && Point.multiple scalarModulus p = .infinity

@[simp] theorem isMember_infinity : isMember .infinity = true := rfl

/-- Two zeros are no point of the curve, so they are free to stand for infinity. -/
@[simp] theorem isMember_zero : isMember (.finite 0 0) = false := by decide +kernel

end G2

/-! ## Points from their first coordinates

A point off infinity is known by its first coordinate and by which of its two possible second
coordinates it has: the larger or the smaller. Base field elements are compared as numbers, elements
of the extension by their `u` parts first. A second coordinate that is its own negative counts as the
smaller.
-/

def Base.isLarger (y : Base) : Bool := (-y).val < y.val

def Base2.isLarger (y : Base2) : Bool :=
  let n := -y
  if n.c1 = y.c1 then n.c0.val < y.c0.val else n.c1.val < y.c1.val

/-- The root or its negative, as asked. -/
def choose {K : Type} [Neg K] (isLarger : K → Bool) (larger : Bool) (root : K) : K :=
  if isLarger root = larger then root else -root

def G1.ofX? (x : Base) (larger : Bool) : Option G1 :=
  (Base.sqrt? (x * x * x + G1.coefficient)).map fun root =>
    .finite x (choose Base.isLarger larger root)

def G2.ofX? (x : Base2) (larger : Bool) : Option G2 :=
  (Base2.sqrt? (x * x * x + G2.coefficient)).map fun root =>
    .finite x (choose Base2.isLarger larger root)

end CircuitProof
