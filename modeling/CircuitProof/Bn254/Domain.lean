import CircuitProof.Field.Residue
import CircuitProof.Polynomial.Domain

/-!
# The fields of BN254 and their evaluation domains

Circuits and witnesses live in the scalar field; the coordinates of curve points live in the base
field and its quadratic extension. Both moduli have 254 bits.
-/

namespace CircuitProof

/-- The order of both point groups. -/
def scalarModulus : Nat :=
  21888242871839275222246405745257275088548364400416034343698204186575808495617

/-- The characteristic of the coordinate fields. -/
def baseModulus : Nat :=
  21888242871839275222246405745257275088696311157297823662689037894645226208583

def scalarBits : Nat := 254

instance : Modulus scalarModulus := ⟨by decide⟩
instance : Modulus baseModulus := ⟨by decide⟩

abbrev Scalar := Residue scalarModulus
abbrev Base := Residue baseModulus

/-! ## Evaluation domains

The number five generates the multiplicative group, whose order is divisible by `2 ^ 28` and by no
higher power of two.
-/

def scalarGenerator : Scalar := Residue.ofNat 5

instance : RadixTwo Scalar where
  maxLog := 28
  root k := power scalarGenerator ((scalarModulus - 1) / Nat.pow 2 k)
  shift := scalarGenerator

/-! ## The quadratic extension

`Base2` adjoins a root `u` of `u² + 1`; the second point group has its coordinates there. Square
roots are offered by exponentiation and then checked, so a root that is returned squares to its
argument whatever the field.
-/

/-- The element `c0 + c1·u` with `u² = -1`. -/
structure Base2 where
  c0 : Base
  c1 : Base
  deriving DecidableEq

namespace Base2

instance : Zero Base2 := ⟨⟨0, 0⟩⟩
instance : One Base2 := ⟨⟨1, 0⟩⟩
instance : Add Base2 := ⟨fun a b => ⟨a.c0 + b.c0, a.c1 + b.c1⟩⟩
instance : Sub Base2 := ⟨fun a b => ⟨a.c0 - b.c0, a.c1 - b.c1⟩⟩
instance : Neg Base2 := ⟨fun a => ⟨-a.c0, -a.c1⟩⟩
instance : Inhabited Base2 := ⟨0⟩

protected def mul (a b : Base2) : Base2 :=
  ⟨Residue.mulSub a.c0 b.c0 a.c1 b.c1, Residue.mulAdd a.c0 b.c1 a.c1 b.c0⟩

instance : Mul Base2 := ⟨Base2.mul⟩

def conj (a : Base2) : Base2 := ⟨a.c0, -a.c1⟩

def norm (a : Base2) : Base := Residue.mulAdd a.c0 a.c0 a.c1 a.c1

def scale (k : Base) (a : Base2) : Base2 := ⟨k * a.c0, k * a.c1⟩

protected def inv (a : Base2) : Base2 := scale a.norm⁻¹ a.conj

instance : Inv Base2 := ⟨Base2.inv⟩

end Base2

/-- A root of `a`, if the power `(q + 1) / 4` finds one; `q` is three modulo four. -/
def Base.sqrt? (a : Base) : Option Base :=
  let root := power a ((baseModulus + 1) / 4)
  if root * root = a then some root else none

def Base.half : Base := Residue.ofNat ((baseModulus + 1) / 2)

namespace Base2

/-- A root of an element that lies in the base field: real, or a multiple of `u`. -/
def sqrtBase? (a : Base) : Option Base2 :=
  match Base.sqrt? a with
  | some root => some ⟨root, 0⟩
  | none => (Base.sqrt? (-a)).map fun root => ⟨0, root⟩

/-- A root `x + y·u` of an element with a `u` part: `2x²` is `c0` plus or minus the root of the
norm, and `y` is the `u` part divided by `2x`. -/
def sqrtMixed? (a : Base2) : Option Base2 := do
  let s ← Base.sqrt? a.norm
  let x ← (Base.sqrt? ((a.c0 + s) * Base.half)).or (Base.sqrt? ((a.c0 - s) * Base.half))
  some ⟨x, a.c1 * (x + x)⁻¹⟩

def sqrt? (a : Base2) : Option Base2 := do
  let root ← if a.c1 = 0 then sqrtBase? a.c0 else sqrtMixed? a
  if root * root = a then some root else none

end Base2

end CircuitProof
