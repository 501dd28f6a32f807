import CircuitProof.Bn254.Group

/-!
# The optimal ate pairing

The Miller loop runs over signed digits of `6x + 2` with the second argument kept on the twisted curve,
and adds two further lines at images of the second argument under the Frobenius map. The lines come
from homogeneous coordinates and so only up to a factor in the quadratic extension; evaluated at the
first argument a line is the element `a + b·w + c·w³`. The final power takes the product of all loops
to the group of order `r`, where equal classes become equal elements; it also removes those factors
and the vertical lines, which are left out of the loop.

No line through multiples of a member vanishes at a member. For other points the product of the lines
may be zero, and then there is no pairing.
-/

namespace CircuitProof

/-! ## The extension of degree twelve

Pairing values live in the field of degree twelve over the base field, built as `Base6 = Base2[v]`
with `v³ = 9 + u` and `Base12 = Base6[w]` with `w² = v`.
-/

def Base2.mulTwist (a : Base2) : Base2 := G2.twist * a

/-- The element `c0 + c1·v + c2·v²` with `v³ = 9 + u`. -/
structure Base6 where
  c0 : Base2
  c1 : Base2
  c2 : Base2
  deriving DecidableEq

namespace Base6

instance : Zero Base6 := ⟨⟨0, 0, 0⟩⟩
instance : One Base6 := ⟨⟨1, 0, 0⟩⟩
instance : Add Base6 := ⟨fun a b => ⟨a.c0 + b.c0, a.c1 + b.c1, a.c2 + b.c2⟩⟩
instance : Sub Base6 := ⟨fun a b => ⟨a.c0 - b.c0, a.c1 - b.c1, a.c2 - b.c2⟩⟩
instance : Neg Base6 := ⟨fun a => ⟨-a.c0, -a.c1, -a.c2⟩⟩

protected def mul (a b : Base6) : Base6 :=
  ⟨a.c0 * b.c0 + (a.c1 * b.c2 + a.c2 * b.c1).mulTwist,
    a.c0 * b.c1 + a.c1 * b.c0 + (a.c2 * b.c2).mulTwist,
    a.c0 * b.c2 + a.c1 * b.c1 + a.c2 * b.c0⟩

instance : Mul Base6 := ⟨Base6.mul⟩

def mulV (a : Base6) : Base6 := ⟨a.c2.mulTwist, a.c0, a.c1⟩

/-- The adjugate of multiplication by `a`, divided by its determinant. -/
protected def inv (a : Base6) : Base6 :=
  let t0 := a.c0 * a.c0 - (a.c1 * a.c2).mulTwist
  let t1 := (a.c2 * a.c2).mulTwist - a.c0 * a.c1
  let t2 := a.c1 * a.c1 - a.c0 * a.c2
  let d := (a.c0 * t0 + (a.c2 * t1 + a.c1 * t2).mulTwist)⁻¹
  ⟨t0 * d, t1 * d, t2 * d⟩

instance : Inv Base6 := ⟨Base6.inv⟩

end Base6

/-- The element `c0 + c1·w` with `w² = v`. -/
structure Base12 where
  c0 : Base6
  c1 : Base6
  deriving DecidableEq

namespace Base12

instance : Zero Base12 := ⟨⟨0, 0⟩⟩
instance : One Base12 := ⟨⟨1, 0⟩⟩

/-- Three products: the cross terms come from the product of the sums. -/
protected def mul (a b : Base12) : Base12 :=
  let low := a.c0 * b.c0
  let high := a.c1 * b.c1
  ⟨low + high.mulV, (a.c0 + a.c1) * (b.c0 + b.c1) - low - high⟩

instance : Mul Base12 := ⟨Base12.mul⟩

/-- The image under the automorphism of order two, which is the power `q⁶`. -/
def conj (a : Base12) : Base12 := ⟨a.c0, -a.c1⟩

/-- The power of `9 + u` that `w` gains under the Frobenius map. -/
def frobeniusW : Base2 := power G2.twist ((baseModulus - 1) / 6)

/-- The Frobenius map: the coefficient of `wⁱ` is conjugated and gains `frobeniusW ^ i`. -/
def frobenius (a : Base12) : Base12 :=
  let g₂ := frobeniusW * frobeniusW
  let g₃ := g₂ * frobeniusW
  let g₄ := g₂ * g₂
  let g₅ := g₃ * g₂
  ⟨⟨a.c0.c0.conj, g₂ * a.c0.c1.conj, g₄ * a.c0.c2.conj⟩,
    ⟨frobeniusW * a.c1.c0.conj, g₃ * a.c1.c1.conj, g₅ * a.c1.c2.conj⟩⟩

/-- The conjugate divided by the product of an element and its conjugate. -/
protected def inv (a : Base12) : Base12 :=
  let d := (a.c0 * a.c0 - (a.c1 * a.c1).mulV)⁻¹
  ⟨a.c0 * d, -(a.c1 * d)⟩

instance : Inv Base12 := ⟨Base12.inv⟩

end Base12

/-! ## The loop -/

namespace Pairing

def parameter : Nat := 4965661367192848881

/-- The number of times that the Miller loop adds up its second argument. -/
def loopCount : Nat := 6 * parameter + 2

/-- Digits one, zero and minus one of `loopCount`, the most significant first. Which digits stand for the
number makes no difference to members; other points meet other lines on the way. -/
def loopDigits : List Int :=
  [1, 1, 0, 1, 0, 0, -1, 0, 1, 1, 0, 0, 0, -1, 0, 0, 1, 1, 0, 0, -1, 0, 0, 0, 0, 0, 1, 0, 0, -1, 0, 0,
    1, 1, 1, 0, 0, 0, 0, -1, 0, 1, 0, 0, -1, 0, 1, 1, 0, 0, 1, 0, 0, -1, 1, 0, 0, -1, 0, 1, 0, 1, 0, 0,
    0]

theorem foldl_loopDigits :
    loopDigits.foldl (fun n digit => 2 * n + digit) (0 : Int) = loopCount := by decide +kernel

/-- A point `(x / z, y / z)` of the twisted curve. -/
structure Homogeneous where
  x : Base2
  y : Base2
  z : Base2

/-- The coefficients of a line: `a` goes with `y`, `b` with `x`, and `c` with nothing. -/
structure Line where
  a : Base2
  b : Base2
  c : Base2

def Line.eval (line : Line) (x y : Base) : Base12 :=
  ⟨⟨Base2.scale y line.a, 0, 0⟩, ⟨Base2.scale x line.b, line.c, 0⟩⟩

namespace Homogeneous

/-- The tangent at a point, and twice the point. -/
def double (p : Homogeneous) : Line × Homogeneous :=
  let half (a : Base2) : Base2 := Base2.scale Base.half a
  let thrice (a : Base2) : Base2 := a + a + a
  let xy := half (p.x * p.y)
  let xx := p.x * p.x
  let yy := p.y * p.y
  let yz := p.y * p.z
  let e := G2.coefficient * thrice (p.z * p.z)
  let f := thrice e
  let g := half (yy + f)
  (⟨-(yz + yz), thrice xx, e - yy⟩,
    ⟨xy * (yy - f), g * g - thrice (e * e), yy * (yz + yz)⟩)

/-- The line through a point and the point `(x, y)`, and the sum of the two. -/
def add (p : Homogeneous) (x y : Base2) : Line × Homogeneous :=
  let rise := p.y - y * p.z
  let run := p.x - x * p.z
  let run₂ := run * run
  let run₃ := run * run₂
  let g := p.x * run₂
  let h := run₃ + p.z * (rise * rise) - (g + g)
  (⟨run, -rise, rise * x - run * y⟩,
    ⟨run * h, rise * (g - h) - run₃ * p.y, p.z * run₃⟩)

end Homogeneous

/-- A step of the Miller loop: the value so far and the current multiple of the second argument. -/
structure Step where
  value : Base12
  point : Homogeneous

/-- Multiplies in the value of a line at `(px, py)` and moves on. -/
def Step.through (px py : Base) (s : Step) (next : Line × Homogeneous) : Step :=
  ⟨s.value * next.1.eval px py, next.2⟩

def Step.double (px py : Base) (s : Step) : Step :=
  Step.through px py ⟨s.value * s.value, s.point⟩ s.point.double

def Step.add (px py : Base) (s : Step) (x y : Base2) : Step :=
  s.through px py (s.point.add x y)

/-- The Frobenius map carried over to the twisted curve. -/
def frobenius (x y : Base2) : Base2 × Base2 :=
  let g := Base12.frobeniusW
  (x.conj * (g * g), y.conj * (g * g * g))

/-- The Miller loop; infinity on either side gives one. -/
def miller : G1 → G2 → Base12
  | .infinity, _ => 1
  | _, .infinity => 1
  | .finite px py, .finite x y =>
    let looped : Step := loopDigits.tail.foldl
      (fun (s : Step) digit =>
        let doubled := s.double px py
        if digit = 0 then doubled
        else doubled.add px py x (if digit < 0 then -y else y))
      ⟨1, ⟨x, y, 1⟩⟩
    let (x₁, y₁) := frobenius x y
    let (x₂, y₂) := frobenius x₁ y₁
    ((looped.add px py x₁ y₁).add px py x₂ (-y₂)).value

/-- A fixed power of order `r`: the exponent is `(q⁶ - 1) (q² + 1)` times
`1 + 6x + 12x² + 12x³ + q (4x + 6x² + 12x³) + q² (6x + 6x² + 12x³) + q³ (4x + 6x² + 12x³ - 1)`, a
multiple of `(q¹² - 1) / r` prime to `r`. -/
def finalPower (f : Base12) : Base12 :=
  let f := f.conj * f⁻¹
  let f := f.frobenius.frobenius * f
  let fx := power f parameter
  let fx₂ := power fx parameter
  let fx₃ := power fx₂ parameter
  let a := fx * fx
  let b := power fx₂ 6
  let e₁ := a * a * b * power fx₃ 12
  let e₂ := e₁ * a
  let e₀ := f * e₂ * b
  let e₃ := f.conj * e₁
  e₀ * e₁.frobenius * e₂.frobenius.frobenius * e₃.frobenius.frobenius.frobenius

def product? (pairs : List (G1 × G2)) : Option Base12 :=
  let value := (pairs.map fun pair => miller pair.1 pair.2).foldl (· * ·) 1
  if value = 0 then none else some (finalPower value)

end Pairing

end CircuitProof
