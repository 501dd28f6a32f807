import CircuitProof.Field.Residue

/-!
# Points of the curves `y² = x³ + b`

Chord-and-tangent addition on affine points, with the point at infinity kept apart from every pair
of coordinates. Scalar multiples run in Jacobian coordinates, `(x / z², y / z³)`, so that a multiple
costs one inversion. No formula mentions `b`: a pair of coordinates off the curve is added as a
point of the curve that it does lie on, and only `onCurve` tells the two apart.
-/

namespace CircuitProof

inductive Point (K : Type) where
  | infinity
  | finite (x y : K)
  deriving DecidableEq

/-- Jacobian coordinates; `z = 0` is the point at infinity. -/
structure Jacobian (K : Type) where
  x : K
  y : K
  z : K

variable {K : Type} [Zero K] [One K] [Add K] [Sub K] [Mul K] [Inv K] [DecidableEq K]

namespace Jacobian

def infinity : Jacobian K := ⟨1, 1, 0⟩

def double (p : Jacobian K) : Jacobian K :=
  let a := p.x * p.x
  let b := p.y * p.y
  let c := b * b
  let t := p.x + b
  let d := t * t - a - c
  let d := d + d
  let e := a + a + a
  let x := e * e - (d + d)
  let c₂ := c + c
  let c₄ := c₂ + c₂
  let yz := p.y * p.z
  ⟨x, e * (d - x) - (c₄ + c₄), yz + yz⟩

def add (p q : Jacobian K) : Jacobian K :=
  if p.z = 0 then q
  else if q.z = 0 then p
  else
    let zz₁ := p.z * p.z
    let zz₂ := q.z * q.z
    let u₁ := p.x * zz₂
    let u₂ := q.x * zz₁
    let s₁ := p.y * (q.z * zz₂)
    let s₂ := q.y * (p.z * zz₁)
    if u₁ = u₂ then
      if s₁ = s₂ then p.double else infinity
    else
      let h := u₂ - u₁
      let r := s₂ - s₁
      let hh := h * h
      let hhh := h * hh
      let v := u₁ * hh
      let x₃ := r * r - hhh - (v + v)
      ⟨x₃, r * (v - x₃) - s₁ * hhh, p.z * q.z * h⟩

def ofPoint : Point K → Jacobian K
  | .infinity => infinity
  | .finite x y => ⟨x, y, 1⟩

def toPoint (p : Jacobian K) : Point K :=
  if p.z = 0 then .infinity
  else
    let zi := p.z⁻¹
    let zi₂ := zi * zi
    .finite (p.x * zi₂) (p.y * (zi₂ * zi))

end Jacobian

namespace Point

def onCurve (b : K) : Point K → Bool
  | infinity => true
  | finite x y => y * y = x * x * x + b

omit [Zero K] [One K] [Sub K] [Inv K] in
@[simp] theorem onCurve_infinity (b : K) : onCurve b (infinity : Point K) = true := rfl

def neg [Neg K] : Point K → Point K
  | infinity => infinity
  | finite x y => finite x (-y)

/-- The third point of a line of slope `m` through `(x₁, y₁)` and a point at `x₂`, reflected. -/
def onLine (m x₁ y₁ x₂ : K) : Point K :=
  let x₃ := m * m - x₁ - x₂
  finite x₃ (m * (x₁ - x₃) - y₁)

def tangentSlope (x y : K) : K := (x * x + x * x + x * x) * (y + y)⁻¹

def chordSlope (x₁ y₁ x₂ y₂ : K) : K := (y₂ - y₁) * (x₂ - x₁)⁻¹

def add : Point K → Point K → Point K
  | infinity, q => q
  | p, infinity => p
  | finite x₁ y₁, finite x₂ y₂ =>
    if x₁ = x₂ then
      if y₁ = y₂ ∧ y₁ ≠ 0 then onLine (tangentSlope x₁ y₁) x₁ y₁ x₁ else infinity
    else onLine (chordSlope x₁ y₁ x₂ y₂) x₁ y₁ x₂

omit [One K] in
@[simp] theorem infinity_add (p : Point K) : add infinity p = p := by cases p <;> rfl
omit [One K] in
@[simp] theorem add_infinity (p : Point K) : add p infinity = p := by cases p <;> rfl

/-- The points read as the digits of a binary number, the most significant first: what has been
added up is doubled before each further point. -/
def ofDigits (digits : List (Point K)) : Point K :=
  (digits.foldl (fun sum p => sum.double.add (.ofPoint p)) Jacobian.infinity).toPoint

/-- `p` added to itself `n` times. -/
def multiple (n : Nat) (p : Point K) : Point K :=
  match p with
  | infinity => infinity
  | finite x y =>
    ofDigits ((binaryDigits n).map fun digit => if digit then finite x y else infinity)

@[simp] theorem multiple_infinity (n : Nat) : multiple n (infinity : Point K) = infinity := rfl

end Point

end CircuitProof
