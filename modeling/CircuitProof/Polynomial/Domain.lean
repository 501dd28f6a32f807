import CircuitProof.Field.Residue

/-!
# Evaluation domains of size two to the power `k`

A domain is the group of the powers of a root of unity of order `2 ^ k`. Polynomials are coefficient
lists, lowest first; `fft` evaluates one at the points of the domain in the order of the powers, and
`interpolate` goes back. `lagrange` gives the values at any one point of the polynomials that are
one at a single point of the domain and zero at the others.
-/

namespace CircuitProof

/-- A field with roots of unity of order `2 ^ k` for every `k` up to `maxLog`. -/
class RadixTwo (F : Type) where
  maxLog : Nat
  /-- A root of unity of order `2 ^ k`, meaningful up to `maxLog`. -/
  root : Nat → F
  /-- An element outside every one of the domains. -/
  shift : F

variable {F : Type}

section
variable [One F] [Mul F]

/-- The list `x ^ 0 * start, x ^ 1 * start, …` of the given length. -/
def powersFrom (start x : F) : Nat → List F
  | 0 => []
  | n + 1 => start :: powersFrom (start * x) x n

def powers (x : F) (n : Nat) : List F := powersFrom 1 x n

/-- Multiplies the coefficient at place `i` by `g ^ i`, which moves a polynomial by the factor
`g`. -/
def distributePowers (coefficients : List F) (g : F) : List F :=
  List.zipWith (· * ·) coefficients (powers g coefficients.length)

omit [One F] in
@[simp] theorem length_powersFrom (start x : F) (n : Nat) :
    (powersFrom start x n).length = n := by
  induction n generalizing start with
  | zero => rfl
  | succ n ih => simp [powersFrom, ih]

omit [One F] in
@[simp] theorem powersFrom_zero (start x : F) : powersFrom start x 0 = [] := rfl

@[simp] theorem length_powers (x : F) (n : Nat) : (powers x n).length = n := by simp [powers]

@[simp] theorem length_distributePowers (coefficients : List F) (g : F) :
    (distributePowers coefficients g).length = coefficients.length := by
  simp [distributePowers]

end

def evens {α : Type} : List α → List α
  | [] => []
  | [x] => [x]
  | x :: _ :: rest => x :: evens rest

def odds {α : Type} : List α → List α
  | [] => []
  | [_] => []
  | _ :: y :: rest => y :: odds rest

theorem length_evens {α : Type} (items : List α) : (evens items).length = (items.length + 1) / 2 := by
  fun_induction evens items with
  | case1 => simp
  | case2 => simp
  | case3 x y rest ih => simp only [List.length_cons, ih]; omega

theorem length_odds {α : Type} (items : List α) : (odds items).length = items.length / 2 := by
  fun_induction odds items with
  | case1 => simp
  | case2 => simp
  | case3 x y rest ih => simp only [List.length_cons, ih]; omega

section
variable [One F] [Add F] [Sub F] [Mul F]

/-- The values at the powers of `w`, a root of order `2 ^ k`, of a polynomial with `2 ^ k`
coefficients: its even and odd parts are evaluated at the powers of `w ^ 2`. -/
def fft (w : F) : Nat → List F → List F
  | 0, coefficients => coefficients
  | k + 1, coefficients =>
    let even := fft (w * w) k (evens coefficients)
    let odd := List.zipWith (· * ·) (powers w (Nat.pow 2 k)) (fft (w * w) k (odds coefficients))
    List.zipWith (· + ·) even odd ++ List.zipWith (· - ·) even odd

end

/-- A domain of size `2 ^ log`. -/
structure Domain where
  log : Nat
  deriving DecidableEq

namespace Domain

def size (d : Domain) : Nat := Nat.pow 2 d.log

/-- The logarithm of the least power of two that is not below `n`. -/
def logFor (n : Nat) : Nat := if n ≤ 1 then 0 else (n - 1).log2 + 1

/-- The smallest domain with at least `n` points, if the field has one. -/
def forSize? (F : Type) [RadixTwo F] (n : Nat) : Option Domain :=
  if logFor n ≤ RadixTwo.maxLog F then some ⟨logFor n⟩ else none

variable [RadixTwo F]

def root (F : Type) [RadixTwo F] (d : Domain) : F := RadixTwo.root d.log

section
variable [One F] [Mul F]

def points (F : Type) [RadixTwo F] [One F] [Mul F] (d : Domain) : List F :=
  powers (d.root F) d.size

def vanishing [Sub F] (d : Domain) (x : F) : F := power x d.size - 1

end

variable [Zero F] [One F] [Add F] [Sub F] [Mul F] [Inv F] [NatCast F] [DecidableEq F]

def evaluate (d : Domain) (coefficients : List F) : List F := fft (d.root F) d.log coefficients

def interpolate (d : Domain) (values : List F) : List F :=
  let scale := ((d.size : Nat) : F)⁻¹
  (fft (d.root F)⁻¹ d.log values).map (· * scale)

/-- The value at `x` of each Lagrange polynomial: `(xⁿ - 1) p / (n (x - p))` for the point `p`, and
the indicator of `x` when `x` lies on the domain. -/
def lagrange (d : Domain) (x : F) : List F :=
  let z := d.vanishing x
  if z = 0 then (d.points F).map fun p => if p = x then 1 else 0
  else (d.points F).map fun p => z * p * (((d.size : Nat) : F) * (x - p))⁻¹

end Domain

end CircuitProof
