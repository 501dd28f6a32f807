import CircuitProof.Linear.Combination
import CircuitProof.Polynomial.Domain
import CircuitProof.System.Basic

/-!
# Quadratic programs

The three matrices of a constraint system, read as families of polynomials: row `i` is bound to point
`i` of an evaluation domain, and a column's polynomial takes the column's coefficients as values.
After the rows of the constraints, `A` has one more row for each statement column, which keeps the
polynomials of those columns linearly independent. An assignment satisfies the system when the
vanishing polynomial of the domain divides `A · B - C`.
-/

namespace CircuitProof

structure QuadraticProgram (F : Type) where
  a : Matrix F
  b : Matrix F
  c : Matrix F
  /-- The number of statement columns, the constant one included. -/
  numStatement : Nat
  deriving DecidableEq

/-- The values at one point of each column's three polynomials, and of the vanishing polynomial. -/
structure ProgramValues (F : Type) where
  a : List F
  b : List F
  c : List F
  vanishing : F
  domainSize : Nat
  deriving DecidableEq

namespace QuadraticProgram

variable {F : Type}

def ofSystem (s : ConstraintSystem F) : QuadraticProgram F := ⟨s.a, s.b, s.c, s.numStatement⟩

variable (p : QuadraticProgram F)

def numConstraints : Nat := p.a.height
def numColumns : Nat := p.a.width

/-- The number of rows in need of a point. -/
def minDomainSize : Nat := p.numConstraints + p.numStatement

def domain? [RadixTwo F] : Option Domain := Domain.forSize? F p.minDomainSize

section
variable [Zero F] [Add F] [Mul F]

/-- The coefficient of a column in a row, over all its terms. -/
def coefficientIn (row : Row F) (column : Nat) : F :=
  row.foldl (fun sum term => if term.1 = column then sum + term.2 else sum) 0

/-- The value of a column's polynomial where the Lagrange polynomials take the given weights. -/
def columnValue (rows : List (Row F)) (weights : List F) (column : Nat) : F :=
  (List.zipWith (fun row weight => weight * coefficientIn row column) rows weights).foldl (· + ·) 0

/-- The value of each column's polynomial. Rows past the constraints do not count, and all rows up
to there must exist and stay below the width. -/
def columnValues? (m : Matrix F) (height width : Nat) (weights : List F) : Option (List F) :=
  let rows := m.rows.take height
  if rows.length = height ∧ (⟨rows, width⟩ : Matrix F).columnsBelow width then
    some ((List.range width).map (columnValue rows (weights.take height)))
  else none

end

variable [RadixTwo F] [Zero F] [One F] [Add F] [Sub F] [Mul F] [Inv F] [NatCast F]
  [DecidableEq F]

/-- The values at `tau` over a domain: statement column `j` of `A` has the extra row `j`. -/
def valuesOn? (d : Domain) (tau : F) : Option (ProgramValues F) :=
  if p.numStatement ≤ p.numColumns then do
    let weights := d.lagrange tau
    let a ← columnValues? p.a p.numConstraints p.numColumns weights
    let b ← columnValues? p.b p.numConstraints p.numColumns weights
    let c ← columnValues? p.c p.numConstraints p.numColumns weights
    let extra := (weights.drop p.numConstraints).take p.numStatement
    some
      { a := List.zipWith (· + ·) (a.take p.numStatement) extra ++ a.drop p.numStatement
        b := b
        c := c
        vanishing := d.vanishing tau
        domainSize := d.size }
  else none

def values {ε : Type} (tau : F) : Except (Failure ε) (Option (ProgramValues F)) :=
  match p.domain? with
  | none => .ok none
  | some d => (Failure.inRange (p.valuesOn? d tau)).map some

/-- The values of a polynomial on the domain moved by the shift, from its values on the domain. -/
def onShiftedDomain (d : Domain) (values : List F) : List F :=
  d.evaluate (distributePowers (d.interpolate values) RadixTwo.shift)

/-- The coefficients of `(A · B - C) / Z` over a domain, as many as it has points. The division is
done point by point on the moved domain, where `Z` is a constant. -/
def quotientOn? (d : Domain) (z : List F) : Option (List F) := do
  let a ← p.a.mulVector? z
  let b ← p.b.mulVector? z
  let c ← p.c.mulVector? z
  if b.length = a.length ∧ c.length = a.length ∧ p.numStatement ≤ z.length then
    let pad (values : List F) : List F := values ++ List.replicate (d.size - values.length) 0
    let a := onShiftedDomain d (pad (a ++ z.take p.numStatement))
    let b := onShiftedDomain d (pad b)
    let c := onShiftedDomain d (pad c)
    let divisor := (d.vanishing (RadixTwo.shift : F))⁻¹
    let h := List.zipWith (fun ab c => (ab - c) * divisor) (List.zipWith (· * ·) a b) c
    some (distributePowers (d.interpolate h) (RadixTwo.shift : F)⁻¹)
  else none

def quotient {ε : Type} (z : List F) : Except (Failure ε) (Option (List F)) :=
  match p.domain? with
  | none => .ok none
  | some d => (Failure.inRange (p.quotientOn? d z)).map some

end QuadraticProgram

end CircuitProof
