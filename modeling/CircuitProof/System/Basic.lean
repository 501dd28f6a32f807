import CircuitProof.Linear.Combination
import CircuitProof.System.Gate

/-!
# Constraint systems

A system of constraints `(A z)ᵢ (B z)ᵢ = (C z)ᵢ` over the assignment vector `z`. The columns of `z`
are the constant one, then the shown inputs, then the hidden inputs, then the auxiliary columns. A
system that was not compiled from a circuit may be inconsistent; `defect?` finds the first fault.
-/

namespace CircuitProof

/-- What a column of the assignment vector holds. -/
inductive ColumnRole where
  | unit
  | shown
  | hidden
  | auxiliary
  deriving DecidableEq

structure ConstraintSystem (F : Type) where
  a : Matrix F
  b : Matrix F
  c : Matrix F
  numShown : Nat
  numHidden : Nat
  numAuxiliary : Nat
  /-- The name of each column. -/
  names : List String
  /-- The index of the relation that each row stands for. -/
  relationOfRow : List Nat
  /-- The gates of the auxiliary columns, in the order in which they can be evaluated. -/
  gates : List (Gate F)
  deriving DecidableEq

inductive Defect where
  | heightsDiffer (a b c : Nat)
  | widthMismatch (label : String) (width needed : Nat)
  | columnOutside (label : String) (row column width : Nat)
  | noRows
  deriving DecidableEq

def Defect.message : Defect → String
  | heightsDiffer a b c =>
    s!"matrix row counts differ: A={a}, B={b}, C={c}"
  | widthMismatch label width needed =>
    s!"matrix {label} has {width} columns but the signal layout needs {needed}"
  | columnOutside label row column width =>
    s!"matrix {label} row {row} references column {column} outside width {width}"
  | noRows => "constraint system has no rows"

namespace ConstraintSystem

variable {F : Type}

/-- A system of given matrices. Its columns have no gates, so the caller supplies every value; each
row stands for itself. The counts are numbers without a bound: the unit column and the inputs
together are taken not to exceed a machine word. -/
def ofMatrices (a b c : Matrix F) (numShown numHidden : Nat) : ConstraintSystem F where
  a := a
  b := b
  c := c
  numShown := numShown
  numHidden := numHidden
  numAuxiliary := a.width - (1 + numShown + numHidden)
  names := (List.range a.width).map fun i => s!"z{i}"
  relationOfRow := List.range a.height
  gates := []

variable (s : ConstraintSystem F)

def numConstraints : Nat := s.a.height

/-- The length of the assignment vector, a sum that is taken not to exceed a machine word. -/
def numColumns : Nat := 1 + s.numShown + s.numHidden + s.numAuxiliary

/-- The columns of the statement: the constant one and the shown inputs. -/
def numStatement : Nat := 1 + s.numShown

def roleOf (column : Nat) : ColumnRole :=
  if column = unitColumn then .unit
  else if column ≤ s.numShown then .shown
  else if column ≤ s.numShown + s.numHidden then .hidden
  else .auxiliary

def matrixDefect? (label : String) (m : Matrix F) : Option Defect :=
  if m.width ≠ s.numColumns then some (.widthMismatch label m.width s.numColumns)
  else (m.firstColumnFrom s.numColumns).map fun (row, column) =>
    .columnOutside label row column s.numColumns

/-- The first structural fault, none when the system fits together and has a row. -/
def defect? : Option Defect :=
  if s.b.height ≠ s.a.height ∨ s.c.height ≠ s.a.height then
    some (.heightsDiffer s.a.height s.b.height s.c.height)
  else
    (s.matrixDefect? "A" s.a).or <| (s.matrixDefect? "B" s.b).or <|
      (s.matrixDefect? "C" s.c).or <| if s.a.height = 0 then some .noRows else none

variable [Zero F] [Add F] [Mul F] [DecidableEq F]

/-- Whether row `i` holds, absent when the row or one of its columns does not exist. -/
def rowHolds? (z : List F) (i : Nat) : Option Bool := do
  let a ← (← s.a.rows[i]?).eval? z
  let b ← (← s.b.rows[i]?).eval? z
  let c ← (← s.c.rows[i]?).eval? z
  some (a * b = c)

/-- The first of the `count` rows from `i` on that does not hold. Rows after it are not read. -/
def firstUnsatisfiedFrom? (z : List F) (i : Nat) : Nat → Option (Option Nat)
  | 0 => some none
  | count + 1 => do
    if ← s.rowHolds? z i then firstUnsatisfiedFrom? z (i + 1) count else some (some i)

def firstUnsatisfied? (z : List F) : Option (Option Nat) :=
  s.firstUnsatisfiedFrom? z 0 s.numConstraints

end ConstraintSystem

end CircuitProof
