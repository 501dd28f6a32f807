import CircuitProof.System.Basic

/-!
# Witnesses

A witness is an assignment vector that satisfies every row of a constraint system. It is computed
from the shown and hidden inputs by evaluating the gates in order, or supplied whole; either way
every row is checked, and a row that fails is reported and never mended.
-/

namespace CircuitProof

inductive InputRole where
  | full
  | shown
  | hidden
  deriving DecidableEq

def InputRole.text : InputRole → String
  | full => "full"
  | shown => "public"
  | hidden => "private"

inductive WitnessError where
  | constraintViolation (row relation : Nat)
  | unresolvableAuxiliary (column : Nat)
  | inputLengthMismatch (role : InputRole) (expected got : Nat)
  | missingAssignment (name : String)
  | unitColumnNotOne
  deriving DecidableEq

def WitnessError.message : WitnessError → String
  | constraintViolation row relation =>
    s!"Constraint row {row} (relation {relation}) is not satisfied"
  | unresolvableAuxiliary column =>
    s!"Auxiliary signal at column {column} cannot be solved: zero denominator"
  | inputLengthMismatch role expected got =>
    "Invalid " ++ role.text ++ s!" input length, expected length {expected} but got {got}"
  | missingAssignment name => s!"No value assigned to signal `{name}`"
  | unitColumnNotOne => "Assignment column 0 must hold the constant one"

/-- A satisfying assignment vector with the number of its shown inputs. -/
structure Witness (F : Type) where
  values : List F
  numShown : Nat
  deriving DecidableEq

def Witness.shown {F : Type} (w : Witness F) : List F := (w.values.drop 1).take w.numShown

/-- Values by signal name, the latest first. -/
structure Assignment (F : Type) where
  entries : List (String × F)

namespace Assignment

variable {F : Type}

def empty : Assignment F := ⟨[]⟩

def set (a : Assignment F) (name : String) (value : F) : Assignment F :=
  ⟨(name, value) :: a.entries⟩

def get? (a : Assignment F) (name : String) : Option F := a.entries.lookup name

@[simp] theorem get?_set_self (a : Assignment F) (name : String) (value : F) :
    (a.set name value).get? name = some value := by
  simp [get?, set]

theorem get?_set_of_ne (a : Assignment F) {name other : String} (value : F) (h : other ≠ name) :
    (a.set name value).get? other = a.get? other := by
  have hb : (other == name) = false := by simpa using h
  simp only [get?, set, List.lookup_cons, hb]

end Assignment

namespace ConstraintSystem

variable {F : Type} (s : ConstraintSystem F)

/-- The name of a column, empty for a column that has none. -/
def nameOf (column : Nat) : String := s.names[column]?.getD ""

/-- The values that an assignment gives to `count` columns from `start` on, or the first of their names
without one. -/
def valuesFrom (assignment : Assignment F) (start : Nat) : Nat → Except WitnessError (List F)
  | 0 => .ok []
  | count + 1 =>
    match assignment.get? (s.nameOf start) with
    | none => .error (.missingAssignment (s.nameOf start))
    | some value => (valuesFrom assignment (start + 1) count).map (value :: ·)

@[simp] theorem valuesFrom_zero (assignment : Assignment F) (start : Nat) :
    s.valuesFrom assignment start 0 = .ok [] := rfl

def split (assignment : Assignment F) : Except WitnessError (List F × List F) := do
  let shown ← s.valuesFrom assignment 1 s.numShown
  let hidden ← s.valuesFrom assignment (1 + s.numShown) s.numHidden
  .ok (shown, hidden)

variable [Zero F] [One F] [Add F] [Mul F] [Inv F] [DecidableEq F]

/-- Accepts the vector as a witness if every row holds. -/
def check (z : List F) : Except (Failure WitnessError) (Witness F) := do
  match ← Failure.inRange (s.firstUnsatisfied? z) with
  | none => .ok ⟨z, s.numShown⟩
  | some row =>
    let relation ← Failure.inRange s.relationOfRow[row]?
    Failure.reject (.constraintViolation row relation)

def solve : List (Gate F) → List F → Except (Failure WitnessError) (List F)
  | [], z => .ok z
  | gate :: rest, z => do
    let value ← gate.value .unresolvableAuxiliary z
    solve rest (z ++ [value])

/-- The witness for the given inputs. Auxiliary columns without a gate are zero. -/
def generateWitness (shown hidden : List F) : Except (Failure WitnessError) (Witness F) :=
  if shown.length ≠ s.numShown then
    Failure.reject (.inputLengthMismatch .shown s.numShown shown.length)
  else if hidden.length ≠ s.numHidden then
    Failure.reject (.inputLengthMismatch .hidden s.numHidden hidden.length)
  else do
    let z ← solve s.gates (1 :: (shown ++ hidden))
    s.check (z ++ List.replicate (s.numColumns - z.length) 0)

def generateWitnessNamed (assignment : Assignment F) : Except (Failure WitnessError) (Witness F) :=
  match s.split assignment with
  | .error e => Failure.reject e
  | .ok (shown, hidden) => s.generateWitness shown hidden

/-- Accepts a whole assignment vector as a witness. -/
def witnessOfValues (z : List F) : Except (Failure WitnessError) (Witness F) :=
  if z.length ≠ s.numColumns then
    Failure.reject (.inputLengthMismatch .full s.numColumns z.length)
  else if z.head? ≠ some 1 then Failure.reject .unitColumnNotOne
  else s.check z

end ConstraintSystem

end CircuitProof
