import CircuitProof.Circuit.Basic
import CircuitProof.Circuit.Lowering
import CircuitProof.System.Basic

/-!
# Compiling a circuit to a constraint system

The relations are lowered in order. Each contributes a block of rows: one for each gate that it
needs, and a last one for itself. A signal that no row mentions, because nothing reads it or because
it cancels while combinations are folded, is refused or let through as the policy says.
-/

namespace CircuitProof

inductive UnconstrainedPolicy where
  | reject
  | ignore
  deriving DecidableEq

inductive CompileError where
  | undeclaredSignal (name : String) (relation : Nat)
  | unconstrainedSignal (name : String)
  | duplicateSignal (name : String)
  | divisionByZero (relation : Nat)
  deriving DecidableEq

def CompileError.message : CompileError → String
  | undeclaredSignal name relation => s!"Relation {relation} references undeclared signal `{name}`"
  | unconstrainedSignal name => s!"Signal `{name}` is declared but never constrained"
  | duplicateSignal name => s!"Signal `{name}` is declared more than once"
  | divisionByZero relation => s!"Relation {relation} divides by the constant zero"

def LoweringError.at (relation : Nat) : LoweringError → CompileError
  | undeclared name => .undeclaredSignal name relation
  | divisionByZero => .divisionByZero relation

structure Block (F : Type) where
  gates : List (Gate F)
  constraint : Constraint F

def Block.constraints {F : Type} [One F] (block : Block F) : List (Constraint F) :=
  block.gates.map Gate.constraint ++ [block.constraint]

/-- The first name that occurs among the names before it. -/
def firstRepeated? (names : List String) : Option String := go [] names
where
  go (seen : List String) : List String → Option String
    | [] => none
    | name :: rest => if name ∈ seen then some name else go (name :: seen) rest

variable {F : Type} [Zero F] [One F] [Add F] [Neg F] [Mul F] [Inv F] [DecidableEq F]

/-- Lowers relations in order; `next` is the first free column and `index` that of the first
relation. -/
def lowerRelations (columnOf : String → Option Nat) (next index : Nat) :
    List (Relation F) → Except CompileError (List (Block F))
  | [] => .ok []
  | relation :: rest =>
    match relation.lower columnOf next with
    | .error e => .error (e.at index)
    | .ok (constraint, gates) =>
      match lowerRelations columnOf (next + gates.length) (index + 1) rest with
      | .error e => .error e
      | .ok blocks => .ok (⟨gates, constraint⟩ :: blocks)

/-- The first of the input columns that no constraint mentions. -/
def firstUnmentioned? (constraints : List (Constraint F)) (numInputs : Nat) : Option Nat :=
  let mentioned := constraints.flatMap Constraint.columns
  (List.range' 1 (numInputs - 1)).find? fun column => column ∉ mentioned

namespace Circuit

/-- The column of a declared signal: one plus its place among the inputs. -/
def columnOf (c : Circuit F) (name : String) : Option Nat :=
  (c.inputNames.idxOf? name).map (· + 1)

def systemOf (c : Circuit F) (blocks : List (Block F)) : ConstraintSystem F :=
  let gates := blocks.flatMap Block.gates
  let constraints := blocks.flatMap Block.constraints
  let width := 1 + c.inputNames.length + gates.length
  { a := ⟨constraints.map (·.a.terms), width⟩
    b := ⟨constraints.map (·.b.terms), width⟩
    c := ⟨constraints.map (·.c.terms), width⟩
    numShown := (c.names .shown).length
    numHidden := (c.names .hidden).length
    numAuxiliary := gates.length
    names := "one" :: c.inputNames ++ (List.range gates.length).map fun i => s!"aux{i}"
    relationOfRow := blocks.zipIdx.flatMap fun (block, index) =>
      List.replicate block.constraints.length index
    gates := gates }

def compile (c : Circuit F) (policy : UnconstrainedPolicy) :
    Except CompileError (ConstraintSystem F) :=
  match firstRepeated? c.inputNames with
  | some name => .error (.duplicateSignal name)
  | none =>
    let numInputs := 1 + c.inputNames.length
    match lowerRelations c.columnOf numInputs 0 c.relations with
    | .error e => .error e
    | .ok blocks =>
      let system := c.systemOf blocks
      match policy, firstUnmentioned? (blocks.flatMap Block.constraints) numInputs with
      | .reject, some column => .error (.unconstrainedSignal (system.names[column]?.getD ""))
      | _, _ => .ok system

end Circuit

end CircuitProof
