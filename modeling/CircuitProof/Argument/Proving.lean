import CircuitProof.Argument.Keys
import CircuitProof.System.Witness

/-!
# Proving

A key is checked before it is used: its queries and matrices must fit together and its quotient
query must fit the evaluation domain. What is left after the checks is a function of the two blinding
scalars, so no randomness is needed before every check has passed.
-/

namespace CircuitProof

/-- A way in which the parts of a proving key do not fit together. -/
inductive KeyFault where
  | queriesDiffer
  | notPartitioned
  | matrixShape
  | columnOutside
  | noDomain (size : Nat)
  | quotientQuery (length needed : Nat)
  deriving DecidableEq

def KeyFault.message : KeyFault → String
  | queriesDiffer => "A and B queries have different lengths"
  | notPartitioned => "instance and witness queries do not partition the signals"
  | matrixShape => "constraint matrices do not match the queries"
  | columnOutside => "constraint matrix references a column out of range"
  | noDomain size => s!"no evaluation domain of size {size}"
  | quotientQuery length needed =>
    s!"h query has {length} elements but the domain needs {needed}"

inductive ProveError where
  | witnessLengthMismatch (expected got : Nat)
  | malformedKey (fault : KeyFault)
  deriving DecidableEq

def ProveError.message : ProveError → String
  | witnessLengthMismatch expected got =>
    s!"Invalid witness length, expected length {expected} but got {got}"
  | malformedKey fault => "Proving key is inconsistent: " ++ fault.message

/-- A point, plus a combination of the points of a query, plus a multiple of `delta`. -/
def PointGroup.blinded {F G : Type} (group : PointGroup F G) (start : G) (z : List F)
    (query : List G) (k : F) (delta : G) : G :=
  group.add (group.add start (group.combine z query)) (group.scale k delta)

namespace ProvingKey

variable {F G₁ G₂ T : Type}

def matrixFault? (pk : ProvingKey F G₁ G₂) (m : Matrix F) : Option KeyFault :=
  if m.width ≠ pk.numColumns ∨ m.height ≠ pk.program.numConstraints then some .matrixShape
  else if m.columnsBelow pk.numColumns then none
  else some .columnOutside

def shapeFault? (pk : ProvingKey F G₁ G₂) : Option KeyFault :=
  if pk.bQuery₁.length ≠ pk.numColumns ∨ pk.bQuery₂.length ≠ pk.numColumns then
    some .queriesDiffer
  else if pk.numStatement ≠ pk.program.numStatement ∨
      pk.lQuery.length + pk.program.numStatement ≠ pk.numColumns then
    some .notPartitioned
  else
    (pk.matrixFault? pk.program.a).or <| (pk.matrixFault? pk.program.b).or <|
      pk.matrixFault? pk.program.c

variable [Mul F]

/-- The proof for an assignment and its quotient under the blinding scalars `r` and `s`:
`A = α + Σ zᵢ Aᵢ + r δ`, `B = β + Σ zᵢ Bᵢ + s δ` and
`C = s A + r B - r s δ + Σ zᵢ Lᵢ + Σ hᵢ Hᵢ`, with `B` taken in the first group. Both are members as
soon as the points of the key are. -/
def blindedProof (groups : PairingGroups F G₁ G₂ T) (pk : ProvingKey F G₁ G₂) (z h : List F)
    (r s : F) : Proof G₁ G₂ :=
  let first := groups.first
  let a := first.blinded pk.verifying.alpha z pk.aQuery r pk.delta₁
  let b₁ := first.blinded pk.beta₁ z pk.bQuery₁ s pk.delta₁
  let b₂ := groups.second.blinded pk.verifying.beta z pk.bQuery₂ s pk.verifying.delta
  let blinding := first.sub (first.add (first.scaleMember s a) (first.scaleMember r b₁))
    (first.scale (r * s) pk.delta₁)
  let hidden := first.add blinding (first.combine (z.drop pk.numStatement) pk.lQuery)
  { a := a
    b := b₂
    c := first.add hidden (first.combine h pk.hQuery) }

variable [RadixTwo F] [Zero F] [One F] [Add F] [Sub F] [Inv F] [NatCast F] [DecidableEq F]

/-- The prover for a witness: checks the key, computes the quotient, and leaves the two blinding
scalars open. -/
def prover (groups : PairingGroups F G₁ G₂ T) (pk : ProvingKey F G₁ G₂) (w : Witness F) :
    Except (Failure ProveError) (F → F → Proof G₁ G₂) :=
  let z := w.values
  if z.length ≠ pk.numColumns then
    Failure.reject (.witnessLengthMismatch pk.numColumns z.length)
  else
    match pk.shapeFault? with
    | some fault => Failure.reject (.malformedKey fault)
    | none => do
      match ← pk.program.quotient z with
      | none => Failure.reject (.malformedKey (.noDomain pk.program.minDomainSize))
      | some h =>
        if h.length ≠ pk.hQuery.length + 1 then
          Failure.reject (.malformedKey (.quotientQuery pk.hQuery.length (h.length - 1)))
        else .ok (pk.blindedProof groups z h)

end ProvingKey

end CircuitProof
