import CircuitProof.Argument.Keys

/-!
# Key generation

The column polynomials are evaluated once, at a secret point. Every element of the keys is a
generator times a combination of those values and the other secrets.
-/

namespace CircuitProof

/-- The secrets behind a pair of keys. Whoever knows them can forge proofs. -/
structure Secrets (F : Type) where
  tau : F
  alpha : F
  beta : F
  gamma : F
  delta : F
  deriving DecidableEq

inductive KeyGenerationError where
  | malformedSystem (defect : Defect)
  | domainUnavailable (size : Nat)
  | degenerateSecrets
  deriving DecidableEq

def KeyGenerationError.message : KeyGenerationError → String
  | malformedSystem defect => "Malformed R1CS: " ++ defect.message
  | domainUnavailable size =>
    s!"No radix-2 evaluation domain of size {size} exists for this field"
  | degenerateSecrets => "Toxic waste is degenerate: a zero secret or τ on the evaluation domain"

namespace Secrets

variable {F G₁ G₂ T : Type} [RadixTwo F] [Zero F] [One F] [Add F] [Sub F] [Mul F] [Inv F]
  [NatCast F] [DecidableEq F]

/-- The keys for given column values, where the inverses of `gamma` and `delta` are known. -/
def keysFor (secrets : Secrets F) (groups : PairingGroups F G₁ G₂ T)
    (program : QuadraticProgram F) (values : ProgramValues F) (gammaInverse deltaInverse : F) :
    ProvingKey F G₁ G₂ :=
  let first := groups.first
  let second := groups.second
  let combined := List.zipWith
    (fun ab c => secrets.beta * ab.1 + secrets.alpha * ab.2 + c) (values.a.zip values.b) values.c
  let statement := (combined.take program.numStatement).map (· * gammaInverse)
  let rest := (combined.drop program.numStatement).map (· * deltaInverse)
  let quotient := (powers secrets.tau (values.domainSize - 1)).map
    (· * (values.vanishing * deltaInverse))
  { verifying :=
      { alpha := first.scale secrets.alpha first.generator
        beta := second.scale secrets.beta second.generator
        gamma := second.scale secrets.gamma second.generator
        delta := second.scale secrets.delta second.generator
        statement := first.ofScalars statement }
    beta₁ := first.scale secrets.beta first.generator
    delta₁ := first.scale secrets.delta first.generator
    aQuery := first.ofScalars values.a
    bQuery₁ := first.ofScalars values.b
    bQuery₂ := second.ofScalars values.b
    hQuery := first.ofScalars quotient
    lQuery := first.ofScalars rest
    program := program }

def generateKeys (secrets : Secrets F) (groups : PairingGroups F G₁ G₂ T)
    (system : ConstraintSystem F) : Except (Failure KeyGenerationError) (ProvingKey F G₁ G₂) :=
  match system.defect? with
  | some defect => Failure.reject (.malformedSystem defect)
  | none => do
    let program := QuadraticProgram.ofSystem system
    match ← program.values secrets.tau with
    | none => Failure.reject (.domainUnavailable program.minDomainSize)
    | some values =>
      if values.vanishing = 0 then Failure.reject .degenerateSecrets
      else
        match inverse? secrets.gamma, inverse? secrets.delta with
        | some gammaInverse, some deltaInverse =>
          .ok (secrets.keysFor groups program values gammaInverse deltaInverse)
        | _, _ => Failure.reject .degenerateSecrets

end Secrets

end CircuitProof
