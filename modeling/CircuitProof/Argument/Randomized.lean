import CircuitProof.Argument.KeyGeneration
import CircuitProof.Argument.Proving
import CircuitProof.Bn254.Domain
import CircuitProof.Random.Source

/-!
# Drawing secrets and blinding scalars

The five secrets are drawn in order, none of them zero. The two blinding scalars may be zero and are
drawn only once the prover has accepted its key and its witness.
-/

namespace CircuitProof

/-- Draws one item after another; the first that fails ends the run. -/
def drawAll {α : Type} (draw : Source → Option α × Source) :
    Nat → Source → Option (List α) × Source
  | 0, s => (some [], s)
  | count + 1, s =>
    match draw s with
    | (none, s) => (none, s)
    | (some x, s) =>
      match drawAll draw count s with
      | (none, s) => (none, s)
      | (some xs, s) => (some (x :: xs), s)

def Secrets.draw? (source : Source) : Option (Secrets Scalar) × Source :=
  match drawAll Source.nonzero? 5 source with
  | (some [tau, alpha, beta, gamma, delta], s) => (some ⟨tau, alpha, beta, gamma, delta⟩, s)
  | (_, s) => (none, s)

variable {G₁ G₂ T : Type}

/-- Draws secrets and generates keys from them. The secrets are drawn before the system is looked
at. -/
def generateKeysFrom (groups : PairingGroups Scalar G₁ G₂ T) (system : ConstraintSystem Scalar)
    (source : Source) : Except (Failure KeyGenerationError) (ProvingKey Scalar G₁ G₂) × Source :=
  match Secrets.draw? source with
  | (none, s) => (.error .exhausted, s)
  | (some secrets, s) => (secrets.generateKeys groups system, s)

/-- Proves with blinding scalars drawn from a source. -/
def ProvingKey.prove (groups : PairingGroups Scalar G₁ G₂ T) (pk : ProvingKey Scalar G₁ G₂)
    (w : Witness Scalar) (source : Source) :
    Except (Failure ProveError) (Proof G₁ G₂) × Source :=
  match pk.prover groups w with
  | .error e => (.error e, source)
  | .ok blind =>
    match drawAll Source.scalar? 2 source with
    | (some [r, s], rest) => (.ok (blind r s), rest)
    | (_, rest) => (.error .exhausted, rest)

end CircuitProof
