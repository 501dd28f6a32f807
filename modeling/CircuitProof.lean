import CircuitProof.Field.Word
import CircuitProof.Bn254.Domain
import CircuitProof.Bn254.Engine
import CircuitProof.Circuit.Compile
import CircuitProof.Circuit.Samples
import CircuitProof.System.Witness
import CircuitProof.Argument.KeyGeneration
import CircuitProof.Argument.Proving
import CircuitProof.Argument.Verifying
import CircuitProof.Argument.Randomized
import CircuitProof.Encoding.Artifact
import CircuitProof.Json.Value
import CircuitProof.Contract.Execution
import CircuitProof.Encoding.ProofText
import CircuitProof.Files.AtomicWrite
import CircuitProof.Files.Listing
import CircuitProof.Command.Run
import CircuitProof.Main
import CircuitProof.Proofs.Circuit.Witness
import CircuitProof.Proofs.Circuit.Soundness
import CircuitProof.Proofs.Argument.Completeness
import CircuitProof.Proofs.Polynomial.Equivalence
import CircuitProof.Proofs.Argument.Binding
import CircuitProof.Proofs.Argument.Hiding
import CircuitProof.Proofs.Argument.Rejection
import CircuitProof.Proofs.Encoding.Artifact
import CircuitProof.Proofs.Encoding.Conversion
import CircuitProof.Proofs.Encoding.CompactForm
import CircuitProof.Proofs.Encoding.Truncation
import CircuitProof.Proofs.Argument.Safety
import CircuitProof.Proofs.Contract.Equivalence
import CircuitProof.Proofs.Contract.Reading
import CircuitProof.Proofs.Circuit.Layout
import CircuitProof.Proofs.Circuit.Refusal
import CircuitProof.Proofs.Circuit.Independence
import CircuitProof.Proofs.Argument.KeyGeneration
import CircuitProof.Proofs.Encoding.DecimalForm
import CircuitProof.Proofs.Files.Race
import CircuitProof.Proofs.Files.Failure
import CircuitProof.Proofs.Command.Demo
import CircuitProof.Proofs.Linear.Uniqueness
import CircuitProof.Proofs.Circuit.NamedInputs
import CircuitProof.Proofs.Circuit.SquareChain
import CircuitProof.Proofs.Encoding.ResidueForm
import CircuitProof.Proofs.Argument.Setups
import CircuitProof.Proofs.Argument.WellFormed
