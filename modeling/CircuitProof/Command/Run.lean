import CircuitProof.Argument.KeyGeneration
import CircuitProof.Argument.Proving
import CircuitProof.Argument.Randomized
import CircuitProof.Argument.Verifying
import CircuitProof.Circuit.Compile
import CircuitProof.Circuit.Samples
import CircuitProof.Command.Arguments
import CircuitProof.Encoding.Artifact
import CircuitProof.Encoding.Error
import CircuitProof.Encoding.ProofText
import CircuitProof.Files.AtomicWrite
import CircuitProof.Files.Path

/-!
# The demonstration and the check

`demo` makes keys for `A + B = Sum`, proves one statement and leaves keys, contract, proof and inputs
in a directory; `verify` checks the proof text and the inputs of such a directory against its key. Both
reach files through `FileAccess` alone, so that they run on a disk that is a value as well as on a real
one.
-/

namespace CircuitProof

/-! ## Why a command fails

The cause of a failure is the error of the step that failed. A step that knows what it was doing says
so in its context, which is then what the user reads.
-/

namespace Command

inductive Cause where
  | compile (error : CompileError)
  | keyGeneration (error : Failure KeyGenerationError)
  | witness (error : Failure WitnessError)
  | prove (error : Failure ProveError)
  | verify (error : VerifyError)
  | artifact (error : ArtifactError)
  /-- A proof that was just made does not verify. -/
  | freshProofRejected
  | proofRejected
  deriving DecidableEq

def failureMessage {ε : Type} (message : ε → String) : Failure ε → String
  | .rejected cause => message cause
  | .outOfRange => "an index lies outside its vector"
  | .exhausted => "the source of randomness has run out"

def Cause.message : Cause → String
  | compile error => error.message
  | keyGeneration error => failureMessage KeyGenerationError.message error
  | witness error => failureMessage WitnessError.message error
  | prove error => failureMessage ProveError.message error
  | verify error => error.message
  | artifact error => error.message
  | freshProofRejected => "freshly generated proof failed to verify"
  | proofRejected => "proof is invalid for the given public input"

structure Error where
  context : Option String
  cause : Cause
  deriving DecidableEq

def Error.message (e : Error) : String := e.context.getD e.cause.message

/-! ## File names -/

def provingKeyFile : String := "test.pk"
def verifyingKeyFile : String := "test.vk"
def proofFile : String := "proof.bin"
def proofTextFile : String := "proof.json"
def inputFile : String := "input.json"
def contractFile : String := "verifier.sol"

/-! ## Steps -/

/-- The files of a computation `m`. -/
structure FileAccess (m : Type → Type) where
  read : String → m (Except FileFault Bytes)
  /-- Replaces a file in one step, making the directories above it. -/
  write : String → Bytes → m (Except FileFault Unit)

def FileAccess.ofDisk (suffix : String) : FileAccess (StateM Disk) where
  read path := fun disk => (disk.read (.ofString path), disk)
  write path bytes := fun disk => disk.writeAtomic suffix (.ofString path) bytes

abbrev Steps (m : Type → Type) (α : Type) : Type := ExceptT Error m α

variable {m : Type → Type} [Monad m]

/-- A result whose error becomes the cause of a failure. -/
def result {ε α : Type} (cause : ε → Cause) : Except ε α → Steps m α
  | .ok a => pure a
  | .error e => throw ⟨none, cause e⟩

def inContext {α : Type} (context : String) (step : Steps m α) : Steps m α :=
  tryCatch step fun e => throw { e with context := some context }

variable (files : FileAccess m)

def readFile (path : String) : Steps m Bytes := do
  result (fun fault => .artifact (.file fault)) (← files.read path)

def writeFile (path : String) (bytes : Bytes) : Steps m Unit := do
  result (fun fault => .artifact (.file fault)) (← files.write path bytes)

def jsonFault : Json.Fault → ArtifactError
  | .malformed => .file .invalidData
  | .cutShort => .file .unexpectedEnd

def load {ε α : Type} (cause : ε → ArtifactError) (decode : Bytes → Except ε α) (path : String) :
    Steps m α :=
  inContext ("loading " ++ path) do
    let bytes ← readFile files path
    result (fun e => .artifact (cause e)) (decode bytes)

/-! ## Commands -/

variable {G₁ G₂ T : Type} [WordForm G₁] [WordForm G₂] [Mul T] [DecidableEq T]

/-- The key of the keystream for a seed: its eight bytes, the most significant first, and zeros. -/
def seedKey (seed : Nat) : ChaCha.Key :=
  ChaCha.Key.ofSeed (bigEndian 8 seed ++ List.replicate 24 0)

/-- Keys for a system, with the randomness that is left. Seeded secrets take none of it. -/
def makeKeys (groups : PairingGroups Scalar G₁ G₂ T) (system : ConstraintSystem Scalar)
    (seed : Option Nat) (entropy : Source) :
    Except (Failure KeyGenerationError) (ProvingKey Scalar G₁ G₂) × Source :=
  match seed with
  | some n => ((generateKeysFrom groups system (.keystream (seedKey n) 0)).1, entropy)
  | none => generateKeysFrom groups system entropy

def sumAssignment (options : DemoOptions) : Assignment Scalar :=
  ((Assignment.empty.set "A" (options.a : Scalar)).set "B" (options.b : Scalar)).set "Sum"
    (options.sum : Scalar)

def demo (groups : PairingGroups Scalar G₁ G₂ T) (contract : VerifyingKey G₁ G₂ → String)
    (entropy : Source) (options : DemoOptions) : Steps m Unit := do
  let place (name : String) : String := Path.join options.directory name
  let system ← result .compile ((Circuit.sum : Circuit Scalar).compile .reject)
  let (keys, entropy) := makeKeys groups system options.seed entropy
  let pk ← result .keyGeneration keys
  let vk := pk.verifying
  inContext "writing the Solidity verifier" do
    writeFile files (place contractFile) (utf8 (contract vk))
  writeFile files (place verifyingKeyFile) (Artifact.encode vk)
  writeFile files (place provingKeyFile) (Artifact.encode pk)
  let witness ← inContext "the assignment does not satisfy A + B = Sum" do
    result .witness (system.generateWitnessNamed (sumAssignment options))
  let proof ← result .prove (pk.prove groups witness entropy).1
  writeFile files (place proofFile) (Artifact.encode proof)
  writeFile files (place proofTextFile) (utf8 (ProofText.ofProof proof).toJson)
  writeFile files (place inputFile) (utf8 (stringsToJson (inputText witness.shown)))
  if ← result .verify (vk.verify groups witness.shown proof) then pure ()
  else throw ⟨none, .freshProofRejected⟩

def verify (groups : PairingGroups Scalar G₁ G₂ T) (options : VerifyOptions) : Steps m Unit := do
  let place (given : Option String) (name : String) : String :=
    given.getD (Path.join options.directory name)
  let vk : VerifyingKey G₁ G₂ ←
    load files id Artifact.decode (place options.key verifyingKeyFile)
  let text ← load files jsonFault ProofText.ofJson (place options.proof proofTextFile)
  let inputs ← load files jsonFault stringsOfJson (place options.input inputFile)
  let proof : Proof G₁ G₂ ← result .artifact text.toProof
  let shown ← result .artifact (ofInputText inputs)
  if ← result .verify (vk.verify groups shown proof) then pure ()
  else throw ⟨none, .proofRejected⟩

end Command

end CircuitProof
