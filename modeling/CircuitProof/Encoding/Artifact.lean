import CircuitProof.Encoding.CompactForm
import CircuitProof.Encoding.WordForm

/-!
# Artifacts

A stored key or proof starts with a header: four magic bytes, the format version and a tag for what
follows. The body is in word form, or in compact form for those who ask for it.
-/

namespace CircuitProof

inductive ArtifactKind where
  | provingKey
  | verifyingKey
  | proof
  deriving DecidableEq

def ArtifactKind.tag : ArtifactKind → Nat
  | provingKey => 1
  | verifyingKey => 2
  | proof => 3

/-- Types that are stored as artifacts. -/
class Artifact (α : Type) where
  kind : ArtifactKind

namespace Artifact

/-- The letters `R1G6`. -/
def magic : Bytes := [0x52, 0x31, 0x47, 0x36]

def formatVersion : Nat := 1

/-- Magic, version in two big-endian bytes, tag. -/
def headerLength : Nat := 7

def header (kind : ArtifactKind) : Bytes :=
  magic ++ bigEndian 2 formatVersion ++ [UInt8.ofNat kind.tag]

/-- The body behind the header of the expected kind. -/
def stripHeader (expected : ArtifactKind) (bytes : Bytes) : Except ArtifactError Bytes :=
  let head := bytes.take headerLength
  if head.length < headerLength ∨ head.take magic.length ≠ magic then .error .badMagic
  else
    let version := ofBigEndian ((head.drop magic.length).take 2)
    let tag := ofBigEndian (head.drop (magic.length + 2))
    if version ≠ formatVersion then .error (.unsupportedVersion version)
    else if tag ≠ expected.tag then .error (.unexpectedArtifact expected.tag tag)
    else .ok (bytes.drop headerLength)

variable {α : Type} [Artifact α]

def encode [WordForm α] (value : α) : Bytes := header (kind α) ++ WordForm.write value

def decode [WordForm α] (bytes : Bytes) : Except ArtifactError α :=
  match stripHeader (kind α) bytes with
  | .error e => .error e
  | .ok body => WordForm.decode body

def encodeCompact [CompactForm α] (value : α) : Bytes := header (kind α) ++ CompactForm.write value

def decodeCompact [CompactForm α] (bytes : Bytes) : Except ArtifactError α :=
  match stripHeader (kind α) bytes with
  | .error e => .error e
  | .ok body =>
    match (CompactForm.read : CompactReader α) body with
    | .error fault => .error (.compact fault)
    | .ok (value, []) => .ok value
    | .ok (_, rest) => .error (.trailingBytes rest.length)

end Artifact

variable {F G₁ G₂ : Type}

instance : Artifact (Proof G₁ G₂) where
  kind := .proof

instance : Artifact (VerifyingKey G₁ G₂) where
  kind := .verifyingKey

instance : Artifact (ProvingKey F G₁ G₂) where
  kind := .provingKey

end CircuitProof
