import CircuitProof.Field.Word

/-!
# Why stored data is refused
-/

namespace CircuitProof

inductive FileFault where
  /-- No such file. -/
  | notFound
  /-- The text in the file breaks its format. -/
  | invalidData
  /-- The text in the file ends too early. -/
  | unexpectedEnd
  | other
  deriving DecidableEq

def FileFault.label : FileFault → String
  | notFound => "NotFound"
  | invalidData => "InvalidData"
  | unexpectedEnd => "UnexpectedEof"
  | other => "Other"

inductive CompactFault where
  | contradictoryFlags
  | invalidData
  | endOfInput
  /-- A list announces more items than any memory holds. -/
  | listTooLong
  deriving DecidableEq

def CompactFault.message : CompactFault → String
  | contradictoryFlags => "the call expects empty flags"
  | invalidData => "the input buffer contained invalid data"
  | endOfInput => "I/O error"
  | listTooLong => "the list is too long to be held"

inductive ArtifactError where
  | file (fault : FileFault)
  | compact (fault : CompactFault)
  | nonCanonicalFieldElement
  | invalidPoint (group : String)
  | badMagic
  | unsupportedVersion (version : Nat)
  | unexpectedArtifact (expected got : Nat)
  | invalidDecimal (text : String)
  | truncated (needed remaining : Nat)
  | trailingBytes (count : Nat)
  deriving DecidableEq

def ArtifactError.message : ArtifactError → String
  | file fault => fault.label
  | compact fault => fault.message
  | nonCanonicalFieldElement => "Field element is not canonical (not below the modulus)"
  | invalidPoint group =>
    s!"Encoded {group} point is off the curve or outside the prime-order subgroup"
  | badMagic => "Artifact does not start with the expected magic bytes"
  | unsupportedVersion version => s!"Unsupported artifact format version {version}"
  | unexpectedArtifact expected got =>
    s!"Unexpected artifact tag, expected {expected} but got {got}"
  | invalidDecimal text => s!"`{text}` is not a decimal field element"
  | truncated needed remaining =>
    s!"Input truncated: needed {needed} more bytes but {remaining} remain"
  | trailingBytes count => s!"Trailing bytes after decoding: {count}"

end CircuitProof
