import CircuitProof.Encoding.WordForm
import CircuitProof.Json.Value

/-!
# Proofs and inputs as decimal text

The eight words of a proof, and the shown inputs, as decimal strings in the shape that verifier
contracts take: `A = [x, y]`, `B = [[x1, x0], [y1, y0]]`, `C = [x, y]`. A proof may also be written as
the bare list of the three.
-/

namespace CircuitProof

structure ProofText where
  a : String × String
  b : (String × String) × (String × String)
  c : String × String
  deriving DecidableEq

namespace ProofText

/-- The words of a proof in the order of its word form. -/
def words (t : ProofText) : List String :=
  [t.a.1, t.a.2, t.b.1.1, t.b.1.2, t.b.2.1, t.b.2.2, t.c.1, t.c.2]

def wordAt (bytes : Bytes) (index : Nat) : String :=
  decimalOfWord ((bytes.drop (index * wordWidth)).take wordWidth)

variable {G₁ G₂ : Type} [WordForm G₁] [WordForm G₂]

def ofProof (proof : Proof G₁ G₂) : ProofText :=
  let word := wordAt (WordForm.write proof)
  { a := (word 0, word 1)
    b := ((word 2, word 3), (word 4, word 5))
    c := (word 6, word 7) }

def bytesOfWords : List String → Except ArtifactError Bytes
  | [] => .ok []
  | s :: rest =>
    match wordOfDecimal? s with
    | none => .error (.invalidDecimal s)
    | some word => (bytesOfWords rest).map (word ++ ·)

/-- The proof that a text stands for. Every word is read before any point is looked at. -/
def toProof (t : ProofText) : Except ArtifactError (Proof G₁ G₂) :=
  match bytesOfWords t.words with
  | .error e => .error e
  | .ok bytes => WordForm.decode bytes

/-! ## As JSON -/

structure Parts where
  a : Option (String × String)
  b : Option ((String × String) × (String × String))
  c : Option (String × String)

def ofParts? (parts : Parts) : Option ProofText := do
  some ⟨← parts.a, ← parts.b, ← parts.c⟩

/-- Reads a part unless it has been read before. -/
def readPart {α : Type} (part : Option α) (value : Json.Parser α) : Json.Parser (Option α) :=
  match part with
  | some _ => Json.fail
  | none => do
    Json.keyEnd
    let x ← value
    pure (some x)

def coordinates : Json.Parser (String × String) := Json.pair Json.string

/-- The entries of a record up to its end; unknown keys are skipped. Each round takes a byte at
least. -/
def readEntries : Nat → Bool → Parts → Json.Parser Parts
  | 0, _, _ => Json.fail
  | fuel + 1, first, parts => do
    match ← Json.nextKey? first with
    | none => pure parts
    | some key =>
      if key = "A" then do
        let a ← readPart parts.a coordinates
        readEntries fuel false { parts with a := a }
      else if key = "B" then do
        let b ← readPart parts.b (Json.pair coordinates)
        readEntries fuel false { parts with b := b }
      else if key = "C" then do
        let c ← readPart parts.c coordinates
        readEntries fuel false { parts with c := c }
      else do
        Json.keyEnd
        Json.skipValue
        readEntries fuel false parts

def record : Json.Parser ProofText := do
  let parts ← fun bytes => readEntries (bytes.length + 1) true ⟨none, none, none⟩ bytes
  match ofParts? parts with
  | none => Json.fail
  | some t =>
    Json.close Json.closeBrace
    pure t

def tuple : Json.Parser ProofText := do
  let item {α : Type} (first : Bool) (value : Json.Parser α) : Json.Parser α := do
    if ← Json.hasNext first then value else Json.fail
  let a ← item true coordinates
  let b ← item false (Json.pair coordinates)
  let c ← item false coordinates
  Json.close Json.closeBracket
  pure ⟨a, b, c⟩

def value : Json.Parser ProofText := do
  let b ← Json.peek
  if b = Json.openBrace then do
    Json.expect Json.openBrace
    record
  else if b = Json.openBracket then do
    Json.expect Json.openBracket
    tuple
  else Json.wrongType

def ofJson (bytes : Bytes) : Except Json.Fault ProofText := Json.document value bytes

def toJson (t : ProofText) : String :=
  let pair (margin : String) (p : String × String) : String :=
    Json.writeStrings margin [p.1, p.2]
  Json.layOut "\x7b" "\x7d" ""
    [Json.quoted "A" ++ ": " ++ pair "  " t.a,
      Json.quoted "B" ++ ": " ++
        Json.layOut "[" "]" "  " [pair "    " t.b.1, pair "    " t.b.2],
      Json.quoted "C" ++ ": " ++ pair "  " t.c]

end ProofText

def inputText (inputs : List Scalar) : List String := inputs.map Residue.toDecimal

/-- The inputs that a list of texts stands for, or the first text that is none. -/
def ofInputText : List String → Except ArtifactError (List Scalar)
  | [] => .ok []
  | s :: rest =>
    match (Residue.ofDecimal? s : Option Scalar) with
    | none => .error (.invalidDecimal s)
    | some x => (ofInputText rest).map (x :: ·)

def stringsOfJson (bytes : Bytes) : Except Json.Fault (List String) :=
  Json.document (Json.list Json.string) bytes

def stringsToJson (items : List String) : String := Json.writeStrings "" items

end CircuitProof
