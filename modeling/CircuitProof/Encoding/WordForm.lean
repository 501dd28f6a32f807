import CircuitProof.Argument.Keys
import CircuitProof.Bn254.Group
import CircuitProof.Bytes.Reader
import CircuitProof.Encoding.Error
import CircuitProof.Field.Word

/-!
# The word form

Field elements are 32-byte big-endian words. A point is its coordinates, and all zeros for infinity;
an element of the extension has its `u` part first, which is the order that pairing contracts read.
Counts, columns and widths are four big-endian bytes, and a list is its count and its items. Each
value has exactly one word form: reading refuses words that are not below the modulus and points that
are not members of their group.
-/

namespace CircuitProof

abbrev ArtifactReader (α : Type) : Type := Reader ArtifactError α

class WordForm (α : Type) where
  write : α → Bytes
  read : ArtifactReader α

namespace WordForm

def short (needed : Nat) (left : Bytes) : ArtifactError := .truncated needed left.length

def take (n : Nat) : ArtifactReader Bytes := Reader.take (short n) n

def countWidth : Nat := 4

def writeCount (n : Nat) : Bytes := bigEndian countWidth n

def readCount : ArtifactReader Nat := do
  let bytes ← take countWidth
  pure (ofBigEndian bytes)

variable {α : Type}

/-- Reads exactly one value; bytes that are left over are an error. -/
def decode [WordForm α] (bytes : Bytes) : Except ArtifactError α :=
  (read : ArtifactReader α).whole (fun rest => .trailingBytes rest.length) bytes

instance {p : Nat} [Modulus p] : WordForm (Residue p) where
  write a := a.toWord
  read := do
    let word ← take wordWidth
    Reader.ofOption .nonCanonicalFieldElement (Residue.ofWord? word)

instance : WordForm Base2 where
  write a := write a.c1 ++ write a.c0
  read := do
    let c1 ← read
    let c0 ← read
    pure ⟨c0, c1⟩

/-- The point with the given coordinates. Two zeros stand for infinity; any other point must be a
member of its group. -/
def pointOf {K : Type} [Zero K] [DecidableEq K] (group : String) (isMember : Point K → Bool)
    (x y : K) : ArtifactReader (Point K) :=
  if x = 0 ∧ y = 0 then pure .infinity
  else if isMember (.finite x y) then pure (.finite x y)
  else Reader.fail (.invalidPoint group)

instance : WordForm G1 where
  write
    | .infinity => write (0 : Base) ++ write (0 : Base)
    | .finite x y => write x ++ write y
  read := do
    let x ← read
    let y ← read
    pointOf "G1" G1.isMember x y

instance : WordForm G2 where
  write
    | .infinity => write (0 : Base2) ++ write (0 : Base2)
    | .finite x y => write x ++ write y
  read := do
    let x ← read
    let y ← read
    pointOf "G2" G2.isMember x y

instance [WordForm α] : WordForm (List α) where
  write items := writeCount items.length ++ items.flatMap write
  read := do
    let count ← readCount
    Reader.times read count

/-- A term of a row: its column and its coefficient. -/
instance [WordForm α] : WordForm (Nat × α) where
  write term := writeCount term.1 ++ write term.2
  read := do
    let column ← readCount
    let coefficient ← read
    pure (column, coefficient)

/-- The width comes before the rows. -/
instance [WordForm α] : WordForm (Matrix α) where
  write m := writeCount m.width ++ write m.rows
  read := do
    let width ← readCount
    let rows ← read
    pure ⟨rows, width⟩

/-- The number of statement columns comes before the matrices. -/
instance [WordForm α] : WordForm (QuadraticProgram α) where
  write p := writeCount p.numStatement ++ write p.a ++ write p.b ++ write p.c
  read := do
    let numStatement ← readCount
    let a ← read
    let b ← read
    let c ← read
    pure ⟨a, b, c, numStatement⟩

variable {G₁ G₂ : Type}

instance [WordForm G₁] [WordForm G₂] : WordForm (Proof G₁ G₂) where
  write proof := write proof.a ++ write proof.b ++ write proof.c
  read := do
    let a ← read
    let b ← read
    let c ← read
    pure ⟨a, b, c⟩

instance [WordForm G₁] [WordForm G₂] : WordForm (VerifyingKey G₁ G₂) where
  write vk :=
    write vk.alpha ++ write vk.beta ++ write vk.gamma ++ write vk.delta ++ write vk.statement
  read := do
    let alpha ← read
    let beta ← read
    let gamma ← read
    let delta ← read
    let statement ← read
    pure ⟨alpha, beta, gamma, delta, statement⟩

instance [WordForm α] [WordForm G₁] [WordForm G₂] : WordForm (ProvingKey α G₁ G₂) where
  write pk :=
    write pk.verifying ++ write pk.beta₁ ++ write pk.delta₁ ++ write pk.aQuery ++
      write pk.bQuery₁ ++ write pk.bQuery₂ ++ write pk.hQuery ++ write pk.lQuery ++
      write pk.program
  read := do
    let verifying ← read
    let beta₁ ← read
    let delta₁ ← read
    let aQuery ← read
    let bQuery₁ ← read
    let bQuery₂ ← read
    let hQuery ← read
    let lQuery ← read
    let program ← read
    pure ⟨verifying, beta₁, delta₁, aQuery, bQuery₁, bQuery₂, hQuery, lQuery, program⟩

end WordForm

end CircuitProof
