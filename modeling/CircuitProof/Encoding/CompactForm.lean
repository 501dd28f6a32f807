import CircuitProof.Argument.Keys
import CircuitProof.Bn254.Group
import CircuitProof.Bytes.Reader
import CircuitProof.Encoding.Error
import CircuitProof.Field.Word

/-!
# The compact form

Numbers are little-endian, counts and columns of eight bytes and field elements of 32. A point is its
first coordinate; the two highest bits of the last byte, which no coordinate needs, say whether the
second coordinate is the larger one and whether the point is infinity. Room for a list is made as soon
as its length is known, and a length for which no memory has room is refused. The items of a list are
all read before any of them is checked for membership; a point outside a list is checked at once.
-/

namespace CircuitProof

abbrev CompactReader (α : Type) : Type := Reader CompactFault α

/-- Types whose compact form can be read without a check and checked afterwards. -/
class CompactItem (α : Type) where
  /-- The number of bytes that an item takes up in memory, where coordinates and numbers are held in
  words of eight bytes. -/
  room : Nat
  write : α → Bytes
  read : CompactReader α
  isValid : α → Bool

class CompactForm (α : Type) where
  write : α → Bytes
  read : CompactReader α

namespace CompactForm

def take (n : Nat) : CompactReader Bytes := Reader.take (fun _ => .endOfInput) n

def writeCount (n : Nat) : Bytes := littleEndian 8 n

def readCount : CompactReader Nat := do
  let bytes ← take 8
  pure (ofLittleEndian bytes)

variable {α : Type}

/-- A single item is checked as soon as it is read. -/
instance [CompactItem α] : CompactForm α where
  write := CompactItem.write
  read := do
    let item ← CompactItem.read
    if CompactItem.isValid item then pure item else Reader.fail .invalidData

/-- A residue of 32 bytes, without flags. -/
instance {p : Nat} : CompactItem (Residue p) where
  room := 32
  write a := littleEndian 32 a.val
  read := do
    let bytes ← take 32
    Reader.ofOption .invalidData (Residue.ofNat? (ofLittleEndian bytes))
  isValid _ := true

/-- What the two highest bits of a flagged coordinate say. -/
inductive Flag where
  | smaller
  | larger
  | infinity
  deriving DecidableEq

/-- The number that a flag adds to a coordinate. -/
def Flag.bits : Flag → Nat
  | smaller => 0
  | larger => Nat.pow 2 255
  | infinity => Nat.pow 2 254

/-- The flag of a number of 256 bits; the two bits exclude each other. -/
def Flag.ofNumber? (n : Nat) : Option Flag :=
  match n.testBit 255, n.testBit 254 with
  | true, true => none
  | true, false => some larger
  | false, true => some infinity
  | false, false => some smaller

def Flag.ofLarger (isLarger : Bool) : Flag := if isLarger then larger else smaller

def writeFlagged (x : Base) (flag : Flag) : Bytes := littleEndian 32 (x.val + flag.bits)

/-- Contradictory flags are noticed before a coordinate that is too large. -/
def readFlagged : CompactReader (Base × Flag) := do
  let bytes ← take 32
  let n := ofLittleEndian bytes
  let flag ← Reader.ofOption .contradictoryFlags (Flag.ofNumber? n)
  let x ← Reader.ofOption .invalidData (Residue.ofNat? (n % Nat.pow 2 254))
  pure (x, flag)

/-- The point that a first coordinate and a flag stand for. -/
def pointOf {K : Type} (ofX? : K → Bool → Option (Point K)) (x : K) (flag : Flag) :
    CompactReader (Point K) :=
  match flag with
  | .infinity => pure .infinity
  | .larger => Reader.ofOption .invalidData (ofX? x true)
  | .smaller => Reader.ofOption .invalidData (ofX? x false)

/-- Two coordinates and a word that tells infinity. -/
instance : CompactItem G1 where
  room := 72
  write
    | .infinity => writeFlagged 0 .infinity
    | .finite x y => writeFlagged x (.ofLarger y.isLarger)
  read := do
    let (x, flag) ← readFlagged
    pointOf G1.ofX? x flag
  isValid := G1.isMember

instance : CompactItem G2 where
  room := 136
  write
    | .infinity => CompactItem.write (0 : Base) ++ writeFlagged 0 .infinity
    | .finite x y => CompactItem.write x.c0 ++ writeFlagged x.c1 (.ofLarger y.isLarger)
  read := do
    let c0 ← CompactItem.read
    let (c1, flag) ← readFlagged
    pointOf G2.ofX? ⟨c0, c1⟩ flag
  isValid := G2.isMember

/-- The number of bytes that no list in memory reaches. -/
def memoryLimit : Nat := Nat.pow 2 63

/-- A list in memory is known by three words: its place, its length and the room made for it. -/
instance [CompactItem α] : CompactItem (List α) where
  room := 24
  write items := writeCount items.length ++ items.flatMap CompactItem.write
  read := do
    let count ← readCount
    if count * CompactItem.room α < memoryLimit then Reader.times CompactItem.read count
    else Reader.fail .listTooLong
  isValid items := items.all CompactItem.isValid

/-- A term of a row: its column and its coefficient. -/
instance [CompactItem α] : CompactItem (Nat × α) where
  room := 8 + CompactItem.room α
  write term := writeCount term.1 ++ CompactItem.write term.2
  read := do
    let column ← readCount
    let coefficient ← CompactItem.read
    pure (column, coefficient)
  isValid term := CompactItem.isValid term.2

/-- The rows come before the width. -/
instance [CompactItem α] : CompactForm (Matrix α) where
  write m := write m.rows ++ writeCount m.width
  read := do
    let rows ← read
    let width ← readCount
    pure ⟨rows, width⟩

/-- The matrices come before the number of statement columns. -/
instance [CompactItem α] : CompactForm (QuadraticProgram α) where
  write p := write p.a ++ write p.b ++ write p.c ++ writeCount p.numStatement
  read := do
    let a ← read
    let b ← read
    let c ← read
    let numStatement ← readCount
    pure ⟨a, b, c, numStatement⟩

variable {G₁ G₂ : Type} [CompactItem G₁] [CompactItem G₂]

instance : CompactForm (Proof G₁ G₂) where
  write proof := write proof.a ++ write proof.b ++ write proof.c
  read := do
    let a ← read
    let b ← read
    let c ← read
    pure ⟨a, b, c⟩

instance : CompactForm (VerifyingKey G₁ G₂) where
  write vk :=
    write vk.alpha ++ write vk.beta ++ write vk.gamma ++ write vk.delta ++ write vk.statement
  read := do
    let alpha ← read
    let beta ← read
    let gamma ← read
    let delta ← read
    let statement ← read
    pure ⟨alpha, beta, gamma, delta, statement⟩

instance [CompactItem α] : CompactForm (ProvingKey α G₁ G₂) where
  write pk :=
    write pk.verifying ++ write pk.beta₁ ++ write pk.delta₁ ++ write pk.aQuery ++
      write pk.bQuery₁ ++ write pk.bQuery₂ ++ write pk.hQuery ++ write pk.lQuery ++
      write pk.program
  read := do
    let verifying ← read
    let beta₁ ← read
    let delta₁ ← read
    let aQuery ← read
    let bQuery₁ ← read
    let bQuery₂ ← read
    let hQuery ← read
    let lQuery ← read
    let program ← read
    pure ⟨verifying, beta₁, delta₁, aQuery, bQuery₁, bQuery₂, hQuery, lQuery, program⟩

end CompactForm

end CircuitProof
