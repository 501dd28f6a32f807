import CircuitProof.Bn254.Domain
import CircuitProof.Bytes.Endian

/-!
# Sources of random scalars

A source yields 64-bit words: the keystream of a key, or a script that ends. A scalar takes four
words, keeps 254 bits, and draws all four again while they do not lie below the modulus; the number
drawn is the scalar times `2 ^ 256`. A source moves on with every word that it yields, whether or not
the draw succeeds.
-/

namespace CircuitProof

/-! ## The ChaCha20 keystream

The sixteen words of a block are held as four rows of four lanes, on which a column round works lane
by lane; a diagonal round is a column round between two rotations of the rows.
-/

namespace ChaCha

structure Lanes where
  w0 : UInt32
  w1 : UInt32
  w2 : UInt32
  w3 : UInt32
  deriving DecidableEq

namespace Lanes

def zip (f : UInt32 → UInt32 → UInt32) (x y : Lanes) : Lanes :=
  ⟨f x.w0 y.w0, f x.w1 y.w1, f x.w2 y.w2, f x.w3 y.w3⟩

def add (x y : Lanes) : Lanes := zip (· + ·) x y

/-- Combines by exclusive or, then rotates each word left. -/
def mix (bits : UInt32) (x y : Lanes) : Lanes :=
  zip (fun a b => let z := a ^^^ b; (z <<< bits) ||| (z >>> (32 - bits))) x y

/-- Moves every word one place to the left, the first to the end. -/
def turn (x : Lanes) : Lanes := ⟨x.w1, x.w2, x.w3, x.w0⟩

def toList (x : Lanes) : List UInt32 := [x.w0, x.w1, x.w2, x.w3]

end Lanes

structure Block where
  a : Lanes
  b : Lanes
  c : Lanes
  d : Lanes
  deriving DecidableEq

namespace Block

def columnRound (s : Block) : Block :=
  let a := s.a.add s.b
  let d := s.d.mix 16 a
  let c := s.c.add d
  let b := s.b.mix 12 c
  let a := a.add b
  let d := d.mix 8 a
  let c := c.add d
  let b := b.mix 7 c
  ⟨a, b, c, d⟩

def diagonalRound (s : Block) : Block :=
  let t := columnRound ⟨s.a, s.b.turn, s.c.turn.turn, s.d.turn.turn.turn⟩
  ⟨t.a, t.b.turn.turn.turn, t.c.turn.turn, t.d.turn⟩

def doubleRounds : Nat → Block → Block
  | 0, s => s
  | n + 1, s => doubleRounds n s.columnRound.diagonalRound

def add (s t : Block) : Block := ⟨s.a.add t.a, s.b.add t.b, s.c.add t.c, s.d.add t.d⟩

def words (s : Block) : List UInt32 :=
  s.a.toList ++ s.b.toList ++ s.c.toList ++ s.d.toList

end Block

structure Key where
  low : Lanes
  high : Lanes
  deriving DecidableEq

/-- Four words read from bytes, each with its least significant byte first. -/
def lanesOf (bytes : Bytes) : Lanes :=
  let word (i : Nat) : UInt32 := UInt32.ofNat (ofLittleEndian ((bytes.drop (4 * i)).take 4))
  ⟨word 0, word 1, word 2, word 3⟩

def Key.ofSeed (seed : Bytes) : Key := ⟨lanesOf seed, lanesOf (seed.drop 16)⟩

/-- The key whose seed a 64-bit congruential generator spells out word by word: each word is a
rotation of the generator's state folded onto itself. -/
def Key.ofNumber (n : UInt64) : Key :=
  let next (state : UInt64) : UInt64 := state * 6364136223846793005 + 11634580027462260723
  let word (state : UInt64) : UInt32 :=
    let folded := (((state >>> 18) ^^^ state) >>> 27).toUInt32
    let bits := (state >>> 59).toUInt32
    (folded >>> bits) ||| (folded <<< (32 - bits))
  let s0 := next n
  let s1 := next s0
  let s2 := next s1
  let s3 := next s2
  let s4 := next s3
  let s5 := next s4
  let s6 := next s5
  let s7 := next s6
  ⟨⟨word s0, word s1, word s2, word s3⟩, ⟨word s4, word s5, word s6, word s7⟩⟩

def block (key : Key) (number : Nat) : List UInt32 :=
  let start : Block :=
    { a := ⟨0x61707865, 0x3320646e, 0x79622d32, 0x6b206574⟩
      b := key.low
      c := key.high
      d := ⟨UInt32.ofNat number, UInt32.ofNat (number / Nat.pow 2 32), 0, 0⟩ }
  ((start.doubleRounds 10).add start).words

def word (key : Key) (place : Nat) : UInt64 :=
  match (block key (place / 8)).drop (2 * (place % 8)) with
  | low :: high :: _ => low.toUInt64 ||| (high.toUInt64 <<< 32)
  | _ => 0

end ChaCha

/-! ## Sources -/

inductive Source where
  /-- The keystream of a key, from a place on. -/
  | keystream (key : ChaCha.Key) (place : Nat)
  /-- Exactly these words. -/
  | script (words : List UInt64)
  deriving DecidableEq

namespace Source

def word? : Source → Option UInt64 × Source
  | keystream key place => (some (ChaCha.word key place), keystream key (place + 1))
  | script (w :: words) => (some w, script words)
  | script [] => (none, script [])

def number? : Nat → Source → Option Nat × Source
  | 0, s => (some 0, s)
  | count + 1, s =>
    match s.word? with
    | (none, s) => (none, s)
    | (some w, s) =>
      match number? count s with
      | (none, s) => (none, s)
      | (some n, s) => (some (w.toNat + Nat.pow 2 64 * n), s)

/-- The factor between a scalar and the number drawn for it. -/
def drawFactor : Scalar := Residue.ofNat (Nat.pow 2 256)

/-- Draws until a number of 254 bits lies below the modulus, at most the given number of times. -/
def scalarWithin? : Nat → Source → Option Scalar × Source
  | 0, s => (none, s)
  | tries + 1, s =>
    match s.number? 4 with
    | (none, s) => (none, s)
    | (some n, s) =>
      let kept := n % Nat.pow 2 254
      if kept < scalarModulus then (some (Residue.ofNat kept * drawFactor⁻¹), s)
      else scalarWithin? tries s

/-- The number of scalars in a whole keystream, which no run of draws outlasts. -/
def maxDraws : Nat := Nat.pow 2 65

def scalar? (s : Source) : Option Scalar × Source := s.scalarWithin? maxDraws

def nonzeroWithin? : Nat → Source → Option Scalar × Source
  | 0, s => (none, s)
  | tries + 1, s =>
    match s.scalar? with
    | (none, s) => (none, s)
    | (some x, s) => if x = 0 then nonzeroWithin? tries s else (some x, s)

def nonzero? (s : Source) : Option Scalar × Source := s.nonzeroWithin? maxDraws

/-- The four words, least significant first, of a number below `2 ^ 256`. -/
def wordsOf (n : Nat) : List UInt64 :=
  [n, n / Nat.pow 2 64, n / Nat.pow 2 128, n / Nat.pow 2 192].map UInt64.ofNat

/-- The script from which the given scalars are drawn. -/
def ofScalars (scalars : List Scalar) : Source :=
  script (scalars.flatMap fun x => wordsOf (x * drawFactor).val)

end Source

end CircuitProof
