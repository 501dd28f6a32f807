import CircuitProof.Polynomial.QuadraticProgram

/-!
# The groups, the keys and the proofs of the argument

The verifying key has one point for each statement column; everything else about it has a fixed
size. The proving key holds the values of the column polynomials as points, and the matrices from
which the prover computes the quotient.
-/

namespace CircuitProof

/-! ## Groups with a pairing

The argument reaches its two point groups and their pairing through the operations below and through
nothing else. Points are held in whatever form their type gives them, so not every value need be a
member of the group; `isMember` tells.
-/

/-- A group of points `G` with scalars `F` and a generator. -/
structure PointGroup (F G : Type) where
  zero : G
  add : G → G → G
  neg : G → G
  scale : F → G → G
  /-- The same multiple of a member, by a way that may rest on its being a member. -/
  scaleMember : F → G → G
  /-- The sum of the listed points, each multiplied by the scalar beside it. -/
  combine : List F → List G → G
  generator : G
  isMember : G → Bool

namespace PointGroup

variable {F G : Type} (group : PointGroup F G)

def sub (p q : G) : G := group.add p (group.neg q)

def ofScalars (scalars : List F) : List G := scalars.map fun k => group.scale k group.generator

@[simp] theorem length_ofScalars (scalars : List F) :
    (group.ofScalars scalars).length = scalars.length := by
  simp [ofScalars]

end PointGroup

structure PairingGroups (F G₁ G₂ T : Type) where
  first : PointGroup F G₁
  second : PointGroup F G₂
  /-- The product of the pairings of the listed points. Members always have one; other points need
  not. -/
  product? : List (G₁ × G₂) → Option T

/-! ## Keys and proofs -/

structure Proof (G₁ G₂ : Type) where
  a : G₁
  b : G₂
  c : G₁
  deriving DecidableEq

structure VerifyingKey (G₁ G₂ : Type) where
  alpha : G₁
  beta : G₂
  gamma : G₂
  delta : G₂
  /-- A point for each statement column, the constant one first. -/
  statement : List G₁
  deriving DecidableEq

def VerifyingKey.numShown {G₁ G₂ : Type} (vk : VerifyingKey G₁ G₂) : Nat := vk.statement.length - 1

structure ProvingKey (F G₁ G₂ : Type) where
  verifying : VerifyingKey G₁ G₂
  beta₁ : G₁
  delta₁ : G₁
  /-- The `A` polynomial of each column, as points of the first group. -/
  aQuery : List G₁
  /-- The `B` polynomial of each column, as points of the first group. -/
  bQuery₁ : List G₁
  /-- The `B` polynomial of each column, as points of the second group. -/
  bQuery₂ : List G₂
  /-- The powers of the secret point times the vanishing polynomial. -/
  hQuery : List G₁
  /-- The combined polynomials of the columns outside the statement. -/
  lQuery : List G₁
  program : QuadraticProgram F
  deriving DecidableEq

namespace ProvingKey

variable {F G₁ G₂ : Type} (pk : ProvingKey F G₁ G₂)

/-- The length of the assignment vector that the key proves for. -/
def numColumns : Nat := pk.aQuery.length

def numStatement : Nat := pk.verifying.statement.length

end ProvingKey

end CircuitProof
