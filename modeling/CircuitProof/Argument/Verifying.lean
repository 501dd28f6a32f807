import CircuitProof.Argument.Keys

/-!
# Verifying

A proof is accepted when `e(A, B) = e(α, β) · e(Σ xᵢ Γᵢ, γ) · e(C, δ)`. Its points are checked for
membership first, and a point that fails is named; a well formed proof that does not verify is no
error. The points of the key are taken as they are, and points that are no members may lack a pairing.
-/

namespace CircuitProof

inductive ProofElement where
  | a
  | b
  | c
  deriving DecidableEq

def ProofElement.label : ProofElement → String
  | a => "A"
  | b => "B"
  | c => "C"

inductive VerifyError where
  | malformedProof (element : ProofElement)
  | shownLengthMismatch (expected got : Nat)
  /-- Points of the key have no pairing. -/
  | noPairing
  deriving DecidableEq

def VerifyError.message : VerifyError → String
  | malformedProof element =>
    "Proof element " ++ element.label ++
      " is not a valid curve point in the prime-order subgroup"
  | shownLengthMismatch expected got =>
    s!"Invalid public input length, expected length {expected} but got {got}"
  | noPairing => "Points of the verifying key have no pairing"

variable {F G₁ G₂ T : Type}

/-- The first element of a proof that is no member of its group. -/
def Proof.malformed? (groups : PairingGroups F G₁ G₂ T) (proof : Proof G₁ G₂) :
    Option ProofElement :=
  if !groups.first.isMember proof.a then some .a
  else if !groups.second.isMember proof.b then some .b
  else if !groups.first.isMember proof.c then some .c
  else none

/-- A verifying key with the pairing that depends on nothing else. -/
structure PreparedKey (G₁ G₂ T : Type) where
  key : VerifyingKey G₁ G₂
  alphaBeta : T

def VerifyingKey.prepare (groups : PairingGroups F G₁ G₂ T) (vk : VerifyingKey G₁ G₂) :
    Except VerifyError (PreparedKey G₁ G₂ T) :=
  match groups.product? [(vk.alpha, vk.beta)] with
  | none => .error .noPairing
  | some alphaBeta => .ok ⟨vk, alphaBeta⟩

variable [Mul T] [DecidableEq T]

def PreparedKey.verify (groups : PairingGroups F G₁ G₂ T) (pvk : PreparedKey G₁ G₂ T)
    (shown : List F) (proof : Proof G₁ G₂) : Except VerifyError Bool :=
  let vk := pvk.key
  match vk.statement with
  | [] => .error (.shownLengthMismatch vk.numShown shown.length)
  | start :: bases =>
    if shown.length ≠ vk.numShown then
      .error (.shownLengthMismatch vk.numShown shown.length)
    else
      match proof.malformed? groups with
      | some element => .error (.malformedProof element)
      | none =>
        let inputs := groups.first.add start (groups.first.combine shown bases)
        match groups.product? [(proof.a, proof.b)],
          groups.product? [(inputs, vk.gamma), (proof.c, vk.delta)] with
        | some left, some right => .ok (left = pvk.alphaBeta * right)
        | _, _ => .error .noPairing

def VerifyingKey.verify (groups : PairingGroups F G₁ G₂ T) (vk : VerifyingKey G₁ G₂)
    (shown : List F) (proof : Proof G₁ G₂) : Except VerifyError Bool := do
  (← vk.prepare groups).verify groups shown proof

end CircuitProof
