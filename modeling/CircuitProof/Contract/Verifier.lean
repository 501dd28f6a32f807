import CircuitProof.Argument.Keys
import CircuitProof.Bn254.Group
import CircuitProof.Contract.Layout
import CircuitProof.Field.Word

/-!
# The verifier contract

A verifying key as a standalone contract. The contract holds the coordinates of the key as constants,
in the order of the word form, and its function `verifyProof` checks a proof with the precompiles:
`e(-A, B) · e(α, β) · e(Σ xᵢ Γᵢ, γ) · e(C, δ) = 1`.
-/

namespace CircuitProof

/-! ## Points as contracts see them

A contract knows a point by the numbers of its coordinates, zeros for infinity, with the `u` part of a
coordinate in the extension first. Reading takes exactly the numbers of members back.
-/

namespace Contract

/-- The coordinates of a point of the first group, zeros for infinity. -/
def coordinates₁ : G1 → Nat × Nat
  | .infinity => (0, 0)
  | .finite x y => (x.val, y.val)

def coordinates₂ : G2 → List Nat
  | .infinity => [0, 0, 0, 0]
  | .finite x y => [x.c1.val, x.c0.val, y.c1.val, y.c0.val]

@[simp] theorem length_coordinates₂ (p : G2) : (coordinates₂ p).length = 4 := by cases p <;> rfl

/-- The member of the first group with the given coordinates. -/
def point₁? (isMember : G1 → Bool) (x y : Nat) : Option G1 :=
  if x = 0 ∧ y = 0 then some .infinity
  else do
    let x ← Residue.ofNat? x
    let y ← Residue.ofNat? y
    if isMember (.finite x y) then some (.finite x y) else none

def point₂? (isMember : G2 → Bool) (x₁ x₀ y₁ y₀ : Nat) : Option G2 :=
  if x₁ = 0 ∧ x₀ = 0 ∧ y₁ = 0 ∧ y₀ = 0 then some .infinity
  else do
    let x₁ ← Residue.ofNat? x₁
    let x₀ ← Residue.ofNat? x₀
    let y₁ ← Residue.ofNat? y₁
    let y₀ ← Residue.ofNat? y₀
    let p := .finite ⟨x₀, x₁⟩ ⟨y₀, y₁⟩
    if isMember p then some p else none

end Contract

/-! ## The contract -/

namespace Contract

def moduli : List (String × Nat) :=
  [("PRIME_Q", baseModulus), ("SNARK_SCALAR_FIELD", scalarModulus)]

def names₂ (point : String) : List String := ["_X1", "_X0", "_Y1", "_Y0"].map (point ++ ·)

/-- The coordinates of the points of a key outside its statement. -/
def keyConstants (vk : VerifyingKey G1 G2) : List (String × Nat) :=
  let (alphaX, alphaY) := coordinates₁ vk.alpha
  [("ALPHA_X", alphaX), ("ALPHA_Y", alphaY)] ++
    (names₂ "BETA").zip (coordinates₂ vk.beta) ++
    (names₂ "GAMMA").zip (coordinates₂ vk.gamma) ++
    (names₂ "DELTA").zip (coordinates₂ vk.delta)

def statementCase (point : G1) (index : Nat) : Statement :=
  let (x, y) := coordinates₁ point
  .returnPairIf (.equal (.name "i") (.number index)) (.number x) (.number y)

def statementRoutine (points : List G1) : Routine where
  name := "ic"
  parameters := [(.word, "i")]
  modifiers := ["internal", "pure"]
  results := [(.word, some "x"), (.word, some "y")]
  breaks := .nowhere
  body := points.zipIdx.map (fun (point, index) => statementCase point index) ++
    [.revert "verifier-ic-index"]

/-- What the pairing is called on: the four pairs of the equation. -/
def pairingInput : List Term :=
  [.item "a" (.number 0),
    .mod (.sub (.name "PRIME_Q") (.mod (.item "a" (.number 1)) (.name "PRIME_Q")))
      (.name "PRIME_Q"),
    .cell "b" (.number 0) (.number 0), .cell "b" (.number 0) (.number 1),
    .cell "b" (.number 1) (.number 0), .cell "b" (.number 1) (.number 1)] ++
  (["ALPHA_X", "ALPHA_Y"] ++ names₂ "BETA" ++ ["vkX", "vkY"] ++ names₂ "GAMMA").map Term.name ++
  [.item "c" (.number 0), .item "c" (.number 1)] ++ (names₂ "DELTA").map Term.name

def accumulateStatements : List Statement :=
  [.step (.declarePair "vkX" "vkY" ⟨"ic", [.number 0]⟩),
    .forEach "i" "input"
      [.require (.less (.item "input" (.name "i")) (.name "SNARK_SCALAR_FIELD"))
          "verifier-gte-snark-scalar-field",
        .declarePair "x" "y" ⟨"ic", [.add (.name "i") (.number 1)]⟩,
        .assignPair "x" "y" ⟨"ecMul", [.name "x", .name "y", .item "input" (.name "i")]⟩,
        .assignPair "vkX" "vkY" ⟨"ecAdd", [.name "vkX", .name "vkY", .name "x", .name "y"]⟩]]

def pairingStatements : List Statement :=
  [.step (.remark "e(-A, B) * e(alpha, beta) * e(vk_x, gamma) * e(C, delta) == 1"),
    .step (.declareZeros "p" pairingInput.length)] ++
  pairingInput.zipIdx.map (fun (value, index) => .step (.setItem "p" index value)) ++
  [.step .blank,
    .step (.declareZeros "result" 1),
    .step (.declareFlag "success"),
    .step (.callPrecompile "success" .pairing "p" 768 "result" 32),
    .step (.require (.holds "success") "verifier-pairing-failed"),
    .returnTest (.equal (.item "result" (.number 0)) (.number 1))]

def verifyRoutine : Routine where
  name := "verifyProof"
  parameters :=
    [(.words (some 2), "a"), (.table 2 2, "b"), (.words (some 2), "c"), (.words none, "input")]
  modifiers := ["public", "view"]
  results := [(.truth, none)]
  breaks := .parameters
  body :=
    [.step (.require (.equal (.add (.length "input") (.number 1)) (.name "IC_LENGTH"))
        "verifier-bad-input"),
      .step .blank] ++
    accumulateStatements ++ [.step .blank] ++ pairingStatements

/-- A function that hands its words to a precompile and returns the point that comes back. -/
def pointRoutine (name : String) (parameters : List String) (precompile : Precompile)
    (failure : String) : Routine where
  name := name
  parameters := parameters.map (Kind.word, ·)
  modifiers := ["internal", "view"]
  results := [(.word, none), (.word, none)]
  breaks := .modifiers
  body :=
    [.step (.declareItems "input" (parameters.map Term.name)),
      .step (.declareZeros "r" 2),
      .step (.declareFlag "success"),
      .step (.callPrecompile "success" precompile "input" (32 * parameters.length) "r" 64),
      .step (.require (.holds "success") failure),
      .returnPair (.item "r" (.number 0)) (.item "r" (.number 1))]

def addRoutine : Routine :=
  pointRoutine "ecAdd" ["x1", "y1", "x2", "y2"] .add "verifier-ec-add-failed"

def multiplyRoutine : Routine :=
  pointRoutine "ecMul" ["x", "y", "s"] .multiply "verifier-ec-mul-failed"

/-- The contract that checks proofs against a key. -/
def verifier (vk : VerifyingKey G1 G2) : Code where
  title := "Groth16 verifier over BN254."
  name := "Verifier"
  constants := [moduli, keyConstants vk, [("IC_LENGTH", vk.statement.length)]]
  routines := [statementRoutine vk.statement, verifyRoutine, addRoutine, multiplyRoutine]

def text (vk : VerifyingKey G1 G2) : String := (verifier vk).text

end Contract

end CircuitProof
