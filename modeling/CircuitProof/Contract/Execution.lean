import CircuitProof.Argument.Keys
import CircuitProof.Bn254.Domain
import CircuitProof.Contract.Language
import CircuitProof.Contract.Verifier

/-!
# Running a contract

A call runs the statements of a function in a scope of named values, the parameters in front of the
constants. It either returns or fails: a test that does not hold, a sum or a difference that leaves the
range of words, an index outside its array and a name that is not declared all end the call with no
result. Functions call each other to a given depth.
-/

namespace CircuitProof

/-! ## What the precompiles compute

Addition, scalar multiplication and the pairing check on points that are given by their coordinates.
A call fails unless every coordinate is below the modulus and every point is a member of its group;
zeros stand for infinity. A scalar may be any number and counts modulo the group order.
-/

namespace Contract

variable {T : Type} (groups : PairingGroups Scalar G1 G2 T)

/-- The pairs of points that a list of words gives, six words to a pair. -/
def pairs? : List Nat → Option (List (G1 × G2))
  | [] => some []
  | x :: y :: x₁ :: x₀ :: y₁ :: y₀ :: rest => do
    let p ← point₁? groups.first.isMember x y
    let q ← point₂? groups.second.isMember x₁ x₀ y₁ y₀
    let pairs ← pairs? rest
    some ((p, q) :: pairs)
  | _ => none

def answer (p : G1) : List Nat :=
  let (x, y) := coordinates₁ p
  [x, y]

/-- The words that a precompile answers, absent when the call fails. The pairing check answers one if
the product of the pairings is one, and zero otherwise. -/
def Precompile.run [One T] [DecidableEq T] : Precompile → List Nat → Option (List Nat)
  | add, [x₁, y₁, x₂, y₂] => do
    let p ← point₁? groups.first.isMember x₁ y₁
    let q ← point₁? groups.first.isMember x₂ y₂
    some (answer (groups.first.add p q))
  | multiply, [x, y, k] => do
    let p ← point₁? groups.first.isMember x y
    some (answer (groups.first.scale (Residue.ofNat k) p))
  | pairing, words => do
    let pairs ← pairs? groups words
    let product ← groups.product? pairs
    some [if product = 1 then 1 else 0]
  | _, _ => none

end Contract

/-! ## Statements -/

namespace Contract

inductive Value where
  | word (n : Nat)
  | truth (b : Bool)
  | words (items : List Nat)
  | table (rows : List (List Nat))
  deriving DecidableEq

def Kind.holds : Kind → Value → Bool
  | word, .word _ => true
  | truth, .truth _ => true
  | words none, .words _ => true
  | words (some size), .words items => items.length = size
  | table rows columns, .table items =>
    items.length = rows && items.all fun row => row.length = columns
  | _, _ => false

/-- Named values, the innermost first. -/
abbrev Scope := List (String × Value)

namespace Scope

def get? : Scope → String → Option Value
  | [], _ => none
  | (y, v) :: rest, x => if x = y then some v else get? rest x

def set? : Scope → String → Value → Option Scope
  | [], _, _ => none
  | (y, w) :: rest, x, v =>
    if x = y then some ((y, v) :: rest) else (set? rest x v).map ((y, w) :: ·)

@[simp] theorem get?_nil (x : String) : get? [] x = none := rfl

@[simp] theorem get?_cons (y x : String) (v : Value) (scope : Scope) :
    get? ((y, v) :: scope) x = if x = y then some v else get? scope x := rfl

@[simp] theorem set?_nil (x : String) (v : Value) : set? [] x v = none := rfl

@[simp] theorem set?_cons (y x : String) (w v : Value) (scope : Scope) :
    set? ((y, w) :: scope) x v =
      if x = y then some ((y, v) :: scope) else (set? scope x v).map ((y, w) :: ·) := rfl

def word? (scope : Scope) (x : String) : Option Nat :=
  match scope.get? x with
  | some (.word n) => some n
  | _ => none

def words? (scope : Scope) (x : String) : Option (List Nat) :=
  match scope.get? x with
  | some (.words items) => some items
  | _ => none

def truth? (scope : Scope) (x : String) : Option Bool :=
  match scope.get? x with
  | some (.truth b) => some b
  | _ => none

def table? (scope : Scope) (x : String) : Option (List (List Nat)) :=
  match scope.get? x with
  | some (.table rows) => some rows
  | _ => none

end Scope

/-- The least number that is no word. -/
def wordLimit : Nat := Nat.pow 2 256

def Term.value? (scope : Scope) : Term → Option Nat
  | number n => some n
  | name x => scope.word? x
  | length array => (scope.words? array).map List.length
  | item array index => do (← scope.words? array)[← index.value? scope]?
  | cell table row column => do
    (← (← scope.table? table)[← row.value? scope]?)[← column.value? scope]?
  | add s t => do
    let sum := (← s.value? scope) + (← t.value? scope)
    if sum < wordLimit then some sum else none
  | sub s t => do
    let x ← s.value? scope
    let y ← t.value? scope
    if y ≤ x then some (x - y) else none
  | mod s t => do
    let x ← s.value? scope
    let y ← t.value? scope
    if y = 0 then none else some (x % y)

def Test.value? (scope : Scope) : Test → Option Bool
  | equal s t => do some (decide ((← s.value? scope) = (← t.value? scope)))
  | less s t => do some (decide ((← s.value? scope) < (← t.value? scope)))
  | holds flag => scope.truth? flag

inductive Answer where
  | pair (x y : Nat)
  | truth (b : Bool)
  deriving DecidableEq

structure Callable where
  routine : String → List Nat → Option Answer
  precompile : Precompile → List Nat → Option (List Nat)

namespace Callable

variable (callable : Callable)

def pair? (scope : Scope) (call : Call) : Option (Nat × Nat) := do
  match callable.routine call.routine (← call.arguments.mapM (Term.value? scope)) with
  | some (.pair x y) => some (x, y)
  | _ => none

/-- Calls a precompile on whole arrays. A call that fails leaves the array for the answer as it
was. -/
def precompiled? (scope : Scope) (flag : String) (precompile : Precompile) (input : String)
    (inputSize : Nat) (output : String) (outputSize : Nat) : Option Scope := do
  let given ← scope.words? input
  let before ← scope.words? output
  if inputSize = 32 * given.length ∧ outputSize = 32 * before.length then
    match callable.precompile precompile given with
    | none => scope.set? flag (.truth false)
    | some words =>
      if words.length = before.length then do
        (← scope.set? output (.words words)).set? flag (.truth true)
      else none
  else none

def step? (scope : Scope) : Step → Option Scope
  | .require test _ => do if ← test.value? scope then some scope else none
  | .declarePair x y call => do
    let (m, n) ← callable.pair? scope call
    some ((y, .word n) :: (x, .word m) :: scope)
  | .assignPair x y call => do
    let (m, n) ← callable.pair? scope call
    (← scope.set? x (.word m)).set? y (.word n)
  | .declareZeros array size => some ((array, .words (List.replicate size 0)) :: scope)
  | .declareItems array items => do
    some ((array, .words (← items.mapM (Term.value? scope))) :: scope)
  | .setItem array index value => do
    let items ← scope.words? array
    if index < items.length then
      scope.set? array (.words (items.set index (← value.value? scope)))
    else none
  | .declareFlag flag => some ((flag, .truth false) :: scope)
  | .callPrecompile flag precompile input inputSize output outputSize =>
    callable.precompiled? scope flag precompile input inputSize output outputSize
  | .remark _ => some scope
  | .blank => some scope

def steps? (scope : Scope) : List Step → Option Scope
  | [] => some scope
  | s :: rest => do steps? (← callable.step? scope s) rest

/-- The scope after a loop over the given indices. What a round declares ends with the round. -/
def rounds? (index : String) (body : List Step) (scope : Scope) : List Nat → Option Scope
  | [] => some scope
  | i :: rest => do
    let after ← callable.steps? ((index, .word i) :: scope) body
    rounds? index body (after.drop (after.length - scope.length)) rest

/-- What a list of statements returns; one that comes to its end without returning has no answer. -/
def answer? (scope : Scope) : List Statement → Option Answer
  | [] => none
  | .step s :: rest => do answer? (← callable.step? scope s) rest
  | .forEach index array body :: rest => do
    let items ← scope.words? array
    answer? (← callable.rounds? index body scope (List.range items.length)) rest
  | .returnPairIf test x y :: rest => do
    if ← test.value? scope then some (.pair (← x.value? scope) (← y.value? scope))
    else answer? scope rest
  | .returnPair x y :: _ => do some (.pair (← x.value? scope) (← y.value? scope))
  | .returnTest test :: _ => do some (.truth (← test.value? scope))
  | .revert _ :: _ => none

end Callable

/-- The names of the parameters with the values passed for them, absent when they do not fit. -/
def Routine.scope? (r : Routine) (arguments : List Value) : Option Scope :=
  let fits := r.parameters.length = arguments.length ∧
    (r.parameters.zip arguments).all fun (parameter, value) => parameter.1.holds value
  if fits then some ((r.parameters.map (·.2)).zip arguments) else none

namespace Code

def constantScope (code : Code) : Scope :=
  code.constants.flatten.map fun (name, value) => (name, .word value)

/-- What a call of a function returns when calls are nested no deeper than `depth`. -/
def call? (code : Code) (precompile : Precompile → List Nat → Option (List Nat)) :
    Nat → String → List Value → Option Answer
  | 0, _, _ => none
  | depth + 1, name, arguments => do
    let routine ← code.routines.find? (·.name = name)
    let scope ← routine.scope? arguments
    let callable : Callable :=
      { routine := fun name words => call? code precompile depth name (words.map .word)
        precompile := precompile }
    callable.answer? (scope ++ code.constantScope) routine.body

end Code

/-- The words of a proof as `verifyProof` takes them. -/
structure ProofWords where
  a : Nat × Nat
  b : (Nat × Nat) × (Nat × Nat)
  c : Nat × Nat
  deriving DecidableEq

namespace ProofWords

def arguments (words : ProofWords) (input : List Nat) : List Value :=
  [.words [words.a.1, words.a.2],
    .table [[words.b.1.1, words.b.1.2], [words.b.2.1, words.b.2.2]],
    .words [words.c.1, words.c.2], .words input]

end ProofWords

/-- Whether `verifyProof` of a key's contract returns true. Its functions call no further ones, so
two levels of calls are enough. -/
def accepts {T : Type} [One T] [DecidableEq T] (groups : PairingGroups Scalar G1 G2 T)
    (vk : VerifyingKey G1 G2) (words : ProofWords) (input : List Nat) : Bool :=
  (verifier vk).call? (Precompile.run groups) 2 "verifyProof" (words.arguments input) =
    some (.truth true)

end Contract

end CircuitProof
