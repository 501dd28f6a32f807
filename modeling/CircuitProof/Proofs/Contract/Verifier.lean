import CircuitProof.Proofs.Bn254.Group
import CircuitProof.Proofs.Contract.Coordinates
import CircuitProof.Proofs.Contract.Execution

/-!
# Running the verifier contract

For a key whose statement consists of members, a call of `verifyProof` comes to two tests and one call
of the pairing: the number of the inputs, each input, and the words of four pairs of points. The loop
over the inputs keeps the sum of the first point and of the multiples so far in its two words; one round
adds one multiple.
-/

namespace CircuitProof

namespace Contract

open G1 (members)
open Point (ofMember)

/-- The routines of a contract do as their names say on members, the points of the statement among
them. -/
structure Serves (callable : Callable) (points : List members) : Prop where
  look : ∀ i, callable.routine "ic" [i] = points[i]?.map (pointAnswer ∘ ofMember)
  multiply : ∀ (P : members) (k : Nat), callable.routine "ecMul" (answer (ofMember P) ++ [k]) =
    some (pointAnswer (ofMember (k • P)))
  add : ∀ P Q : members, callable.routine "ecAdd" (answer (ofMember P) ++ answer (ofMember Q)) =
    some (pointAnswer (ofMember (P + Q)))

/-- The steps of one round of the loop over the inputs. -/
def roundSteps : List Step :=
  [.require (.less (.item "input" (.name "i")) (.name "SNARK_SCALAR_FIELD"))
      "verifier-gte-snark-scalar-field",
    .declarePair "x" "y" ⟨"ic", [.add (.name "i") (.number 1)]⟩,
    .assignPair "x" "y" ⟨"ecMul", [.name "x", .name "y", .item "input" (.name "i")]⟩,
    .assignPair "vkX" "vkY" ⟨"ecAdd", [.name "vkX", .name "vkY", .name "x", .name "y"]⟩]

theorem accumulateStatements_eq :
    accumulateStatements = [.step (.declarePair "vkX" "vkY" ⟨"ic", [.number 0]⟩),
      .forEach "i" "input" roundSteps] := rfl

/-- A scope in which the sum so far has been declared. -/
def sumScope (P : members) (scope : Scope) : Scope :=
  ("vkY", .word (coordinates₁ (ofMember P)).2) :: ("vkX", .word (coordinates₁ (ofMember P)).1) :: scope

/-- The scope around the loop holds the inputs and the bound for them. -/
structure HoldsInputs (scope : Scope) (input : List Nat) : Prop where
  inputs : scope.get? "input" = some (.words input)
  bound : scope.get? "SNARK_SCALAR_FIELD" = some (.word scalarModulus)

section Loop

variable {callable : Callable} {points : List members} {scope : Scope} {input : List Nat}

/-- A round adds the multiple of its point to the sum, and fails for an input that is no scalar. -/
theorem steps?_roundSteps (hserves : Serves callable points) (hscope : HoldsInputs scope input)
    {i k : Nat} (hk : input[i]? = some k) {B : members} (hB : points[i + 1]? = some B)
    (hi : i + 1 < wordLimit) (P : members) :
    callable.steps? (("i", .word i) :: sumScope P scope) roundSteps =
      if k < scalarModulus then
        some (("y", .word (coordinates₁ (ofMember (k • B))).2) ::
          ("x", .word (coordinates₁ (ofMember (k • B))).1) :: ("i", .word i) ::
          sumScope (P + k • B) scope)
      else none := by
  have hlook := hserves.look (i + 1)
  have hmultiply := hserves.multiply B k
  have hadd := hserves.add P (k • B)
  rw [hB] at hlook
  simp only [answer, List.cons_append, List.nil_append] at hmultiply hadd
  by_cases h : k < scalarModulus
  · simp [roundSteps, Callable.steps?, Callable.step?, Callable.pair?, Test.value?, Term.value?,
      Scope.words?, Scope.word?, sumScope, hscope.inputs, hscope.bound, hk, h, hi, hlook, hmultiply, hadd,
      pointAnswer]
  · simp [roundSteps, Callable.steps?, Callable.step?, Callable.pair?, Test.value?, Term.value?,
      Scope.words?, Scope.word?, sumScope, hscope.inputs, hscope.bound, hk, h]

/-- What a round has declared in front of the sum is taken off again. -/
theorem drop_sumScope (P Q : members) (e₁ e₂ e₃ : String × Value) :
    (e₁ :: e₂ :: e₃ :: sumScope Q scope).drop
      ((e₁ :: e₂ :: e₃ :: sumScope Q scope).length - (sumScope P scope).length) =
        sumScope Q scope := by
  have hlength : (e₁ :: e₂ :: e₃ :: sumScope Q scope).length - (sumScope P scope).length = 3 := by
    simp only [sumScope, List.length_cons]
    omega
  rw [hlength]
  rfl

/-- The rounds from one index on add up the multiples that are left. -/
theorem rounds?_roundSteps (hserves : Serves callable points) (hscope : HoldsInputs scope input)
    (hlimit : points.length < wordLimit) {rest : List Nat} {back : List members}
    (hback : back.length = rest.length) (done : List Nat) (hinput : input = done ++ rest)
    (front : List members) (hfront : front.length = done.length + 1) (hpoints : points = front ++ back)
    (P : members) :
    callable.rounds? "i" roundSteps (sumScope P scope) (List.range' done.length rest.length) =
      if ∀ k ∈ rest, k < scalarModulus then
        some (sumScope (P + ((rest.zip back).map fun term => term.1 • term.2).sum) scope)
      else none := by
  -- the index of a round is the number of inputs before it, and its point stands one place further on
  induction rest generalizing done front back P with
  | nil => simp [Callable.rounds?]
  | cons k rest ih =>
    obtain _ | ⟨B, back⟩ := back
    · cases hback
    · have hk : input[done.length]? = some k := by simp [hinput]
      have hB : points[done.length + 1]? = some B := by simp [hpoints, ← hfront]
      have hi : done.length + 1 < wordLimit := by
        rw [hpoints, List.length_append, List.length_cons] at hlimit
        omega
      rw [List.length_cons, List.range'_succ, Callable.rounds?,
        steps?_roundSteps hserves hscope hk hB hi]
      by_cases h : k < scalarModulus
      · have hrest := ih (Nat.succ.inj hback) (done ++ [k]) (by simp [hinput]) (front ++ [B])
          (by simp [hfront]) (by simp [hpoints]) (P + k • B)
        rw [List.length_append, List.length_singleton] at hrest
        simp only [if_pos h, Option.bind_eq_bind, Option.bind_some, drop_sumScope, hrest]
        simp [h, add_assoc]
      · simp [h]

end Loop

/-! ## The routines of the contract -/

namespace Code

/-- What a function of the contract can call when calls are nested to the given depth below it. -/
def callable (code : Code) (precompile : Precompile → List Nat → Option (List Nat)) (depth : Nat) :
    Callable where
  routine name words := code.call? precompile depth name (words.map .word)
  precompile := precompile

theorem call?_of_find? {code : Code} {precompile : Precompile → List Nat → Option (List Nat)}
    {depth : Nat} {name : String} {arguments : List Value} {routine : Routine} {scope : Scope}
    (hroutine : code.routines.find? (·.name = name) = some routine)
    (hscope : routine.scope? arguments = some scope) :
    code.call? precompile (depth + 1) name arguments =
      (code.callable precompile depth).answer? (scope ++ code.constantScope) routine.body := by
  simp [call?, hroutine, hscope, callable]

end Code

section Routines

variable {T : Type} [One T] [DecidableEq T] (product? : List (G1 × G2) → Option T)

/-- The two point groups with products of any pairing. -/
def groupsWith : PairingGroups Scalar G1 G2 T := ⟨G1.group, G2.group, product?⟩

/-- The optimal ate pairing is one of them. -/
theorem groupsWith_optimalAte : groupsWith Pairing.product? = bn254 := rfl

theorem run_multiply (P : members) (k : Nat) :
    Precompile.run (groupsWith product?) .multiply (answer (ofMember P) ++ [k]) =
      some (answer (ofMember (k • P))) := by
  have hscale : (groupsWith product?).first.scale (Residue.ofNat k) (ofMember P) =
      ofMember (k • P) := by
    change (ofMember P).multiple (k % scalarModulus) = _
    rw [← Point.ofMember_nsmul, Point.mod_nsmul]
  simp only [answer, List.cons_append, List.nil_append, Precompile.run]
  change (do
    let p ← point₁? G1.isMember _ _
    some (answer ((groupsWith product?).first.scale (Residue.ofNat k) p))) = _
  rw [point₁?_coordinates (Point.isMember_ofMember P), Option.bind_eq_bind, Option.bind_some, hscale]
  rfl

theorem run_add (P Q : members) :
    Precompile.run (groupsWith product?) .add (answer (ofMember P) ++ answer (ofMember Q)) =
      some (answer (ofMember (P + Q))) := by
  simp only [answer, List.cons_append, List.nil_append, Precompile.run]
  change (do
    let p ← point₁? G1.isMember _ _
    let q ← point₁? G1.isMember _ _
    some (answer (Point.add p q))) = _
  rw [point₁?_coordinates (Point.isMember_ofMember P), point₁?_coordinates (Point.isMember_ofMember Q),
    Option.bind_eq_bind, Option.bind_some, Option.bind_some, Point.ofMember_add]
  rfl

/-- A routine that hands words to a precompile comes to what that answers. -/
theorem call?_pointRoutine (vk : VerifyingKey G1 G2)
    (precompile : Precompile → List Nat → Option (List Nat)) (depth : Nat) {name failure : String}
    {p : Precompile} {parameters : List String} {words : List Nat}
    (hfind : (verifier vk).routines.find? (·.name = name) =
      some (pointRoutine name parameters p failure))
    (hnodup : parameters.Nodup) (hlength : parameters.length = words.length) :
    (verifier vk).call? precompile (depth + 1) name (words.map .word) =
      (precompile p words).bind pairOf? := by
  rw [Code.call?_of_find? hfind (scope?_pointRoutine name failure p hlength),
    answer?_pointRoutine _ name failure p _ hnodup hlength]
  rfl

/-- The routines that call precompiles answer the group operations, the lookup the statement's
points. -/
theorem serves_verifier {vk : VerifyingKey G1 G2} {points : List members}
    (hpoints : vk.statement = points.map ofMember) (depth : Nat) :
    Serves ((verifier vk).callable (Precompile.run (groupsWith product?)) (depth + 1)) points where
  look i := by
    have hfind : (verifier vk).routines.find? (·.name = "ic") =
        some (statementRoutine vk.statement) := by
      simp [verifier, statementRoutine]
    have hscope : (statementRoutine vk.statement).scope? [.word i] = some [("i", .word i)] := by
      simp [Routine.scope?, statementRoutine, Kind.holds]
    change (verifier vk).call? _ (depth + 1) "ic" [.word i] = _
    rw [Code.call?_of_find? hfind hscope, statementRoutine,
      answer?_statementCases _ (i := i) _ vk.statement (by simp [Scope.word?]), hpoints,
      List.getElem?_map, Option.map_map]
  multiply P k := by
    have hfind : (verifier vk).routines.find? (·.name = "ecMul") = some multiplyRoutine := by
      simp [verifier, statementRoutine, verifyRoutine, addRoutine, multiplyRoutine, pointRoutine]
    change (verifier vk).call? _ (depth + 1) "ecMul" ((answer (ofMember P) ++ [k]).map .word) = _
    rw [call?_pointRoutine vk _ depth hfind (by decide) rfl, run_multiply]
    rfl
  add P Q := by
    have hfind : (verifier vk).routines.find? (·.name = "ecAdd") = some addRoutine := by
      simp [verifier, statementRoutine, verifyRoutine, addRoutine, pointRoutine]
    change (verifier vk).call? _ (depth + 1) "ecAdd"
      ((answer (ofMember P) ++ answer (ofMember Q)).map .word) = _
    rw [call?_pointRoutine vk _ depth hfind (by decide) rfl, run_add]
    rfl

end Routines

/-! ## The pairing -/

/-- The scope in which the statements of `verifyProof` run. -/
def verifyScope (vk : VerifyingKey G1 G2) (words : ProofWords) (input : List Nat) : Scope :=
  ["a", "b", "c", "input"].zip (words.arguments input) ++ (verifier vk).constantScope

/-- The words of the pairing call. -/
def pairingWords (vk : VerifyingKey G1 G2) (words : ProofWords) (P : members) : List Nat :=
  [words.a.1, (baseModulus - words.a.2 % baseModulus) % baseModulus, words.b.1.1, words.b.1.2,
    words.b.2.1, words.b.2.2] ++ answer vk.alpha ++ coordinates₂ vk.beta ++ answer (ofMember P) ++
    coordinates₂ vk.gamma ++ [words.c.1, words.c.2] ++ coordinates₂ vk.delta

/-- The arguments of the pairing are computed without leaving the range of words. -/
theorem mapM_pairingInput (vk : VerifyingKey G1 G2) (words : ProofWords) (input row : List Nat)
    (P : members) :
    pairingInput.mapM (Term.value? (("p", .words row) :: sumScope P (verifyScope vk words input))) =
      some (pairingWords vk words P) := by
  obtain ⟨_, _, _, _, hbeta⟩ := exists_coordinates₂ vk.beta
  obtain ⟨_, _, _, _, hgamma⟩ := exists_coordinates₂ vk.gamma
  obtain ⟨_, _, _, _, hdelta⟩ := exists_coordinates₂ vk.delta
  simp only [verifyScope, Code.constantScope, verifier, keyConstants, hbeta, hgamma, hdelta,
    pairingWords]
  -- the only terms that could fail are those of the negated coordinate
  have hne : baseModulus ≠ 0 := by decide
  have hle : words.a.2 % baseModulus ≤ baseModulus := (Nat.mod_lt _ (by decide)).le
  simp [pairingInput, names₂, moduli, Term.value?, Scope.word?, Scope.words?, Scope.table?, sumScope,
    ProofWords.arguments, answer, List.mapM_cons, hne, hle]

theorem length_pairingWords (vk : VerifyingKey G1 G2) (words : ProofWords) (P : members) :
    (pairingWords vk words P).length = pairingInput.length := by
  simp [pairingWords, answer, pairingInput, names₂]

/-- What the pairing call makes of an answer. -/
def verdictOf? (answer : List Nat) : Option Answer :=
  if answer.length = 1 then some (.truth (answer[0]? = some 1)) else none

/-- The pairing is answered with one, and so with the verdict true, if the product is one. -/
theorem run_pairing {T : Type} [One T] [DecidableEq T] {product? : List (G1 × G2) → Option T}
    {words : List Nat} :
    (Precompile.run (groupsWith product?) .pairing words).bind verdictOf? = some (.truth true) ↔
      ∃ pairs, pairs? (groupsWith product?) words = some pairs ∧ product? pairs = some 1 := by
  simp only [Precompile.run, groupsWith, Option.bind_eq_bind, Option.bind_eq_some_iff,
    Option.some.injEq]
  constructor
  · rintro ⟨_, ⟨pairs, hpairs, product, hproduct, rfl⟩, hverdict⟩
    by_cases hone : product = 1
    · exact ⟨pairs, hpairs, hone ▸ hproduct⟩
    · simp [verdictOf?, hone] at hverdict
  · rintro ⟨pairs, hpairs, hproduct⟩
    exact ⟨_, ⟨pairs, hpairs, 1, hproduct, rfl⟩, by simp [verdictOf?]⟩

/-- The statements behind the sum put the words of the call into their array and return whether the
answer is one. -/
theorem answer?_pairingStatements (callable : Callable) (vk : VerifyingKey G1 G2) (words : ProofWords)
    (input : List Nat) (P : members) :
    callable.answer? (sumScope P (verifyScope vk words input)) pairingStatements =
      (callable.precompile .pairing (pairingWords vk words P)).bind verdictOf? := by
  have hfill := callable.answer?_setItems []
    (fun row => mapM_pairingInput vk words input row P)
    [.step .blank, .step (.declareZeros "result" 1), .step (.declareFlag "success"),
      .step (.callPrecompile "success" .pairing "p" 768 "result" 32),
      .step (.require (.holds "success") "verifier-pairing-failed"),
      .returnTest (.equal (.item "result" (.number 0)) (.number 1))]
  have hgiven : Scope.words? (("p", .words (pairingWords vk words P)) ::
      sumScope P (verifyScope vk words input)) "p" = some (pairingWords vk words P) := by
    simp [Scope.words?]
  rw [pairingStatements, List.append_assoc, List.cons_append, callable.answer?_step rfl,
    List.cons_append, callable.answer?_step rfl, List.nil_append]
  have hsize : 768 = 32 * (pairingWords vk words P).length := by
    rw [length_pairingWords]
    rfl
  refine hfill.trans ?_
  rw [List.nil_append, callable.answer?_step rfl, answer?_callPrecompile callable hgiven (by decide)
    (by decide) (by decide) .pairing hsize rfl]
  refine congrArg _ (funext fun answer => ?_)
  obtain _ | ⟨x, _ | ⟨y, answer⟩⟩ := answer <;>
    simp [verdictOf?, Callable.answer?, Test.value?, Term.value?, Scope.words?]

/-! ## The whole call -/

theorem holdsInputs_verifyScope (vk : VerifyingKey G1 G2) (words : ProofWords) (input : List Nat) :
    HoldsInputs (verifyScope vk words input) input where
  inputs := by simp [verifyScope, ProofWords.arguments]
  bound := by simp [verifyScope, ProofWords.arguments, Code.constantScope, verifier, moduli]

theorem get?_verifyScope_length (vk : VerifyingKey G1 G2) (words : ProofWords) (input : List Nat) :
    (verifyScope vk words input).get? "IC_LENGTH" = some (.word vk.statement.length) := by
  obtain ⟨_, _, _, _, hbeta⟩ := exists_coordinates₂ vk.beta
  obtain ⟨_, _, _, _, hgamma⟩ := exists_coordinates₂ vk.gamma
  obtain ⟨_, _, _, _, hdelta⟩ := exists_coordinates₂ vk.delta
  simp [verifyScope, ProofWords.arguments, Code.constantScope, verifier, moduli, keyConstants, names₂,
    hbeta, hgamma, hdelta]

/-- The first point and the multiples of the others by the numbers. -/
def inputSum : List members → List Nat → members
  | [], _ => 0
  | start :: bases, input => start + ((input.zip bases).map fun term => term.1 • term.2).sum

/-- The call tests the number of the inputs and each of them, and then comes to the verdict of the
pairing. -/
theorem answer?_verifyRoutine {callable : Callable} {vk : VerifyingKey G1 G2} {points : List members}
    (hserves : Serves callable points) (hpoints : vk.statement = points.map ofMember)
    (hlimit : points.length < wordLimit) (words : ProofWords) (input : List Nat) :
    callable.answer? (verifyScope vk words input) verifyRoutine.body =
      if input.length + 1 = points.length ∧ ∀ k ∈ input, k < scalarModulus then
        (callable.precompile .pairing (pairingWords vk words (inputSum points input))).bind verdictOf?
      else none := by
  have hscope := holdsInputs_verifyScope vk words input
  have hlength := get?_verifyScope_length vk words input
  rw [hpoints, List.length_map] at hlength
  have hinputs : (verifyScope vk words input).words? "input" = some input := by
    rw [Scope.words?, hscope.inputs]
  rw [verifyRoutine]
  by_cases h : input.length + 1 = points.length
  · obtain _ | ⟨start, bases⟩ := points
    · cases h
    · have htest : callable.step? (verifyScope vk words input)
          (.require (.equal (.add (.length "input") (.number 1)) (.name "IC_LENGTH"))
            "verifier-bad-input") = some (verifyScope vk words input) := by
        rw [← h] at hlength hlimit
        simp [Callable.step?, Test.value?, Term.value?, hinputs, Scope.word?, hlength, hlimit]
      have hstart : callable.step? (verifyScope vk words input)
          (.declarePair "vkX" "vkY" ⟨"ic", [.number 0]⟩) =
            some (sumScope start (verifyScope vk words input)) := by
        have hlook := hserves.look 0
        simp [Callable.step?, Callable.pair?, Term.value?, hlook, pointAnswer, sumScope]
      have hrounds := rounds?_roundSteps hserves hscope hlimit (Nat.succ.inj h.symm) [] rfl [start] rfl
        rfl start
      have hinputs : (sumScope start (verifyScope vk words input)).words? "input" = some input := by
        simpa [sumScope, Scope.words?] using hinputs
      rw [List.length_nil, ← List.range_eq_range'] at hrounds
      rw [accumulateStatements_eq]
      simp only [List.cons_append, List.nil_append]
      rw [callable.answer?_step htest, callable.answer?_step rfl, callable.answer?_step hstart,
        Callable.answer?, hinputs, Option.bind_eq_bind, Option.bind_some, hrounds]
      by_cases hscalars : ∀ k ∈ input, k < scalarModulus
      · rw [if_pos hscalars, if_pos ⟨h, hscalars⟩, Option.bind_eq_bind, Option.bind_some,
          callable.answer?_step rfl, answer?_pairingStatements]
        rfl
      · rw [if_neg hscalars, if_neg fun hboth => hscalars hboth.2]
        rfl
  · rw [if_neg fun hboth => h hboth.1]
    simp only [List.cons_append, List.nil_append, Callable.answer?, Callable.step?, Test.value?,
      Term.value?, hinputs, Scope.word?, hlength]
    by_cases hword : input.length + 1 < wordLimit <;> simp [hword, h]

/-- Whether the contract accepts, by the checks of the inputs and the answer of the pairing. -/
theorem accepts_iff_pairing {T : Type} [One T] [DecidableEq T] {product? : List (G1 × G2) → Option T}
    {vk : VerifyingKey G1 G2} {points : List members} (hpoints : vk.statement = points.map ofMember)
    (hlimit : points.length < wordLimit) (words : ProofWords) (input : List Nat) :
    accepts (groupsWith product?) vk words input = true ↔
      (input.length + 1 = points.length ∧ ∀ k ∈ input, k < scalarModulus) ∧
        ∃ pairs, pairs? (groupsWith product?) (pairingWords vk words (inputSum points input)) =
          some pairs ∧ product? pairs = some 1 := by
  have hfind : (verifier vk).routines.find? (·.name = "verifyProof") = some verifyRoutine := by
    simp [verifier, statementRoutine, verifyRoutine]
  have hscope : verifyRoutine.scope? (words.arguments input) =
      some (["a", "b", "c", "input"].zip (words.arguments input)) := by
    simp [Routine.scope?, verifyRoutine, ProofWords.arguments, Kind.holds]
  rw [accepts, decide_eq_true_eq, Code.call?_of_find? hfind hscope]
  change Callable.answer? _ (verifyScope vk words input) _ = _ ↔ _
  rw [answer?_verifyRoutine (serves_verifier product? hpoints 0) hpoints hlimit]
  split
  · next hinputs =>
    rw [and_iff_right hinputs]
    exact run_pairing
  · next hinputs => exact iff_of_false (Option.some_ne_none _).symm fun h => hinputs h.1

end Contract

end CircuitProof
