import CircuitProof.Proofs.Contract.Equivalence
import CircuitProof.Proofs.Encoding.Artifact

/-!
# Proofs that are well formed

Verification looks at the points of a proof before it pairs them, and so does whoever reads the word
form of one. Both refuse the same points, those that are no members of their groups, and these are
the points that their own word form does not give back. So what was read from a word form always
gets a verdict, and negating the second points of the key beforehand makes no difference to it.
-/

namespace CircuitProof

open Contract (groupsWith inputSum PairsOn KeyPoints)
open Point (ofMember)
open Storable (Members Valid)

/-! ## Values that read back -/

/-- The word form of the value is read as the value. -/
def ReadsBack {α : Type} [WordForm α] (v : α) : Prop := WordForm.decode (WordForm.write v) = .ok v

section
variable {α : Type} [WordForm α] [Storable α] [WordForm.Exact α]

/-- A value is read back from its own word form exactly when it is one that can be stored. -/
theorem readsBack_iff_valid {v : α} : ReadsBack v ↔ Valid v := by
  rw [ReadsBack, WordForm.Exact.oneForm, and_iff_right rfl]

/-- What was read from any bytes reads back. -/
theorem readsBack_of_decode {bytes : Bytes} {v : α} (h : WordForm.decode bytes = .ok v) :
    ReadsBack v :=
  readsBack_iff_valid.mpr ((WordForm.Exact.oneForm bytes v).mp h).2

end

theorem G1.readsBack_iff {p : G1} : ReadsBack p ↔ G1.isMember p = true :=
  readsBack_iff_valid.trans (and_iff_left trivial)

theorem G2.readsBack_iff {p : G2} : ReadsBack p ↔ G2.isMember p = true :=
  readsBack_iff_valid.trans (and_iff_left trivial)

namespace Proof

theorem readsBack_iff {proof : Proof G1 G2} : ReadsBack proof ↔ Members proof :=
  readsBack_iff_valid.trans (and_iff_left ⟨trivial, trivial, trivial⟩)

/-- What was read from text reads back. -/
theorem readsBack_of_toProof {text : ProofText} {proof : Proof G1 G2}
    (h : text.toProof = .ok proof) : ReadsBack proof := by
  rw [ProofText.toProof] at h
  split at h
  · cases h
  · exact readsBack_of_decode h

/-- The element is the first one of the proof that does not read back. -/
def FirstUnreadable (proof : Proof G1 G2) : ProofElement → Prop
  | .a => ¬ ReadsBack proof.a
  | .b => ReadsBack proof.a ∧ ¬ ReadsBack proof.b
  | .c => ReadsBack proof.a ∧ ReadsBack proof.b ∧ ¬ ReadsBack proof.c

/-- The verifier's checks come in the order in which the word form lists the elements. -/
theorem malformed?_eq_some_iff {T : Type} {product? : List (G1 × G2) → Option T}
    {proof : Proof G1 G2} {element : ProofElement} :
    proof.malformed? (groupsWith product?) = some element ↔ proof.FirstUnreadable element := by
  have hfirst : (groupsWith product?).first.isMember = G1.isMember := rfl
  have hsecond : (groupsWith product?).second.isMember = G2.isMember := rfl
  rw [malformed?, hfirst, hsecond]
  cases element <;> cases ha : G1.isMember proof.a <;> cases hb : G2.isMember proof.b <;>
    cases hc : G1.isMember proof.c <;>
    simp [FirstUnreadable, G1.readsBack_iff, G2.readsBack_iff, ha, hb, hc]

theorem malformed?_eq_none_iff_readsBack {T : Type} {product? : List (G1 × G2) → Option T}
    {proof : Proof G1 G2} :
    proof.malformed? (groupsWith product?) = none ↔ ReadsBack proof :=
  malformed?_eq_none_iff.trans readsBack_iff.symm

end Proof

/-! ## Verification with any key -/

section
variable {T R : Type} [Mul T] [DecidableEq T] [CommGroup R] {product? : List (G1 × G2) → Option T}
  {value : R → T} {pair : G1 → G2 → R} {first : Set G1} {second : Set G2}

section
variable {vk : VerifyingKey G1 G2} {start inputs : G1} {bases : List G1} {shown : List Scalar}
  {proof : Proof G1 G2}

/-- Nothing but the check of the proof's points makes verification name an element. -/
theorem Contract.PairsOn.verify_eq_malformedProof_iff (h : PairsOn product? value pair first second)
    (hstatement : vk.statement = start :: bases) (hshown : shown.length = bases.length)
    (hinputs : inputs = G1.group.add start (G1.group.combine shown bases))
    (hkey : KeyPoints first second vk inputs) {element : ProofElement} :
    vk.verify (groupsWith product?) shown proof = .error (.malformedProof element) ↔
      proof.malformed? (groupsWith product?) = some element := by
  rw [h.verify_eq hstatement hshown hinputs hkey]
  cases proof.malformed? (groupsWith product?) with
  | none => simp
  | some found => simp

/-- A proof that reads back gets the verdict whether its points balance with those of the key. -/
theorem Contract.PairsOn.exists_verdict (h : PairsOn product? value pair first second)
    (hstatement : vk.statement = start :: bases) (hshown : shown.length = bases.length)
    (hinputs : inputs = G1.group.add start (G1.group.combine shown bases))
    (hkey : KeyPoints first second vk inputs) (hproof : ReadsBack proof) :
    ∃ accepts, vk.verify (groupsWith product?) shown proof = .ok accepts ∧
      (accepts = true ↔ Contract.Balanced pair vk proof inputs) := by
  have hverify := h.verify_eq hstatement hshown hinputs hkey proof
  rw [Proof.malformed?_eq_none_iff_readsBack.mpr hproof] at hverify
  refine ⟨_, hverify, ?_⟩
  rw [decide_eq_true_iff, ← h.value_mul, h.value_injective.eq_iff, Contract.Balanced]

end

/-- Verification and reading agree on the points of a proof. With any key whose points pair, a proof
is malformed exactly if its word form does not give it back, and the element that is named is the
first one whose own word form does not. Any other proof gets a verdict, which is whether
`e(A, B) = e(α, β) · e(Σ xᵢ Γᵢ, γ) · e(C, δ)`; the product of the pairings with `γ` and `δ` negated
decides it as well. So a proof that was read from bytes or from text always gets one. -/
theorem verify_agrees_with_reading (h : PairsOn product? value pair first second)
    {vk : VerifyingKey G1 G2} {start : G1} {bases : List G1}
    (hstatement : vk.statement = start :: bases) {shown : List Scalar}
    (hshown : shown.length = bases.length) {inputs : G1}
    (hinputs : inputs = G1.group.add start (G1.group.combine shown bases))
    (hkey : KeyPoints first second vk inputs) (proof : Proof G1 G2) :
    ((∃ element, vk.verify (groupsWith product?) shown proof = .error (.malformedProof element)) ↔
      WordForm.decode (WordForm.write proof) ≠ .ok proof) ∧
    (∀ element, vk.verify (groupsWith product?) shown proof = .error (.malformedProof element) ↔
      proof.FirstUnreadable element) ∧
    (WordForm.decode (WordForm.write proof) = .ok proof →
      ∃ accepts, vk.verify (groupsWith product?) shown proof = .ok accepts ∧
        (accepts = true ↔ pair proof.a proof.b =
          pair vk.alpha vk.beta * (pair inputs vk.gamma * pair proof.c vk.delta)) ∧
        (accepts = true ↔ product? [(proof.a, proof.b), (inputs, vk.gamma.neg),
          (proof.c, vk.delta.neg)] = product? [(vk.alpha, vk.beta)])) ∧
    ((∃ bytes, WordForm.decode bytes = .ok proof) ∨ (∃ text : ProofText, text.toProof = .ok proof) →
      ∃ accepts, vk.verify (groupsWith product?) shown proof = .ok accepts) ∧
    (∀ points, vk.statement = points.map ofMember →
      inputs = ofMember (inputSum points (shown.map (·.val)))) := by
  have hnamed : ∀ element,
      vk.verify (groupsWith product?) shown proof = .error (.malformedProof element) ↔
        proof.malformed? (groupsWith product?) = some element :=
    fun element => h.verify_eq_malformedProof_iff hstatement hshown hinputs hkey
  have hverdict := fun hreads : ReadsBack proof =>
    h.exists_verdict hstatement hshown hinputs hkey hreads
  refine ⟨?_, fun element => (hnamed element).trans Proof.malformed?_eq_some_iff, ?_, ?_, ?_⟩
  · simp only [hnamed, ← Option.ne_none_iff_exists', Ne, Proof.malformed?_eq_none_iff_readsBack,
      ReadsBack]
  · intro hreads
    obtain ⟨accepts, hok, hbalanced⟩ := hverdict hreads
    have hnegated := h.product?_negated_eq_iff hkey (Proof.readsBack_iff.mp hreads)
    exact ⟨accepts, hok, hbalanced, hbalanced.trans hnegated.symm⟩
  · intro hread
    have hreads : ReadsBack proof := by
      rcases hread with ⟨bytes, hbytes⟩ | ⟨text, htext⟩
      · exact readsBack_of_decode hbytes
      · exact Proof.readsBack_of_toProof htext
    obtain ⟨accepts, hok, -⟩ := hverdict hreads
    exact ⟨accepts, hok⟩
  · intro points hpoints
    rw [hinputs]
    exact Contract.add_combine_eq_inputSum (hstatement.symm.trans hpoints) shown

end

open Contract (logarithmProduct? generatorKey generatorProof) in
/-- With a key of generators, a proof whose `C` has the coordinates `(0, 0)`, which are read as
infinity, is malformed; if its `A` is off the curve as well, `A` is named. A proof of members is
accepted, and passes with the key's points negated too. -/
theorem verify_agrees_with_reading_generators :
    generatorKey.verify (groupsWith logarithmProduct?) [Residue.ofNat 2]
        ⟨G1.generator, G2.generator, .finite 0 0⟩ = .error (.malformedProof .c) ∧
      generatorKey.verify (groupsWith logarithmProduct?) [Residue.ofNat 2]
        ⟨.finite 1 1, G2.generator, .finite 0 0⟩ = .error (.malformedProof .a) ∧
      generatorKey.verify (groupsWith logarithmProduct?) [Residue.ofNat 2] generatorProof =
        .ok true ∧
      logarithmProduct? [(G1.generator, G2.generator),
          (G1.group.add G1.generator (G1.group.combine [Residue.ofNat 2] [G1.generator]),
            G2.generator.neg), (G1.generator.neg, G2.generator.neg)] =
        logarithmProduct? [(G1.generator.neg, G2.generator)] := by
  obtain ⟨P, hP⟩ := G1.isMember_iff.mp G1.isMember_generator
  have hpoints : [G1.generator, G1.generator] = [P, P].map ofMember := by
    rw [List.map_cons, List.map_cons, hP]
    rfl
  have hinputs : G1.isMember (G1.group.add G1.generator
      (G1.group.combine [Residue.ofNat 2] [G1.generator])) = true := by
    rw [Contract.add_combine_eq_inputSum hpoints]
    exact Point.isMember_ofMember _
  have hkey := Contract.keyPoints_of_members Contract.members_generatorKey hinputs
  have hagrees := verify_agrees_with_reading Contract.isPairing_logarithm.pairsOn_members
    (rfl : generatorKey.statement = [G1.generator, G1.generator]) rfl rfl hkey
  have hzero : ¬ ReadsBack (.finite 0 0 : G1) := by
    rw [G1.readsBack_iff, G1.isMember_zero]
    exact Bool.false_ne_true
  have hoff : ¬ ReadsBack (.finite 1 1 : G1) := by
    rw [G1.readsBack_iff]
    decide +kernel
  have hfirst := G1.readsBack_iff.mpr G1.isMember_generator
  have hsecond := G2.readsBack_iff.mpr G2.isMember_generator
  refine ⟨?_, ?_, ?_⟩
  · obtain ⟨-, hnamed, -⟩ := hagrees ⟨G1.generator, G2.generator, .finite 0 0⟩
    exact (hnamed .c).mpr ⟨hfirst, hsecond, hzero⟩
  · obtain ⟨-, hnamed, -⟩ := hagrees ⟨.finite 1 1, G2.generator, .finite 0 0⟩
    exact (hnamed .a).mpr hoff
  · obtain ⟨-, -, hverdict, -⟩ := hagrees generatorProof
    have hreads : ReadsBack generatorProof := Proof.readsBack_iff.mpr
      ⟨G1.isMember_generator, G2.isMember_generator,
        (G1.isMember_neg G1.generator).trans G1.isMember_generator⟩
    obtain ⟨accepts, hok, -, hnegated⟩ := hverdict hreads
    have haccepted := (Contract.verify_generatorProof 2).mpr rfl
    exact ⟨haccepted, hnegated.mp (Except.ok.inj (hok.symm.trans haccepted))⟩

end CircuitProof
