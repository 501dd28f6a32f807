import CircuitProof.Proofs.Argument.Balance
import CircuitProof.Proofs.Bn254.Domain
import CircuitProof.Proofs.Circuit.Soundness
import CircuitProof.Proofs.System.Acceptance

/-!
# Proofs of a satisfied system verify

For an assignment that satisfies every row the vanishing polynomial divides `A · B - C`. Read at the
secret point, that is the balance of the proof's scalars, whatever the secrets and the blinding
scalars are.
-/

namespace CircuitProof

variable {F G₁ G₂ T : Type} [Field F] [RadixTwo F] [DecidableEq F]

section
variable [Mul T] [DecidableEq T] {groups : PairingGroups F G₁ G₂ T} {pair : G₁ → G₂ → T}

/-- Whatever the secrets that keys were generated from and whatever the blinding scalars, the prover
accepts every witness that the system accepts, and its proof verifies for the shown inputs. -/
theorem verify_prover_of_accepted [LawfulRadixTwo F] (hgroups : groups.Lawful pair)
    {system : ConstraintSystem F} (hsystem : system.Built) {secrets : Secrets F}
    {pk : ProvingKey F G₁ G₂} (hkeys : secrets.generateKeys groups system = .ok pk)
    {w : Witness F} (hw : system.Accepted w) :
    ∃ blind, pk.prover groups w = .ok blind ∧
      ∀ r s, pk.verifying.verify groups w.shown (blind r s) = .ok true := by
  obtain ⟨d, values, h⟩ := Secrets.generates_of_generateKeys hkeys
  have hsatisfies := ConstraintSystem.satisfies_of_accepted hsystem hw
  refine ⟨_, h.prover_eq hsatisfies.length_values, fun r s => ?_⟩
  have hlength := h.length_statementScalars
  obtain ⟨start, statement, hscalars⟩ : ∃ start statement,
      secrets.statementScalars values system.numStatement = start :: statement := by
    refine List.exists_cons_of_length_pos ?_
    rw [hlength, ConstraintSystem.numStatement]
    omega
  have hverifying := h.key_verifying
  rw [hscalars] at hverifying
  have hshown : w.shown.length = statement.length := by
    rw [hscalars, List.length_cons, ConstraintSystem.numStatement] at hlength
    rw [hsatisfies.length_shown]
    omega
  have hbalance := h.scalars_balance hsatisfies.length_values hsatisfies.rows r s
  rw [hscalars, hsatisfies.take_values, dot_cons, one_mul] at hbalance
  rw [h.blindedProof_eq hgroups.first hgroups.second, verify_multiples hgroups hverifying hshown,
    hbalance, decide_eq_true rfl]

/-- What generated keys make of a satisfying assignment verifies for its shown inputs. -/
theorem Secrets.Generates.verify_blindedProof [LawfulRadixTwo F] {secrets : Secrets F}
    {s : ConstraintSystem F} {pk : ProvingKey F G₁ G₂} {d : Domain} {values : ProgramValues F}
    (h : secrets.Generates groups s pk d values) (hgroups : groups.Lawful pair) {w : Witness F}
    (hw : s.Satisfies w) (r k : F) :
    pk.verifying.verify groups w.shown (pk.blindedProof groups w.values
      ((QuadraticProgram.ofSystem s).quotientCoefficients d w.values) r k) = .ok true := by
  rw [h.blindedProof_eq hgroups.first hgroups.second]
  rw [h.verify_eq hgroups hw.length_shown (Proof.malformed?_multiples hgroups _ _ _) rfl,
    hgroups.pair_multiple, h.scalars_balance hw.length_values hw.rows r k, hw.take_values,
    decide_eq_true rfl]

end

/-- Keys for the self-quotient, over the exponents. -/
theorem verify_prover_selfQuotient :
    ∃ pk blind,
      Secrets.generateKeys ⟨11, 2, 3, 5, 7⟩ (PairingGroups.exponentGroups Scalar)
        Circuit.selfQuotientSystem = .ok pk ∧
      pk.prover (PairingGroups.exponentGroups Scalar) ⟨[1, 1, 7, 1], 1⟩ = .ok blind ∧
      ∀ r s,
        pk.verifying.verify (PairingGroups.exponentGroups Scalar) [1] (blind r s) = .ok true := by
  have hok : (Secrets.generateKeys ⟨11, 2, 3, 5, 7⟩ (PairingGroups.exponentGroups Scalar)
      Circuit.selfQuotientSystem).isOk = true := by
    decide +kernel
  cases hkeys : Secrets.generateKeys ⟨11, 2, 3, 5, 7⟩ (PairingGroups.exponentGroups Scalar)
      Circuit.selfQuotientSystem with
  | error e =>
    rw [hkeys] at hok
    cases hok
  | ok pk =>
    obtain ⟨blind, hblind, hverifies⟩ := verify_prover_of_accepted
      PairingGroups.exponentGroups_lawful (.compiled Circuit.selfQuotient_compile) hkeys
      (.generated Circuit.selfQuotientSystem_generates)
    exact ⟨pk, blind, rfl, hblind, hverifies⟩

end CircuitProof
