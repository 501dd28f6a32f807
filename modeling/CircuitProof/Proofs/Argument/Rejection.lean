import CircuitProof.Proofs.Argument.Balance
import CircuitProof.Proofs.Circuit.Soundness
import CircuitProof.Proofs.System.Acceptance

/-!
# Witnesses that violate a row

The prover takes every witness of its key's width, whether the rows hold or not. What it makes of
one that violates a row verifies only where the excess is zero. The excess is a polynomial in the
secret point alone, it is not zero, and its degree is below twice the domain's size.
-/

namespace CircuitProof

/-- The step at which a trial stopped, with its error. -/
inductive TrialError where
  | keys (error : Failure KeyGenerationError)
  | proof (error : Failure ProveError)
  | verdict (error : VerifyError)
  deriving DecidableEq

namespace Secrets

variable {F G₁ G₂ T : Type} [Field F] [RadixTwo F] [DecidableEq F] [Mul T] [DecidableEq T]

/-- Makes keys from the secrets, proves for the witness with two blinding scalars, and verifies the
proof for what the witness holds in the system's shown columns. -/
def trial (secrets : Secrets F) (groups : PairingGroups F G₁ G₂ T) (s : ConstraintSystem F)
    (w : Witness F) (r k : F) : Except TrialError Bool := do
  let pk ← (secrets.generateKeys groups s).mapError .keys
  let blind ← (pk.prover groups w).mapError .proof
  (pk.verifying.verify groups (s.shownColumns w.values) (blind r k)).mapError .verdict

variable {groups : PairingGroups F G₁ G₂ T} {pair : G₁ → G₂ → T} {s : ConstraintSystem F}
  {d : Domain} {secrets : Secrets F} {w : Witness F}

/-- A trial gets a verdict only with keys. -/
theorem exists_keys_of_trial {r k : F} {verdict : Bool}
    (h : secrets.trial groups s w r k = .ok verdict) :
    ∃ pk, secrets.generateKeys groups s = .ok pk := by
  cases hkeys : secrets.generateKeys groups s with
  | error e =>
    rw [trial, hkeys] at h
    cases h
  | ok pk => exact ⟨pk, rfl⟩

variable [LawfulRadixTwo F]

/-- What a trial ends with is told by the secret point: on the domain there are no keys, and
elsewhere the verdict is whether the excess is zero there. -/
theorem trial_eq (hgroups : groups.PrimeOrder pair) (hdefect : s.defect? = none)
    (hdomain : (QuadraticProgram.ofSystem s).domain? = some d)
    (hlength : w.values.length = s.numColumns) (hunit : w.values.head? = some 1)
    (hgamma : secrets.gamma ≠ 0) (hdelta : secrets.delta ≠ 0) (r k : F) :
    secrets.trial groups s w r k =
      if d.vanishing secrets.tau = 0 then .error (.keys (.rejected .degenerateSecrets))
      else .ok (decide
        (((QuadraticProgram.ofSystem s).excess d w.values).eval secrets.tau = 0)) := by
  -- at a point of the domain there is no key to prove with
  by_cases htau : d.vanishing secrets.tau = 0
  · rw [if_pos htau, trial, generateKeys_of_vanishing hdefect hdomain htau]
    rfl
  · obtain ⟨pk, values, hkeys, h⟩ := secrets.exists_generates groups hdefect hdomain htau hgamma
      hdelta
    have hshown := ConstraintSystem.length_shownColumns hlength
    have hbalance := h.scalars_excess hlength r k
    rw [ConstraintSystem.take_numStatement hunit] at hbalance
    have hproof := h.blindedProof_eq hgroups.first hgroups.second w.values
      ((QuadraticProgram.ofSystem s).quotientCoefficients d w.values) r k
    have hwellFormed := Proof.malformed?_multiples hgroups.toLawful
      (secrets.scalarA values w.values r) (secrets.scalarB values w.values k)
      (secrets.scalarC values s.numStatement w.values
        ((QuadraticProgram.ofSystem s).quotientCoefficients d w.values) r k)
    have hverdict := h.verify_eq hgroups.toLawful hshown hwellFormed rfl
    rw [if_neg htau, trial, hkeys]
    simp only [h.prover_eq hlength, hproof, hverdict, hgroups.pair_multiple,
      hgroups.pair_multiple_inj, hbalance, add_eq_left, Except.mapError, bind, Except.bind]

/-- A violated row leaves an excess. -/
theorem excess_ne_zero (hdefect : s.defect? = none)
    (hdomain : (QuadraticProgram.ofSystem s).domain? = some d) {z : List F}
    (hz : z.length = s.numColumns) {row : Nat} (hrow : row < s.numConstraints)
    (hviolated : s.rowHolds? z row = some false) :
    (QuadraticProgram.ofSystem s).excess d z ≠ 0 := by
  intro hzero
  obtain ⟨hfits, hcolumns, -⟩ := ConstraintSystem.fits_of_defect? hdefect
  have hsatisfied := (QuadraticProgram.excess_eq_zero_iff hfits hdomain).mp hzero
  have hrows := (ConstraintSystem.satisfied_iff_rowHolds? hfits (hz.trans hcolumns.symm)).mp
    hsatisfied
  rw [hrows row hrow] at hviolated
  cases hviolated

/-- For a witness of the right width that violates a row, all but `2 n - 2` secret points, where `n`
is the size of the domain, make every proof that the prover can return fail. At each secret point
the outcome is one and the same for all other secrets and all blinding scalars. -/
theorem encard_violated_accepted_le (hgroups : groups.PrimeOrder pair) (hdefect : s.defect? = none)
    (hdomain : (QuadraticProgram.ofSystem s).domain? = some d) {other : ConstraintSystem F}
    (hother : other.Built) (hw : other.Accepted w) (hlength : w.values.length = s.numColumns)
    {row : Nat} (hrow : row < s.numConstraints)
    (hviolated : s.rowHolds? w.values row = some false) :
    {tau | ∃ alpha beta gamma delta r k,
        trial ⟨tau, alpha, beta, gamma, delta⟩ groups s w r k = .ok true}.encard ≤
      (2 * d.size - 2 : Nat) ∧
    ∀ tau, ∃ accepts, ∀ alpha beta gamma delta r k, gamma ≠ 0 → delta ≠ 0 →
      trial ⟨tau, alpha, beta, gamma, delta⟩ groups s w r k =
        if d.vanishing tau = 0 then .error (.keys (.rejected .degenerateSecrets))
        else .ok accepts := by
  have hunit := (ConstraintSystem.satisfies_of_accepted hother hw).unit
  obtain ⟨hfits, -, -⟩ := ConstraintSystem.fits_of_defect? hdefect
  obtain ⟨hlog, hsize⟩ := Domain.log_le_of_forSize? hdomain
  have hfitsDomain : (QuadraticProgram.ofSystem s).FitsDomain d w.values :=
    QuadraticProgram.fitsDomain_of_fits hfits (Domain.isPrimitiveRoot hlog) hsize
  constructor
  · have hdegree := QuadraticProgram.natDegree_excess_le hfitsDomain
    have hle : ((QuadraticProgram.ofSystem s).excess d w.values).natDegree ≤ 2 * d.size - 2 := by
      omega
    have hexcess := excess_ne_zero hdefect hdomain hlength hrow hviolated
    refine (Domain.encard_le_natDegree hexcess ?_).trans (by exact_mod_cast hle)
    rintro tau ⟨alpha, beta, gamma, delta, r, k, haccepted⟩
    obtain ⟨pk, hkeys⟩ := exists_keys_of_trial haccepted
    obtain ⟨_, _, h⟩ := generates_of_generateKeys hkeys
    rw [trial_eq hgroups hdefect hdomain hlength hunit h.gamma_ne_zero h.delta_ne_zero] at haccepted
    split at haccepted
    · cases haccepted
    · exact of_decide_eq_true (Except.ok.inj haccepted)
  · intro tau
    refine ⟨decide (((QuadraticProgram.ofSystem s).excess d w.values).eval tau = 0), ?_⟩
    intro alpha beta gamma delta r k hgamma hdelta
    exact trial_eq hgroups hdefect hdomain hlength hunit hgamma hdelta r k

end Secrets

/-- A system of one row, by which the hidden column 2 is the shown column 1 times column 3. -/
def productSystem : ConstraintSystem Scalar :=
  .ofMatrices ⟨[[(1, 1)]], 4⟩ ⟨[[(3, 1)]], 4⟩ ⟨[[(2, 1)]], 4⟩ 1 1

/-- The witness of a product violates the self-quotient. At most six secret points let a proof made
from it pass, and eleven is none of them. -/
theorem encard_violated_accepted_le_selfQuotient :
    Circuit.selfQuotientSystem.rowHolds? [1, 5, 35, 7] 1 = some false ∧
      {tau | ∃ alpha beta gamma delta r k,
        Secrets.trial ⟨tau, alpha, beta, gamma, delta⟩ (PairingGroups.exponentGroups Scalar)
          Circuit.selfQuotientSystem ⟨[1, 5, 35, 7], 1⟩ r k = .ok true}.encard ≤ 6 ∧
      ∀ alpha beta gamma delta r k, gamma ≠ 0 → delta ≠ 0 →
        Secrets.trial ⟨11, alpha, beta, gamma, delta⟩ (PairingGroups.exponentGroups Scalar)
          Circuit.selfQuotientSystem ⟨[1, 5, 35, 7], 1⟩ r k = .ok false := by
  have hviolated : Circuit.selfQuotientSystem.rowHolds? [1, 5, 35, 7] 1 = some false := by
    decide +kernel
  have haccepted : productSystem.witnessOfValues [1, 5, 35, 7] = .ok ⟨[1, 5, 35, 7], 1⟩ := by
    decide +kernel
  obtain ⟨hbound, houtcome⟩ := Secrets.encard_violated_accepted_le
    (PairingGroups.exponentGroups_primeOrder Residue.exists_natCast) (d := ⟨2⟩)
    (by decide +kernel) (by decide +kernel) (.ofMatrices _ _ _ 1 1) (.supplied haccepted) rfl
    (by decide) hviolated
  refine ⟨hviolated, hbound, ?_⟩
  intro alpha beta gamma delta r k hgamma hdelta
  obtain ⟨accepts, houtcome⟩ := houtcome 11
  have hfails : Secrets.trial ⟨11, 2, 3, 5, 7⟩ (PairingGroups.exponentGroups Scalar)
      Circuit.selfQuotientSystem ⟨[1, 5, 35, 7], 1⟩ 0 0 = .ok false := by
    decide +kernel
  rw [houtcome alpha beta gamma delta r k hgamma hdelta, ← hfails]
  exact (houtcome 2 3 5 7 0 0 (by decide) (by decide)).symm

end CircuitProof
