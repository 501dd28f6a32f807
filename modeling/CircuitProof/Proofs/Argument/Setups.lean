import CircuitProof.Proofs.Argument.Binding
import CircuitProof.Proofs.Argument.KeyGeneration
import CircuitProof.Proofs.Argument.Rejection

/-!
# One proof under different setups

The statement's points of a verifying key are divided by `gamma`, and their sum is paired with the
multiple by `gamma`, so the verdict on a proof is the same for every `gamma` other than zero. The
multiple by `delta` is paired with the third point of the proof, which is not divided by it. So if
that point is not zero, the other secrets leave at most one `delta` that lets the proof pass.
-/

namespace CircuitProof

namespace Secrets

variable {F G₁ G₂ T : Type} [Field F] [RadixTwo F] [DecidableEq F] [Mul T] [DecidableEq T]

def verdict (secrets : Secrets F) (groups : PairingGroups F G₁ G₂ T) (s : ConstraintSystem F)
    (shown : List F) (proof : Proof G₁ G₂) : Except TrialError Bool := do
  let pk ← (secrets.generateKeys groups s).mapError .keys
  (pk.verifying.verify groups shown proof).mapError .verdict

variable {groups : PairingGroups F G₁ G₂ T} {pair : G₁ → G₂ → T} {s : ConstraintSystem F}
  {d : Domain} {secrets : Secrets F} {values : ProgramValues F} {shown : List F}
  {proof : Proof G₁ G₂} {c : F}

/-- What the first two points of an accepted proof pair to, as a multiple of the generators'
pairing, where `c` is the scalar of the third. -/
def target (secrets : Secrets F) (values : ProgramValues F) (s : ConstraintSystem F)
    (shown : List F) (c : F) : F :=
  secrets.alpha * secrets.beta +
    (dot (1 :: shown) ((secrets.combined values).take s.numStatement) + c * secrets.delta)

/-- In the verifying equation the inverse of `gamma` meets `gamma`. -/
theorem Generates.verify_eq_target {pk : ProvingKey F G₁ G₂}
    (h : secrets.Generates groups s pk d values) (hgroups : groups.Lawful pair)
    (hshown : shown.length = s.numShown) (hproof : proof.malformed? groups = none)
    (hc : groups.first.multiple c = proof.c) :
    pk.verifying.verify groups shown proof =
      .ok (decide (pair proof.a proof.b =
        pair groups.first.generator
          (groups.second.multiple (secrets.target values s shown c)))) := by
  have hgamma : dot (1 :: shown) (secrets.statementScalars values s.numStatement) * secrets.gamma =
      dot (1 :: shown) ((secrets.combined values).take s.numStatement) := by
    rw [statementScalars, dot_map_mul, mul_assoc, inv_mul_cancel₀ h.gamma_ne_zero, mul_one]
  rw [h.verify_eq hgroups hshown hproof hc, hgamma, target]

/-- Where keys can be made, the verdict tells whether the pairing of the proof's first two points is
the target. -/
theorem verdict_eq_target (secrets : Secrets F) (hgroups : groups.Lawful pair)
    (hdefect : s.defect? = none) (hdomain : (QuadraticProgram.ofSystem s).domain? = some d)
    (hvalues : (QuadraticProgram.ofSystem s).valuesOn? d secrets.tau = some values)
    (htau : d.vanishing secrets.tau ≠ 0) (hgamma : secrets.gamma ≠ 0) (hdelta : secrets.delta ≠ 0)
    (hshown : shown.length = s.numShown) (hproof : proof.malformed? groups = none)
    (hc : groups.first.multiple c = proof.c) :
    secrets.verdict groups s shown proof =
      .ok (decide (pair proof.a proof.b =
        pair groups.first.generator
          (groups.second.multiple (secrets.target values s shown c)))) := by
  obtain ⟨pk, values', hkeys, h⟩ :=
    secrets.exists_generates groups hdefect hdomain htau hgamma hdelta
  obtain rfl : values' = values := Option.some.inj (h.values_eq.symm.trans hvalues)
  simp only [verdict, hkeys, h.verify_eq_target hgroups hshown hproof hc, Except.mapError, bind,
    Except.bind]

/-- Only keys accept. -/
theorem exists_generates_of_verdict {accepts : Bool}
    (h : secrets.verdict groups s shown proof = .ok accepts) :
    ∃ pk d values, secrets.Generates groups s pk d values ∧
      pk.verifying.verify groups shown proof = .ok accepts := by
  cases hkeys : secrets.generateKeys groups s with
  | error e =>
    rw [verdict, hkeys] at h
    cases h
  | ok pk =>
    obtain ⟨d, values, hgenerates⟩ := generates_of_generateKeys hkeys
    refine ⟨pk, d, values, hgenerates, ?_⟩
    cases hverify : pk.verifying.verify groups shown proof with
    | error e =>
      simp only [verdict, hkeys, hverify, Except.mapError, bind, Except.bind] at h
      cases h
    | ok result =>
      simp only [verdict, hkeys, hverify, Except.mapError, bind, Except.bind] at h
      exact congrArg Except.ok (Except.ok.inj h)

/-- At two values of `delta` a proof whose third point is not zero is not accepted. -/
theorem delta_unique (hgroups : groups.PrimeOrder pair) (hshown : shown.length = s.numShown)
    (hc : proof.c ≠ groups.first.zero) {tau alpha beta gamma gamma' delta delta' : F}
    (h : verdict ⟨tau, alpha, beta, gamma, delta⟩ groups s shown proof = .ok true)
    (h' : verdict ⟨tau, alpha, beta, gamma', delta'⟩ groups s shown proof = .ok true) :
    delta = delta' := by
  obtain ⟨pk, d, values, hkeys, hverify⟩ := exists_generates_of_verdict h
  obtain ⟨pk', d', values', hkeys', hverify'⟩ := exists_generates_of_verdict h'
  -- the columns are evaluated at the secret point, which the two setups share
  obtain rfl : d' = d := Option.some.inj (hkeys'.domain.symm.trans hkeys.domain)
  obtain rfl : values' = values := Option.some.inj (hkeys'.values_eq.symm.trans hkeys.values_eq)
  have hproof := malformed?_of_verify hverify
  obtain ⟨c, hmultiple⟩ := hgroups.exists_multiple (Proof.malformed?_eq_none_iff.mp hproof).2.2
  rw [hkeys.verify_eq_target hgroups.toLawful hshown hproof hmultiple, Except.ok.injEq,
    decide_eq_true_iff] at hverify
  rw [hkeys'.verify_eq_target hgroups.toLawful hshown hproof hmultiple, Except.ok.injEq,
    decide_eq_true_iff] at hverify'
  have htargets := hgroups.pair_multiple_inj.mp (hverify.symm.trans hverify')
  have hproducts : c * delta = c * delta' := add_left_cancel (add_left_cancel htargets)
  have hne : c ≠ 0 := by
    rintro rfl
    exact hc (hmultiple.symm.trans hgroups.first.multiple_zero)
  exact mul_left_cancel₀ hne hproducts

/-- Setups that share `tau`, `alpha` and `beta` come to one verdict on a proof if its third scalar
has the same product with the `delta` of each. -/
theorem verdict_congr (hgroups : groups.Lawful pair) (hdefect : s.defect? = none)
    (hshown : shown.length = s.numShown) (hproof : proof.malformed? groups = none)
    (hc : groups.first.multiple c = proof.c) {tau alpha beta gamma gamma' delta delta' : F}
    (hgamma : gamma ≠ 0) (hgamma' : gamma' ≠ 0) (hdelta : delta = 0 ↔ delta' = 0)
    (hproducts : c * delta = c * delta') :
    verdict ⟨tau, alpha, beta, gamma, delta⟩ groups s shown proof =
      verdict ⟨tau, alpha, beta, gamma', delta'⟩ groups s shown proof := by
  cases hdomain : (QuadraticProgram.ofSystem s).domain? with
  | none =>
    simp only [verdict, generateKeys, hdefect, QuadraticProgram.values, hdomain, bind, Except.bind]
  | some d =>
    by_cases htau : d.vanishing tau = 0
    · have hrefused : ∀ gamma delta, generateKeys ⟨tau, alpha, beta, gamma, delta⟩ groups s =
          Failure.reject .degenerateSecrets :=
        fun _ _ => generateKeys_of_vanishing hdefect hdomain htau
      rw [verdict, verdict, hrefused, hrefused]
    · by_cases hzero : delta = 0
      · have hrefused : ∀ gamma, generateKeys ⟨tau, alpha, beta, gamma, 0⟩ groups s =
            Failure.reject .degenerateSecrets :=
          fun _ => generateKeys_of_zero hdefect hdomain (.inr rfl)
        rw [verdict, verdict, hdelta.mp hzero, hzero, hrefused, hrefused]
      · obtain ⟨values, hvalues⟩ := QuadraticProgram.exists_valuesOn (d := d)
          (ConstraintSystem.fits_of_defect? hdefect).1 tau
        have hzero' : delta' ≠ 0 := mt hdelta.mpr hzero
        have htarget : target ⟨tau, alpha, beta, gamma, delta⟩ values s shown c =
            target ⟨tau, alpha, beta, gamma', delta'⟩ values s shown c := by
          simp only [target, combined, hproducts]
        rw [verdict_eq_target ⟨tau, alpha, beta, gamma, delta⟩ hgroups hdefect hdomain hvalues htau
            hgamma hzero hshown hproof hc, htarget,
          verdict_eq_target ⟨tau, alpha, beta, gamma', delta'⟩ hgroups hdefect hdomain hvalues htau
            hgamma' hzero' hshown hproof hc]

/-- A proof is tied to one setup. The verdict on it is the same for every `gamma` other than zero,
and where keys can be made there is one. If the third point of the proof is not zero, at most one
`delta` lets it be accepted, for given `tau`, `alpha` and `beta`; if it is zero, which `delta` is
taken makes no difference either. -/
theorem verdict_binds_delta (hgroups : groups.PrimeOrder pair) (hdefect : s.defect? = none)
    (hshown : shown.length = s.numShown) (hproof : proof.malformed? groups = none)
    (tau alpha beta : F) :
    (∀ gamma gamma' delta, gamma ≠ 0 → gamma' ≠ 0 →
      verdict ⟨tau, alpha, beta, gamma, delta⟩ groups s shown proof =
        verdict ⟨tau, alpha, beta, gamma', delta⟩ groups s shown proof) ∧
    (∀ d, (QuadraticProgram.ofSystem s).domain? = some d → d.vanishing tau ≠ 0 →
      ∀ gamma delta, gamma ≠ 0 → delta ≠ 0 →
        ∃ accepts, verdict ⟨tau, alpha, beta, gamma, delta⟩ groups s shown proof = .ok accepts) ∧
    (proof.c ≠ groups.first.zero →
      {delta | ∃ gamma,
        verdict ⟨tau, alpha, beta, gamma, delta⟩ groups s shown proof = .ok true}.Subsingleton) ∧
    (proof.c = groups.first.zero →
      ∀ gamma gamma' delta delta', gamma ≠ 0 → gamma' ≠ 0 → delta ≠ 0 → delta' ≠ 0 →
        verdict ⟨tau, alpha, beta, gamma, delta⟩ groups s shown proof =
          verdict ⟨tau, alpha, beta, gamma', delta'⟩ groups s shown proof) := by
  obtain ⟨c, hc⟩ := hgroups.exists_multiple (Proof.malformed?_eq_none_iff.mp hproof).2.2
  have hlawful := hgroups.toLawful
  refine ⟨fun gamma gamma' delta hgamma hgamma' => ?_, ?_, ?_, ?_⟩
  · exact verdict_congr hlawful hdefect hshown hproof hc hgamma hgamma' Iff.rfl rfl
  · intro d hdomain htau gamma delta hgamma hdelta
    obtain ⟨values, hvalues⟩ := QuadraticProgram.exists_valuesOn (d := d)
      (ConstraintSystem.fits_of_defect? hdefect).1 tau
    exact ⟨_, verdict_eq_target _ hlawful hdefect hdomain hvalues htau hgamma hdelta hshown hproof
      hc⟩
  · rintro hne delta ⟨gamma, h⟩ delta' ⟨gamma', h'⟩
    exact delta_unique hgroups hshown hne h h'
  · intro hzero gamma gamma' delta delta' hgamma hgamma' hdelta hdelta'
    have hmultiple : groups.first.multiple 0 = proof.c :=
      hgroups.first.multiple_zero.trans hzero.symm
    have hproducts : (0 : F) * delta = 0 * delta' := by rw [zero_mul, zero_mul]
    exact verdict_congr hlawful hdefect hshown hproof hmultiple hgamma hgamma'
      (iff_of_false hdelta hdelta') hproducts

end Secrets

/-- With `tau`, `alpha` and `beta` eleven, two and three, a proof that the hidden square accepts for
`delta` seven is accepted whatever `gamma` is, and for no other `delta`. -/
theorem verdict_binds_delta_hiddenSquare : ∃ proof : Proof Scalar Scalar,
    (∀ gamma, gamma ≠ 0 → Secrets.verdict ⟨11, 2, 3, gamma, 7⟩ (PairingGroups.exponentGroups Scalar)
      hiddenSquare [4] proof = .ok true) ∧
    ∀ gamma delta, Secrets.verdict ⟨11, 2, 3, gamma, delta⟩ (PairingGroups.exponentGroups Scalar)
      hiddenSquare [4] proof = .ok true → delta = 7 := by
  let proof : Proof Scalar Scalar :=
    ⟨21888242871839270858404645151975870972647532231350084445972042102341211624030, 1, 1⟩
  have haccepted : Secrets.verdict ⟨11, 2, 3, 5, 7⟩ (PairingGroups.exponentGroups Scalar)
      hiddenSquare [4] proof = .ok true := by
    decide +kernel
  have hgroups := PairingGroups.exponentGroups_primeOrder (F := Scalar) Residue.exists_natCast
  have hdefect : hiddenSquare.defect? = none := by decide +kernel
  have hlength : ([4] : List Scalar).length = hiddenSquare.numShown := rfl
  have hmembers : proof.malformed? (PairingGroups.exponentGroups Scalar) = none := rfl
  obtain ⟨hgamma, -, hdelta, -⟩ :=
    Secrets.verdict_binds_delta hgroups hdefect hlength hmembers 11 2 3
  have hone : proof.c ≠ (PairingGroups.exponentGroups Scalar).first.zero := by decide
  refine ⟨proof, fun gamma hne => ?_, fun gamma delta h => ?_⟩
  · rw [hgamma gamma 5 7 hne (by decide), haccepted]
  · exact hdelta hone ⟨gamma, h⟩ ⟨5, haccepted⟩

end CircuitProof
