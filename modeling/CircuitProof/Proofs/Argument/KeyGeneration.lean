import CircuitProof.Circuit.Compile
import CircuitProof.Circuit.Samples
import CircuitProof.Proofs.Argument.Keys
import CircuitProof.Proofs.Argument.Safety

/-!
# Key generation is total

Nothing is assumed of a system: its counts may contradict its matrices and its rows may mention any
columns. The check of the system decides whether its parts fit together, and where they do, every
list that key generation takes apart is long enough. So it ends in one of four ways, of which each
tells what the system and the secrets are like, and the keys that it makes are keys that the prover
accepts.
-/

namespace CircuitProof

/-- The lists of the key have the lengths that the system and a domain of size `2 ^ log` call for. -/
structure ProvingKey.FitsSystem {F G₁ G₂ : Type} (pk : ProvingKey F G₁ G₂) (s : ConstraintSystem F)
    (log : Nat) : Prop where
  statement : pk.verifying.statement.length = s.numShown + 1
  aQuery : pk.aQuery.length = s.numColumns
  bQuery₁ : pk.bQuery₁.length = s.numColumns
  bQuery₂ : pk.bQuery₂.length = s.numColumns
  lQuery : pk.lQuery.length = s.numColumns - s.numStatement
  hQuery : pk.hQuery.length = 2 ^ log - 1

namespace Secrets

section
variable {F G₁ G₂ T : Type} [Field F] [RadixTwo F] [DecidableEq F]

theorem Generates.fitsSystem {secrets : Secrets F} {groups : PairingGroups F G₁ G₂ T}
    {s : ConstraintSystem F} {pk : ProvingKey F G₁ G₂} {d : Domain} {values : ProgramValues F}
    (h : secrets.Generates groups s pk d values) : pk.FitsSystem s d.log := by
  have hshape := ProvingKey.shapeFault?_eq_none_iff.mp h.shapeFault?_eq_none
  have hquery : pk.aQuery.length = s.numColumns := h.key_numColumns
  have hstatement : pk.verifying.statement.length = s.numStatement := h.key_numStatement
  have hpartition : pk.lQuery.length + s.numStatement = s.numColumns := by
    rw [← hstatement, hshape.statement, hshape.partition, hquery]
  have hquotient : pk.hQuery.length + 1 = 2 ^ d.log := h.length_hQuery
  exact
    { statement := by rw [hstatement, ConstraintSystem.numStatement, Nat.add_comm]
      aQuery := hquery
      bQuery₁ := hshape.bQuery₁.trans hquery
      bQuery₂ := hshape.bQuery₂.trans hquery
      lQuery := by omega
      hQuery := by omega }

/-- The ways in which key generation can end, each with its cause. -/
inductive Ends (secrets : Secrets F) (groups : PairingGroups F G₁ G₂ T) (s : ConstraintSystem F) :
    Except (Failure KeyGenerationError) (ProvingKey F G₁ G₂) → Prop where
  | malformed (defect : Defect) :
    s.defect? = some defect → Ends secrets groups s (Failure.reject (.malformedSystem defect))
  | unavailable :
    s.defect? = none → Domain.forSize? F (s.numConstraints + s.numStatement) = none →
      Ends secrets groups s
        (Failure.reject (.domainUnavailable (s.numConstraints + s.numStatement)))
  | degenerate (d : Domain) :
    s.defect? = none → Domain.forSize? F (s.numConstraints + s.numStatement) = some d →
      (secrets.tau ^ 2 ^ d.log = 1 ∨ secrets.gamma = 0 ∨ secrets.delta = 0) →
      Ends secrets groups s (Failure.reject .degenerateSecrets)
  | generated (pk : ProvingKey F G₁ G₂) (d : Domain) (values : ProgramValues F) :
    secrets.Generates groups s pk d values → Ends secrets groups s (.ok pk)

omit [RadixTwo F] [DecidableEq F] in
/-- A point lies on the domain exactly if the vanishing polynomial is zero there. -/
theorem vanishing_eq_zero_iff {d : Domain} {x : F} : d.vanishing x = 0 ↔ x ^ 2 ^ d.log = 1 := by
  rw [Domain.vanishing_eq, sub_eq_zero]
  rfl

/-- Keys are generated only from secrets that are not degenerate. -/
theorem Generates.not_degenerate {secrets : Secrets F} {groups : PairingGroups F G₁ G₂ T}
    {s : ConstraintSystem F} {pk : ProvingKey F G₁ G₂} {d : Domain} {values : ProgramValues F}
    (h : secrets.Generates groups s pk d values) :
    ¬ (secrets.tau ^ 2 ^ d.log = 1 ∨ secrets.gamma = 0 ∨ secrets.delta = 0) := by
  have htau : d.vanishing secrets.tau ≠ 0 := h.vanishing_eq ▸ h.vanishing_ne_zero
  rw [Ne, vanishing_eq_zero_iff] at htau
  simp only [not_or]
  exact ⟨htau, h.gamma_ne_zero, h.delta_ne_zero⟩

theorem generateKeys_of_zero {secrets : Secrets F} {groups : PairingGroups F G₁ G₂ T}
    {s : ConstraintSystem F} {d : Domain} (hdefect : s.defect? = none)
    (hdomain : (QuadraticProgram.ofSystem s).domain? = some d)
    (hzero : secrets.gamma = 0 ∨ secrets.delta = 0) :
    secrets.generateKeys groups s = Failure.reject .degenerateSecrets := by
  obtain ⟨values, hvalues⟩ := QuadraticProgram.exists_valuesOn (d := d)
    (ConstraintSystem.fits_of_defect? hdefect).1 secrets.tau
  simp only [generateKeys, hdefect, QuadraticProgram.values_eq hdomain hvalues, bind, Except.bind]
  split
  · rfl
  · rcases hzero with hgamma | hdelta
    · simp [inverse?, hgamma]
    · by_cases hgamma : secrets.gamma = 0 <;> simp [inverse?, hgamma, hdelta]

/-- There is no other way to end; in particular no index leaves its vector. -/
theorem generateKeys_ends (secrets : Secrets F) (groups : PairingGroups F G₁ G₂ T)
    (s : ConstraintSystem F) : secrets.Ends groups s (secrets.generateKeys groups s) := by
  cases hdefect : s.defect? with
  | some defect =>
    have hrefused : secrets.generateKeys groups s = Failure.reject (.malformedSystem defect) := by
      simp only [generateKeys, hdefect]
    rw [hrefused]
    exact .malformed defect hdefect
  | none =>
    cases hdomain : (QuadraticProgram.ofSystem s).domain? with
    | none =>
      have hrefused : secrets.generateKeys groups s =
          Failure.reject (.domainUnavailable (QuadraticProgram.ofSystem s).minDomainSize) := by
        simp only [generateKeys, hdefect, QuadraticProgram.values, hdomain, bind, Except.bind]
      rw [hrefused]
      exact .unavailable hdefect hdomain
    | some d =>
      by_cases htau : d.vanishing secrets.tau = 0
      · rw [generateKeys_of_vanishing hdefect hdomain htau]
        exact .degenerate d hdefect hdomain (.inl (vanishing_eq_zero_iff.mp htau))
      · by_cases hzero : secrets.gamma = 0 ∨ secrets.delta = 0
        · rw [generateKeys_of_zero hdefect hdomain hzero]
          exact .degenerate d hdefect hdomain (.inr hzero)
        · obtain ⟨hgamma, hdelta⟩ := not_or.mp hzero
          obtain ⟨pk, values, hkeys, h⟩ :=
            exists_generates secrets groups hdefect hdomain htau hgamma hdelta
          rw [hkeys]
          exact .generated pk d values h

end

end Secrets

/-! ## The scalar field -/

/-- The smallest group of roots of unity of the scalar field, among those whose order is a power of
two, that has the given number of elements or more. -/
structure SmallestDomain (size log : Nat) : Prop where
  exists_root : ∃ w : Scalar, IsPrimitiveRoot w (2 ^ log)
  size_le : size ≤ 2 ^ log
  smallest : ∀ k, size ≤ 2 ^ k → log ≤ k

/-- The domain that the program picks is the smallest one there is. -/
theorem smallestDomain_iff {size log : Nat} :
    SmallestDomain size log ↔ Domain.forSize? Scalar size = some ⟨log⟩ := by
  rw [Domain.forSize?_eq_some_iff]
  constructor
  · intro h
    exact ⟨exists_isPrimitiveRoot_iff.mp h.exists_root, fun k =>
      ⟨h.smallest k, fun hle => h.size_le.trans (Nat.pow_le_pow_right Nat.two_pos hle)⟩⟩
  · rintro ⟨havailable, hsmallest⟩
    exact ⟨exists_isPrimitiveRoot_iff.mpr havailable, (hsmallest log).mpr le_rfl,
      fun k => (hsmallest k).mp⟩

/-- A size is refused only if no root of unity of the field has that large an order. -/
theorem forSize?_eq_none_iff {size : Nat} : Domain.forSize? Scalar size = none ↔
    ∀ (log : Nat) (w : Scalar), IsPrimitiveRoot w (2 ^ log) → 2 ^ log < size := by
  rw [Domain.forSize?]
  constructor
  · intro h log w hw
    split at h
    · cases h
    · next hlarge =>
      by_contra hle
      have hlog := exists_isPrimitiveRoot_iff.mp ⟨w, hw⟩
      exact hlarge ((Domain.le_size_iff_logFor_le.mp (Nat.le_of_not_lt hle)).trans hlog)
  · intro h
    refine if_neg fun hle => ?_
    obtain ⟨w, hw⟩ := exists_isPrimitiveRoot_iff.mpr hle
    exact absurd (Domain.le_size_iff_logFor_le.mpr le_rfl) (Nat.not_le_of_lt (h _ w hw))

namespace Secrets

variable {G₁ G₂ T : Type} {secrets : Secrets Scalar} {groups : PairingGroups Scalar G₁ G₂ T}
  {s : ConstraintSystem Scalar}

theorem generateKeys_eq_malformedSystem_iff {defect : Defect} :
    secrets.generateKeys groups s = Failure.reject (.malformedSystem defect) ↔
      s.defect? = some defect := by
  have hends := generateKeys_ends secrets groups s
  generalize secrets.generateKeys groups s = outcome at hends ⊢
  cases hends with
  | malformed found hdefect => simp [Failure.reject, hdefect]
  | unavailable hdefect _ => simp [Failure.reject, hdefect]
  | degenerate d hdefect _ _ => simp [Failure.reject, hdefect]
  | generated pk d values h => simp [Failure.reject, h.defect]

theorem generateKeys_eq_domainUnavailable_iff {size : Nat} :
    secrets.generateKeys groups s = Failure.reject (.domainUnavailable size) ↔
      s.defect? = none ∧ size = s.numConstraints + s.numStatement ∧
        ∀ (log : Nat) (w : Scalar), IsPrimitiveRoot w (2 ^ log) → 2 ^ log < size := by
  simp only [← forSize?_eq_none_iff]
  have hends := generateKeys_ends secrets groups s
  generalize secrets.generateKeys groups s = outcome at hends ⊢
  cases hends with
  | malformed found hdefect => simp [Failure.reject, hdefect]
  | unavailable hdefect hdomain =>
    simp only [Failure.reject, Except.error.injEq, Failure.rejected.injEq,
      KeyGenerationError.domainUnavailable.injEq, hdefect, true_and]
    exact ⟨fun h => ⟨h.symm, h ▸ hdomain⟩, fun h => h.1.symm⟩
  | degenerate d hdefect hdomain _ =>
    refine iff_of_false (by simp [Failure.reject]) ?_
    rintro ⟨-, rfl, hnone⟩
    rw [hdomain] at hnone
    cases hnone
  | generated pk d values h =>
    refine iff_of_false (by simp [Failure.reject]) ?_
    rintro ⟨-, rfl, hnone⟩
    cases h.domain.symm.trans hnone

theorem generateKeys_eq_degenerateSecrets_iff :
    secrets.generateKeys groups s = Failure.reject .degenerateSecrets ↔
      s.defect? = none ∧ ∃ log, SmallestDomain (s.numConstraints + s.numStatement) log ∧
        (secrets.tau ^ 2 ^ log = 1 ∨ secrets.gamma = 0 ∨ secrets.delta = 0) := by
  simp only [smallestDomain_iff]
  have hends := generateKeys_ends secrets groups s
  generalize secrets.generateKeys groups s = outcome at hends ⊢
  cases hends with
  | malformed found hdefect => simp [Failure.reject, hdefect]
  | unavailable hdefect hdomain => simp [Failure.reject, hdomain]
  | degenerate d hdefect hdomain hcause => exact iff_of_true rfl ⟨hdefect, d.log, hdomain, hcause⟩
  | generated pk d values h =>
    refine iff_of_false (by simp [Failure.reject]) ?_
    rintro ⟨-, log, hdomain, hcause⟩
    obtain rfl : d = ⟨log⟩ := Option.some.inj (h.domain.symm.trans hdomain)
    exact h.not_degenerate hcause

theorem exists_generateKeys_iff :
    (∃ pk, secrets.generateKeys groups s = .ok pk) ↔
      s.defect? = none ∧ ∃ log, SmallestDomain (s.numConstraints + s.numStatement) log ∧
        ¬ (secrets.tau ^ 2 ^ log = 1 ∨ secrets.gamma = 0 ∨ secrets.delta = 0) := by
  simp only [smallestDomain_iff]
  have hends := generateKeys_ends secrets groups s
  generalize secrets.generateKeys groups s = outcome at hends ⊢
  cases hends with
  | malformed found hdefect => simp [Failure.reject, hdefect]
  | unavailable hdefect hdomain => simp [Failure.reject, hdomain]
  | degenerate d hdefect hdomain hcause =>
    refine iff_of_false (by simp [Failure.reject]) ?_
    rintro ⟨-, log, hdomain', hsound⟩
    obtain rfl : d = ⟨log⟩ := Option.some.inj (hdomain.symm.trans hdomain')
    exact hsound hcause
  | generated pk d values h =>
    exact iff_of_true ⟨pk, rfl⟩ ⟨h.defect, d.log, h.domain, h.not_degenerate⟩

/-- Key generation with given secrets draws nothing and reads within its vectors. -/
theorem exists_cause_of_generateKeys {e : Failure KeyGenerationError}
    (h : secrets.generateKeys groups s = .error e) : ∃ cause, e = .rejected cause := by
  have hends := generateKeys_ends secrets groups s
  rw [h] at hends
  cases hends <;> exact ⟨_, rfl⟩

/-- Keys that are generated fit their system, and the prover finds nothing wrong with them. -/
theorem fits_of_generateKeys {pk : ProvingKey Scalar G₁ G₂}
    (h : secrets.generateKeys groups s = .ok pk) :
    ∃ log, SmallestDomain (s.numConstraints + s.numStatement) log ∧ pk.FitsSystem s log ∧
      ∀ (w : Witness Scalar) (source : Source), w.values.length = s.numColumns →
        (∃ proof, (pk.prove groups w source).1 = .ok proof) ∨
          (pk.prove groups w source).1 = .error .exhausted ∧
            (drawAll Source.scalar? 2 source).1 = none := by
  obtain ⟨d, values, hgenerates⟩ := generates_of_generateKeys h
  refine ⟨d.log, smallestDomain_iff.mpr hgenerates.domain, hgenerates.fitsSystem, ?_⟩
  intro w source hw
  exact ProvingKey.outcome_of_ok (hgenerates.prover_eq hw) source

/-- Key generation for any system and any secrets. It refuses a system with a defect, then a system
that is too large for the domains of the field, then secrets of which `tau` lies on the domain or
`gamma` or `delta` is zero, and nothing else; no index is ever out of range. Otherwise it yields
keys that fit the system, of which the verifying key is a part, and with them the prover refuses no
assignment that is as long as the system is wide: it can only run out of randomness. -/
theorem generateKeys_total (secrets : Secrets Scalar) (groups : PairingGroups Scalar G₁ G₂ T)
    (s : ConstraintSystem Scalar) :
    (∀ defect, secrets.generateKeys groups s = Failure.reject (.malformedSystem defect) ↔
      s.defect? = some defect) ∧
    (∀ size, secrets.generateKeys groups s = Failure.reject (.domainUnavailable size) ↔
      s.defect? = none ∧ size = s.numConstraints + s.numStatement ∧
        ∀ (log : Nat) (w : Scalar), IsPrimitiveRoot w (2 ^ log) → 2 ^ log < size) ∧
    (secrets.generateKeys groups s = Failure.reject .degenerateSecrets ↔
      s.defect? = none ∧ ∃ log, SmallestDomain (s.numConstraints + s.numStatement) log ∧
        (secrets.tau ^ 2 ^ log = 1 ∨ secrets.gamma = 0 ∨ secrets.delta = 0)) ∧
    ((∃ pk, secrets.generateKeys groups s = .ok pk) ↔
      s.defect? = none ∧ ∃ log, SmallestDomain (s.numConstraints + s.numStatement) log ∧
        ¬ (secrets.tau ^ 2 ^ log = 1 ∨ secrets.gamma = 0 ∨ secrets.delta = 0)) ∧
    (∀ e, secrets.generateKeys groups s = .error e → ∃ cause, e = .rejected cause) ∧
    ∀ pk, secrets.generateKeys groups s = .ok pk →
      ∃ log, SmallestDomain (s.numConstraints + s.numStatement) log ∧ pk.FitsSystem s log ∧
        ∀ (w : Witness Scalar) (source : Source), w.values.length = s.numColumns →
          (∃ proof, (pk.prove groups w source).1 = .ok proof) ∨
            (pk.prove groups w source).1 = .error .exhausted ∧
              (drawAll Source.scalar? 2 source).1 = none :=
  ⟨fun _ => generateKeys_eq_malformedSystem_iff, fun _ => generateKeys_eq_domainUnavailable_iff,
    generateKeys_eq_degenerateSecrets_iff, exists_generateKeys_iff,
    fun _ => exists_cause_of_generateKeys, fun _ => fits_of_generateKeys⟩

/-- The sum takes the domain of size four, on which one lies and two does not. -/
theorem generateKeys_total_sum :
    ∃ s, (Circuit.sum : Circuit Scalar).compile .reject = .ok s ∧
      generateKeys ⟨1, 2, 3, 5, 7⟩ (PairingGroups.exponentGroups Scalar) s =
        Failure.reject .degenerateSecrets ∧
      ∃ pk proof,
        generateKeys ⟨2, 2, 3, 5, 7⟩ (PairingGroups.exponentGroups Scalar) s = .ok pk ∧
        (pk.prove (PairingGroups.exponentGroups Scalar) ⟨[1, 2, 5, 3], 2⟩ (.ofScalars [2, 3])).1 =
          .ok proof := by
  obtain ⟨s, hs, hdefect, hsize, hcolumns⟩ : ∃ s,
      (Circuit.sum : Circuit Scalar).compile .reject = .ok s ∧ s.defect? = none ∧
        s.numConstraints + s.numStatement = 4 ∧ s.numColumns = 4 :=
    ⟨_, rfl, by decide +kernel, by decide +kernel, by decide +kernel⟩
  have hsmallest : SmallestDomain (s.numConstraints + s.numStatement) 2 := by
    rw [hsize, smallestDomain_iff]
    rfl
  refine ⟨s, hs, ?_, ?_⟩
  · obtain ⟨-, -, hdegenerate, -⟩ :=
      generateKeys_total ⟨1, 2, 3, 5, 7⟩ (PairingGroups.exponentGroups Scalar) s
    exact hdegenerate.mpr ⟨hdefect, 2, hsmallest, .inl (one_pow _)⟩
  · obtain ⟨-, -, -, hexists, -, hfits⟩ :=
      generateKeys_total ⟨2, 2, 3, 5, 7⟩ (PairingGroups.exponentGroups Scalar) s
    obtain ⟨pk, hkeys⟩ := hexists.mpr ⟨hdefect, 2, hsmallest, by decide +kernel⟩
    obtain ⟨-, -, -, hprove⟩ := hfits pk hkeys
    rcases hprove ⟨[1, 2, 5, 3], 2⟩ (.ofScalars [2, 3]) hcolumns.symm with
      ⟨proof, hproof⟩ | ⟨-, hdry⟩
    · exact ⟨pk, proof, hkeys, hproof⟩
    · exact absurd hdry (by decide +kernel)

end Secrets

end CircuitProof
