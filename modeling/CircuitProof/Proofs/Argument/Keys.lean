import CircuitProof.Argument.KeyGeneration
import CircuitProof.Argument.Proving
import CircuitProof.Argument.Verifying
import CircuitProof.Proofs.Argument.Groups
import CircuitProof.Proofs.Argument.Program

/-!
# Keys, proofs and verification in terms of scalars

All points of the generated keys are multiples of the generators by known scalars, hence so are the
points of a proof, and verification compares two products of those scalars.
-/

namespace CircuitProof

variable {F G₁ G₂ T : Type} [Field F] [RadixTwo F] [DecidableEq F]

namespace Secrets

/-- The values `β A + α B + C` of the columns. -/
def combined (secrets : Secrets F) (values : ProgramValues F) : List F :=
  List.zipWith (fun ab c => secrets.beta * ab.1 + secrets.alpha * ab.2 + c)
    (values.a.zip values.b) values.c

/-- The scalars of the key's points for the statement columns. -/
def statementScalars (secrets : Secrets F) (values : ProgramValues F) (numStatement : Nat) :
    List F := ((secrets.combined values).take numStatement).map (· * secrets.gamma⁻¹)

def restScalars (secrets : Secrets F) (values : ProgramValues F) (numStatement : Nat) : List F :=
  ((secrets.combined values).drop numStatement).map (· * secrets.delta⁻¹)

def quotientScalars (secrets : Secrets F) (values : ProgramValues F) : List F :=
  (powers secrets.tau (values.domainSize - 1)).map (· * (values.vanishing * secrets.delta⁻¹))

omit [RadixTwo F] [DecidableEq F] in
theorem length_combined {secrets : Secrets F} {values : ProgramValues F} {n : Nat}
    (ha : values.a.length = n) (hb : values.b.length = n) (hc : values.c.length = n) :
    (secrets.combined values).length = n := by
  rw [combined, List.length_zipWith, List.length_zip, ha, hb, hc, Nat.min_self, Nat.min_self]

omit [RadixTwo F] [DecidableEq F] in
theorem dot_zipWith_combined (beta alpha : F) (z a b c : List F) (ha : a.length = z.length)
    (hb : b.length = z.length) (hc : c.length = z.length) :
    dot z (List.zipWith (fun ab c => beta * ab.1 + alpha * ab.2 + c) (a.zip b) c) =
      beta * dot z a + alpha * dot z b + dot z c := by
  induction z generalizing a b c with
  | nil => simp
  | cons v z ih =>
    obtain ⟨x, a, rfl⟩ := List.exists_cons_of_length_pos (l := a) (by rw [ha]; simp)
    obtain ⟨y, b, rfl⟩ := List.exists_cons_of_length_pos (l := b) (by rw [hb]; simp)
    obtain ⟨w, c, rfl⟩ := List.exists_cons_of_length_pos (l := c) (by rw [hc]; simp)
    simp only [List.zip_cons_cons, List.zipWith_cons_cons, dot_cons]
    rw [ih a b c (by simpa using ha) (by simpa using hb) (by simpa using hc)]
    ring

/-- What a successful key generation has computed. -/
structure Generates (secrets : Secrets F) (groups : PairingGroups F G₁ G₂ T)
    (s : ConstraintSystem F) (pk : ProvingKey F G₁ G₂) (d : Domain) (values : ProgramValues F) :
    Prop where
  defect : s.defect? = none
  domain : (QuadraticProgram.ofSystem s).domain? = some d
  values_eq : (QuadraticProgram.ofSystem s).valuesOn? d secrets.tau = some values
  vanishing_ne_zero : values.vanishing ≠ 0
  gamma_ne_zero : secrets.gamma ≠ 0
  delta_ne_zero : secrets.delta ≠ 0
  key : pk = secrets.keysFor groups (QuadraticProgram.ofSystem s) values secrets.gamma⁻¹
    secrets.delta⁻¹

/-- What every later lemma on a generated key starts from. -/
theorem generates_of_generateKeys {secrets : Secrets F} {groups : PairingGroups F G₁ G₂ T}
    {s : ConstraintSystem F} {pk : ProvingKey F G₁ G₂}
    (h : secrets.generateKeys groups s = .ok pk) :
    ∃ d values, secrets.Generates groups s pk d values := by
  cases hdefect : s.defect? with
  | some defect =>
    simp only [generateKeys, hdefect] at h
    cases h
  | none =>
    cases hdomain : (QuadraticProgram.ofSystem s).domain? with
    | none =>
      simp only [generateKeys, hdefect, QuadraticProgram.values, hdomain, bind, Except.bind] at h
      cases h
    | some d =>
      cases hvalues : (QuadraticProgram.ofSystem s).valuesOn? d secrets.tau with
      | none =>
        simp only [generateKeys, hdefect, QuadraticProgram.values, hdomain, hvalues,
          Failure.inRange_none, bind, Except.bind, Except.map] at h
        cases h
      | some values =>
        simp only [generateKeys, hdefect, QuadraticProgram.values, hdomain, hvalues,
          Failure.inRange_some, bind, Except.bind, Except.map, inverse?] at h
        split at h
        · cases h
        · next hvanishing =>
          by_cases hgamma : secrets.gamma = 0
          · simp only [hgamma, ↓reduceIte] at h
            cases h
          · by_cases hdelta : secrets.delta = 0
            · simp only [hdelta, ↓reduceIte, if_neg hgamma] at h
              cases h
            · simp only [if_neg hgamma, if_neg hdelta] at h
              exact ⟨d, values, hdefect, hdomain, hvalues, hvanishing, hgamma, hdelta,
                (Except.ok.inj h).symm⟩

/-- At a point of the domain the secrets are refused, whatever the others are. -/
theorem generateKeys_of_vanishing {secrets : Secrets F} {groups : PairingGroups F G₁ G₂ T}
    {s : ConstraintSystem F} {d : Domain} (hdefect : s.defect? = none)
    (hdomain : (QuadraticProgram.ofSystem s).domain? = some d)
    (htau : d.vanishing secrets.tau = 0) :
    secrets.generateKeys groups s = Failure.reject .degenerateSecrets := by
  obtain ⟨values, hvalues⟩ := QuadraticProgram.exists_valuesOn (d := d)
    (ConstraintSystem.fits_of_defect? hdefect).1 secrets.tau
  obtain ⟨-, -, -, -, -, hvanishing, -⟩ := QuadraticProgram.valuesOn?_eq_some hvalues
  simp only [generateKeys, hdefect, QuadraticProgram.values_eq hdomain hvalues, bind, Except.bind]
  rw [if_pos (hvanishing.trans htau)]

/-- Anywhere else they yield keys, provided the two that are divided by are not zero. -/
theorem exists_generates (secrets : Secrets F) (groups : PairingGroups F G₁ G₂ T)
    {s : ConstraintSystem F} {d : Domain} (hdefect : s.defect? = none)
    (hdomain : (QuadraticProgram.ofSystem s).domain? = some d)
    (htau : d.vanishing secrets.tau ≠ 0) (hgamma : secrets.gamma ≠ 0)
    (hdelta : secrets.delta ≠ 0) :
    ∃ pk values, secrets.generateKeys groups s = .ok pk ∧
      secrets.Generates groups s pk d values := by
  obtain ⟨values, hvalues⟩ := QuadraticProgram.exists_valuesOn (d := d)
    (ConstraintSystem.fits_of_defect? hdefect).1 secrets.tau
  obtain ⟨-, -, -, -, -, hvanishing, -⟩ := QuadraticProgram.valuesOn?_eq_some hvalues
  have hne : values.vanishing ≠ 0 := by rwa [hvanishing]
  refine ⟨_, values, ?_, hdefect, hdomain, hvalues, hne, hgamma, hdelta, rfl⟩
  simp only [generateKeys, hdefect, QuadraticProgram.values_eq hdomain hvalues, bind, Except.bind,
    inverse?, if_neg hne, if_neg hgamma, if_neg hdelta]

namespace Generates

variable {secrets : Secrets F} {groups : PairingGroups F G₁ G₂ T} {s : ConstraintSystem F}
  {pk : ProvingKey F G₁ G₂} {d : Domain} {values : ProgramValues F}

theorem fits (h : secrets.Generates groups s pk d values) : (QuadraticProgram.ofSystem s).Fits :=
  (ConstraintSystem.fits_of_defect? h.defect).1

theorem numColumns_eq (h : secrets.Generates groups s pk d values) :
    (QuadraticProgram.ofSystem s).numColumns = s.numColumns :=
  (ConstraintSystem.fits_of_defect? h.defect).2.1

theorem numStatement_le (h : secrets.Generates groups s pk d values) :
    s.numStatement ≤ s.numColumns := by
  rw [← h.numColumns_eq]
  exact h.fits.statement_le

theorem log_le (h : secrets.Generates groups s pk d values) : d.log ≤ RadixTwo.maxLog F :=
  (Domain.log_le_of_forSize? h.domain).1

theorem minDomainSize_le (h : secrets.Generates groups s pk d values) :
    (QuadraticProgram.ofSystem s).minDomainSize ≤ d.size :=
  (Domain.log_le_of_forSize? h.domain).2

/-- A key is generated only for a system whose rows have room in the domain. -/
theorem fitsDomain [LawfulRadixTwo F] (h : secrets.Generates groups s pk d values) (z : List F) :
    (QuadraticProgram.ofSystem s).FitsDomain d z :=
  QuadraticProgram.fitsDomain_of_fits h.fits (Domain.isPrimitiveRoot h.log_le) h.minDomainSize_le

/-- Weighed by an assignment, the column values are the rows' values weighed by the Lagrange
polynomials. -/
theorem combines (h : secrets.Generates groups s pk d values) {z : List F}
    (hz : z.length = s.numColumns) :
    (QuadraticProgram.ofSystem s).Combines (d.lagrange secrets.tau) z values := by
  rw [← h.numColumns_eq] at hz
  exact QuadraticProgram.combines_of_valuesOn? h.fits h.minDomainSize_le hz h.values_eq

theorem lengths (h : secrets.Generates groups s pk d values) :
    values.a.length = s.numColumns ∧ values.b.length = s.numColumns ∧
      values.c.length = s.numColumns := by
  have hcombines := h.combines (z := List.replicate s.numColumns 0) List.length_replicate
  rw [← h.numColumns_eq]
  exact ⟨hcombines.length_a, hcombines.length_b, hcombines.length_c⟩

theorem length_combined_eq (h : secrets.Generates groups s pk d values) :
    (secrets.combined values).length = s.numColumns :=
  length_combined h.lengths.1 h.lengths.2.1 h.lengths.2.2

theorem vanishing_eq (h : secrets.Generates groups s pk d values) :
    values.vanishing = d.vanishing secrets.tau := by
  obtain ⟨-, -, -, -, -, hvanishing, -⟩ := QuadraticProgram.valuesOn?_eq_some h.values_eq
  exact hvanishing

theorem domainSize_eq (h : secrets.Generates groups s pk d values) :
    values.domainSize = d.size := by
  obtain ⟨-, -, -, -, -, -, hsize⟩ := QuadraticProgram.valuesOn?_eq_some h.values_eq
  exact hsize

theorem key_numColumns (h : secrets.Generates groups s pk d values) :
    pk.numColumns = s.numColumns := by
  rw [h.key, ProvingKey.numColumns, ← h.lengths.1]
  exact groups.first.length_ofScalars values.a

/-- The verifying key holds the secrets and the statement's scalars as points. -/
theorem key_verifying (h : secrets.Generates groups s pk d values) :
    pk.verifying = ⟨groups.first.multiple secrets.alpha, groups.second.multiple secrets.beta,
      groups.second.multiple secrets.gamma, groups.second.multiple secrets.delta,
      groups.first.ofScalars (secrets.statementScalars values s.numStatement)⟩ := by
  rw [h.key]
  rfl

theorem key_lQuery (h : secrets.Generates groups s pk d values) :
    pk.lQuery = groups.first.ofScalars (secrets.restScalars values s.numStatement) := by
  rw [h.key]
  rfl

theorem key_hQuery (h : secrets.Generates groups s pk d values) :
    pk.hQuery = groups.first.ofScalars (secrets.quotientScalars values) := by
  rw [h.key]
  rfl

theorem length_statementScalars (h : secrets.Generates groups s pk d values) :
    (secrets.statementScalars values s.numStatement).length = s.numStatement := by
  rw [statementScalars, List.length_map, List.length_take, h.length_combined_eq]
  exact Nat.min_eq_left h.numStatement_le

theorem key_numStatement (h : secrets.Generates groups s pk d values) :
    pk.numStatement = s.numStatement := by
  rw [ProvingKey.numStatement, h.key_verifying]
  exact (PointGroup.length_ofScalars _ _).trans h.length_statementScalars

theorem length_hQuery (h : secrets.Generates groups s pk d values) :
    pk.hQuery.length + 1 = d.size := by
  have hpos := d.size_pos
  rw [h.key_hQuery, PointGroup.length_ofScalars, quotientScalars, List.length_map, length_powers,
    h.domainSize_eq]
  omega

theorem key_program (h : secrets.Generates groups s pk d values) :
    pk.program = QuadraticProgram.ofSystem s := by
  rw [h.key]
  rfl

/-- A generated key has no fault. -/
theorem shapeFault?_eq_none (h : secrets.Generates groups s pk d values) :
    pk.shapeFault? = none := by
  have hcolumns := h.numColumns_eq
  obtain ⟨hfits, hwidth_a, hwidth_b, hwidth_c⟩ := ConstraintSystem.fits_of_defect? h.defect
  have hle := h.numStatement_le
  have hquery₁ : pk.bQuery₁.length = s.numColumns := by
    rw [h.key, ← h.lengths.2.1]
    exact groups.first.length_ofScalars values.b
  have hquery₂ : pk.bQuery₂.length = s.numColumns := by
    rw [h.key, ← h.lengths.2.1]
    exact groups.second.length_ofScalars values.b
  have hrest : pk.lQuery.length + s.numStatement = s.numColumns := by
    rw [h.key_lQuery, PointGroup.length_ofScalars, restScalars, List.length_map, List.length_drop,
      h.length_combined_eq]
    omega
  have hmatrix : ∀ m : Matrix F, m.width = s.numColumns →
      m.height = (QuadraticProgram.ofSystem s).numConstraints →
      m.columnsBelow s.numColumns = true → pk.matrixFault? m = none := by
    intro m hwidth hheight hbelow
    rw [ProvingKey.matrixFault?, h.key_numColumns, h.key_program, if_pos hbelow,
      if_neg (by simp [hwidth, hheight])]
  have hstatement : (QuadraticProgram.ofSystem s).numStatement = s.numStatement := rfl
  rw [ProvingKey.shapeFault?, h.key_numColumns, h.key_numStatement, h.key_program, hstatement,
    if_neg (by simp [hquery₁, hquery₂]), if_neg (by simp [hrest]),
    hmatrix (QuadraticProgram.ofSystem s).a hwidth_a rfl (hcolumns ▸ hfits.below_a),
    hmatrix (QuadraticProgram.ofSystem s).b hwidth_b hfits.height_b (hcolumns ▸ hfits.below_b),
    hmatrix (QuadraticProgram.ofSystem s).c hwidth_c hfits.height_c (hcolumns ▸ hfits.below_c)]
  rfl

/-- The prover accepts its key and every assignment of the right length. -/
theorem prover_eq [LawfulRadixTwo F] (h : secrets.Generates groups s pk d values) {w : Witness F}
    (hw : w.values.length = s.numColumns) :
    pk.prover groups w = .ok (pk.blindedProof groups w.values
      ((QuadraticProgram.ofSystem s).quotientCoefficients d w.values)) := by
  have hfits := h.fitsDomain w.values
  have hcolumns : w.values.length = (QuadraticProgram.ofSystem s).numColumns := by
    rw [hw, h.numColumns_eq]
  have hlength := QuadraticProgram.length_quotientCoefficients hfits.root
    (QuadraticProgram.ofSystem s) w.values
  rw [ProvingKey.prover, h.key_numColumns, if_neg (by simp [hw]), h.shapeFault?_eq_none,
    h.key_program]
  simp only [QuadraticProgram.quotient_eq h.fits h.domain hcolumns hfits, bind, Except.bind]
  rw [if_neg (by simp [hlength, h.length_hQuery])]

end Generates

end Secrets

end CircuitProof
