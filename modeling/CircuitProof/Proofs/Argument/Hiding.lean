import CircuitProof.Proofs.Argument.Balance
import CircuitProof.Proofs.Circuit.Soundness
import CircuitProof.Proofs.System.Acceptance

/-!
# Proofs hide the witness

The blinding scalars move the first two points of a proof freely, and the balance fixes the third by
them and the statement. So another witness for the same statement yields the same proofs, under
blinding scalars moved by what the two witnesses make of the columns.
-/

namespace CircuitProof

variable {F G₁ G₂ T : Type} [Field F]

namespace Secrets

variable {secrets : Secrets F} (values : ProgramValues F)

/-- The blinding scalars under which the second assignment makes the scalars of the first two points
that the first one makes. -/
def reblinding (secrets : Secrets F) (values : ProgramValues F) (z z' : List F) :
    F × F ≃ F × F :=
  (Equiv.addRight ((dot z values.a - dot z' values.a) / secrets.delta)).prodCongr
    (Equiv.addRight ((dot z values.b - dot z' values.b) / secrets.delta))

/-- The new blinding scalar makes up for what the other assignment adds to `A`. -/
theorem scalarA_reblinding (hdelta : secrets.delta ≠ 0) (z z' : List F) (rs : F × F) :
    secrets.scalarA values z' (secrets.reblinding values z z' rs).1 =
      secrets.scalarA values z rs.1 := by
  simp only [scalarA, reblinding, Equiv.prodCongr_apply, Prod.map_fst, Equiv.coe_addRight]
  field_simp
  ring

theorem scalarB_reblinding (hdelta : secrets.delta ≠ 0) (z z' : List F) (rs : F × F) :
    secrets.scalarB values z' (secrets.reblinding values z z' rs).2 =
      secrets.scalarB values z rs.2 := by
  simp only [scalarB, reblinding, Equiv.prodCongr_apply, Prod.map_snd, Equiv.coe_addRight]
  field_simp
  ring

variable [RadixTwo F] [DecidableEq F] [LawfulRadixTwo F] {groups : PairingGroups F G₁ G₂ T}
  {s : ConstraintSystem F} {d : Domain} {pk : ProvingKey F G₁ G₂} {values : ProgramValues F}

/-- For satisfying assignments with the same statement, the third scalar is fixed by the first
two. -/
theorem Generates.scalarC_eq (h : secrets.Generates groups s pk d values) {z z' : List F}
    (hz : z.length = s.numColumns) (hz' : z'.length = s.numColumns)
    (hrows : ∀ row < s.numConstraints, s.rowHolds? z row = some true)
    (hrows' : ∀ row < s.numConstraints, s.rowHolds? z' row = some true)
    (hstatement : z.take s.numStatement = z'.take s.numStatement) {j k j' k' : F}
    (ha : secrets.scalarA values z' j' = secrets.scalarA values z j)
    (hb : secrets.scalarB values z' k' = secrets.scalarB values z k) :
    secrets.scalarC values s.numStatement z'
        ((QuadraticProgram.ofSystem s).quotientCoefficients d z') j' k' =
      secrets.scalarC values s.numStatement z
        ((QuadraticProgram.ofSystem s).quotientCoefficients d z) j k := by
  have hbalance := h.scalars_balance hz hrows j k
  have hbalance' := h.scalars_balance hz' hrows' j' k'
  rw [ha, hb, hbalance, hstatement] at hbalance'
  exact mul_right_cancel₀ h.delta_ne_zero (add_left_cancel (add_left_cancel hbalance')).symm

end Secrets

section
variable [RadixTwo F] {groups : PairingGroups F G₁ G₂ T} {pair : G₁ → G₂ → T}

theorem length_values_of_prover {pk : ProvingKey F G₁ G₂} {w : Witness F}
    {blind : F → F → Proof G₁ G₂} (h : pk.prover groups w = .ok blind) :
    w.values.length = pk.numColumns := by
  by_contra hlength
  rw [ProvingKey.prover, if_pos hlength] at h
  cases h

variable [DecidableEq F] [Mul T] [LawfulRadixTwo F] {system : ConstraintSystem F} {secrets : Secrets F}
  {pk : ProvingKey F G₁ G₂}

/-- Different blinding scalars never yield the same proof. -/
theorem blind_injective (hgroups : groups.PrimeOrder pair)
    (hkeys : secrets.generateKeys groups system = .ok pk) {w : Witness F}
    {blind : F → F → Proof G₁ G₂} (hblind : pk.prover groups w = .ok blind) :
    Function.Injective fun rs : F × F => blind rs.1 rs.2 := by
  obtain ⟨d, values, h⟩ := Secrets.generates_of_generateKeys hkeys
  have hlength := (length_values_of_prover hblind).trans h.key_numColumns
  obtain rfl := Except.ok.inj ((h.prover_eq hlength).symm.trans hblind)
  rintro ⟨r, k⟩ ⟨r', k'⟩ heq
  simp only [h.blindedProof_eq hgroups.first hgroups.second, Proof.mk.injEq] at heq
  obtain ⟨ha, hb, -⟩ := heq
  have hr : r * secrets.delta = r' * secrets.delta :=
    add_left_cancel (hgroups.first_multiple_injective ha)
  have hk : k * secrets.delta = k' * secrets.delta :=
    add_left_cancel (hgroups.second_multiple_injective hb)
  rw [mul_right_cancel₀ h.delta_ne_zero hr, mul_right_cancel₀ h.delta_ne_zero hk]

/-- Two witnesses that a system accepts for the same shown inputs yield the same proofs, under
blinding scalars that correspond one to one; and for one witness different blinding scalars yield
different proofs. -/
theorem prover_hides_witness (hgroups : groups.PrimeOrder pair) (hsystem : system.Built)
    (hkeys : secrets.generateKeys groups system = .ok pk) {w w' : Witness F}
    (hw : system.Accepted w) (hw' : system.Accepted w') (hshown : w.shown = w'.shown) :
    ∃ blind blind', pk.prover groups w = .ok blind ∧ pk.prover groups w' = .ok blind' ∧
      (∃ phi : F × F ≃ F × F, ∀ rs, blind rs.1 rs.2 = blind' (phi rs).1 (phi rs).2) ∧
      ∀ v blind, pk.prover groups v = .ok blind →
        Function.Injective fun rs : F × F => blind rs.1 rs.2 := by
  obtain ⟨d, values, h⟩ := Secrets.generates_of_generateKeys hkeys
  have hz := ConstraintSystem.satisfies_of_accepted hsystem hw
  have hz' := ConstraintSystem.satisfies_of_accepted hsystem hw'
  have hstatement : w.values.take system.numStatement = w'.values.take system.numStatement := by
    rw [hz.take_values, hz'.take_values, hshown]
  refine ⟨_, _, h.prover_eq hz.length_values, h.prover_eq hz'.length_values,
    ⟨secrets.reblinding values w.values w'.values, ?_⟩, ?_⟩
  · intro rs
    have ha := Secrets.scalarA_reblinding values h.delta_ne_zero w.values w'.values rs
    have hb := Secrets.scalarB_reblinding values h.delta_ne_zero w.values w'.values rs
    have hc := h.scalarC_eq hz.length_values hz'.length_values hz.rows hz'.rows hstatement ha hb
    rw [h.blindedProof_eq hgroups.first hgroups.second,
      h.blindedProof_eq hgroups.first hgroups.second, ha, hb, hc]
  · intro v blind hblind
    exact blind_injective hgroups hkeys hblind

end

/-- Seven and five, each divided by itself, yield the same proofs. -/
theorem prover_hides_witness_selfQuotient :
    ∃ pk blind blind',
      Secrets.generateKeys ⟨11, 2, 3, 5, 7⟩ (PairingGroups.exponentGroups Scalar)
        Circuit.selfQuotientSystem = .ok pk ∧
      pk.prover (PairingGroups.exponentGroups Scalar) ⟨[1, 1, 7, 1], 1⟩ = .ok blind ∧
      pk.prover (PairingGroups.exponentGroups Scalar) ⟨[1, 1, 5, 1], 1⟩ = .ok blind' ∧
      (∃ phi : Scalar × Scalar ≃ Scalar × Scalar,
        ∀ rs, blind rs.1 rs.2 = blind' (phi rs).1 (phi rs).2) ∧
      Function.Injective fun rs : Scalar × Scalar => blind rs.1 rs.2 := by
  obtain ⟨pk, values, hkeys, -⟩ := Secrets.exists_generates ⟨11, 2, 3, 5, 7⟩
    (PairingGroups.exponentGroups Scalar) (s := Circuit.selfQuotientSystem) (d := ⟨2⟩)
    (by decide +kernel) (by decide +kernel) (by decide +kernel) (by decide) (by decide)
  have hfive : Circuit.selfQuotientSystem.generateWitness [1] [5] = .ok ⟨[1, 1, 5, 1], 1⟩ := by
    decide +kernel
  obtain ⟨blind, blind', hblind, hblind', hphi, hinjective⟩ := prover_hides_witness
    (PairingGroups.exponentGroups_primeOrder Residue.exists_natCast)
    (.compiled Circuit.selfQuotient_compile) hkeys (.generated Circuit.selfQuotientSystem_generates)
    (.generated hfive) rfl
  exact ⟨pk, blind, blind', hkeys, hblind, hblind', hphi, hinjective _ _ hblind⟩

end CircuitProof
