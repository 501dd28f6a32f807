import CircuitProof.Proofs.Bn254.Domain
import CircuitProof.Proofs.Polynomial.Quotient

/-!
# The quotient identity and the rows

The column values at a point, combined by an assignment, make the numerator's value there. So where
every row holds, the computed quotient makes the identity true at every point; and the identity at
the points of the domain alone, where the vanishing polynomial is zero, makes every row hold.

Without its last coefficient the quotient leaves an excess, a polynomial that is zero exactly if
every row holds.
-/

namespace CircuitProof

namespace QuadraticProgram

open Polynomial

variable {F : Type} [Field F]

def Satisfied (p : QuadraticProgram F) (z : List F) : Prop :=
  ∀ row < p.numConstraints,
    valueAt (rowValues p.a z) row * valueAt (rowValues p.b z) row = valueAt (rowValues p.c z) row

instance [DecidableEq F] (p : QuadraticProgram F) (z : List F) : Decidable (p.Satisfied z) :=
  inferInstanceAs (Decidable (∀ row < _, _ = _))

/-- The rows of a matrix that fits are all there and stay below its width. -/
theorem exists_columnValues (m : Matrix F) {height width : Nat} (hheight : m.height = height)
    (hbelow : m.columnsBelow width = true) (weights : List F) :
    ∃ values, columnValues? m height width weights = some values := by
  have htake : m.rows.take height = m.rows := by
    rw [← hheight]
    exact List.take_length
  rw [columnValues?, htake]
  exact ⟨_, if_pos ⟨hheight, hbelow⟩⟩

variable [RadixTwo F] {p : QuadraticProgram F} {d : Domain}

/-- The columns of fitting matrices have values at every point. -/
theorem exists_valuesOn [DecidableEq F] (hp : p.Fits) (tau : F) :
    ∃ values, p.valuesOn? d tau = some values := by
  obtain ⟨a, ha⟩ := exists_columnValues p.a rfl hp.below_a (d.lagrange tau)
  obtain ⟨b, hb⟩ := exists_columnValues p.b hp.height_b hp.below_b (d.lagrange tau)
  obtain ⟨c, hc⟩ := exists_columnValues p.c hp.height_c hp.below_c (d.lagrange tau)
  rw [valuesOn?, if_pos hp.statement_le]
  simp only [numConstraints] at hb hc ⊢
  simp only [ha, hb, hc, Option.bind_eq_bind, Option.bind_some]
  exact ⟨_, rfl⟩

theorem values_eq [DecidableEq F] {ε : Type} {tau : F}
    {values : ProgramValues F} (hdomain : p.domain? = some d)
    (hvalues : p.valuesOn? d tau = some values) :
    p.values tau = (.ok (some values) : Except (Failure ε) _) := by
  rw [QuadraticProgram.values, hdomain]
  simp only [hvalues, Failure.inRange_some, Except.map]

/-- What an assignment makes of the column values at a point is the value of the numerator. -/
theorem Combines.eval_numerator_eq [DecidableEq F] {values : ProgramValues F} {z : List F} {tau : F}
    (h : p.Combines (d.lagrange tau) z values) (hd : p.FitsDomain d z) :
    dot z values.a * dot z values.b - dot z values.c = (p.numerator d z).eval tau := by
  rw [numerator, eval_sub, eval_mul, Domain.eval_interpolant_of_weights hd.root hd.length_a,
    Domain.eval_interpolant_of_weights hd.root hd.length_b,
    Domain.eval_interpolant_of_weights hd.root hd.length_c, h.dot_a, h.dot_b, h.dot_c]

/-- The numerator vanishes on the domain exactly if every row holds. -/
theorem satisfied_iff_eval_numerator {z : List F} (hp : p.Fits) (hd : p.FitsDomain d z)
    (hsize : p.minDomainSize ≤ d.size) :
    p.Satisfied z ↔ ∀ i < d.size, (p.numerator d z).eval (d.root F ^ i) = 0 := by
  constructor
  · intro hrows i hi
    exact eval_numerator_eq_zero hp hd hrows hi
  · intro hzero row hrow
    -- the domain has a point for every row, and more
    have hlt : row < d.size := by
      rw [minDomainSize] at hsize
      omega
    have hvalue := hzero row hlt
    have hlength : (rowValues p.a z).length = p.numConstraints := length_rowValues p.a z
    rw [eval_numerator hd hlt, valueAt_append_left _ _ (by omega)] at hvalue
    exact sub_eq_zero.mp hvalue

/-- The last coefficient as the last item of the list. -/
theorem getLast?_quotientCoefficients {z : List F} (hw : IsPrimitiveRoot (d.root F) d.size)
    (hlast : valueAt (p.quotientCoefficients d z) (d.size - 1) = 0) :
    (p.quotientCoefficients d z).getLast? = some 0 := by
  have hpos := d.size_pos
  have hlength := length_quotientCoefficients hw p z
  rw [valueAt, List.getElem?_eq_getElem (by omega), Option.getD_some] at hlast
  rw [List.getLast?_eq_getElem?, hlength, List.getElem?_eq_getElem (by omega), hlast]

variable [LawfulRadixTwo F]

/-- The identity between the numerator and the computed quotient holds at every point exactly if
every row does. -/
theorem numerator_eq_iff_satisfied {z : List F} (hp : p.Fits) (hdomain : p.domain? = some d) :
    (∀ tau, (p.numerator d z).eval tau =
        (ofCoefficients (p.quotientCoefficients d z)).eval tau * d.vanishing tau) ↔
      p.Satisfied z := by
  obtain ⟨hlog, hsize⟩ := Domain.log_le_of_forSize? hdomain
  have hroot : IsPrimitiveRoot (d.root F) d.size := Domain.isPrimitiveRoot hlog
  have hd : p.FitsDomain d z := fitsDomain_of_fits hp hroot hsize
  have hiff := satisfied_iff_eval_numerator hp hd hsize
  constructor
  · intro hidentity
    apply hiff.mpr
    intro i _
    rw [hidentity, Domain.vanishing_root hroot, mul_zero]
  · intro hrows tau
    obtain ⟨hsplit, -⟩ := quotientCoefficients_exact hd hlog (hiff.mp hrows)
    rw [hsplit, eval_mul, Domain.eval_vanishing, mul_comm]

/-- The column values exist at every point and so does the quotient, with one coefficient for each
point of the domain. Both sides of the quotient identity agree at every point exactly if every row
holds, and the last coefficient is zero then. -/
theorem quotient_identity_iff_satisfied [DecidableEq F] {ε : Type} {z : List F} (hp : p.Fits)
    (hdomain : p.domain? = some d) (hz : z.length = p.numColumns) :
    ∃ (h : List F) (values : F → ProgramValues F),
      p.quotient z = (.ok (some h) : Except (Failure ε) _) ∧ h.length = d.size ∧
      (∀ tau, p.values tau = (.ok (some (values tau)) : Except (Failure ε) _)) ∧
      ((∀ tau, dot z (values tau).a * dot z (values tau).b - dot z (values tau).c =
          (ofCoefficients h).eval tau * (values tau).vanishing) ↔ p.Satisfied z) ∧
      (p.Satisfied z → h.getLast? = some 0) := by
  obtain ⟨hlog, hsize⟩ := Domain.log_le_of_forSize? hdomain
  have hroot : IsPrimitiveRoot (d.root F) d.size := Domain.isPrimitiveRoot hlog
  have hd : p.FitsDomain d z := fitsDomain_of_fits hp hroot hsize
  choose values hvalues using fun tau => exists_valuesOn (d := d) hp tau
  have hnumerator : ∀ tau, dot z (values tau).a * dot z (values tau).b - dot z (values tau).c =
      (p.numerator d z).eval tau := by
    intro tau
    exact (combines_of_valuesOn? hp hsize hz (hvalues tau)).eval_numerator_eq hd
  have hvanishing : ∀ tau, (values tau).vanishing = d.vanishing tau := by
    intro tau
    obtain ⟨-, -, -, -, -, heq, -⟩ := valuesOn?_eq_some (hvalues tau)
    exact heq
  refine ⟨p.quotientCoefficients d z, values, quotient_eq hp hdomain hz hd,
    length_quotientCoefficients hroot p z, fun tau => values_eq hdomain (hvalues tau), ?_, ?_⟩
  · simp only [hnumerator, hvanishing]
    exact numerator_eq_iff_satisfied hp hdomain
  · intro hrows
    have hzero := (satisfied_iff_eval_numerator hp hd hsize).mp hrows
    exact getLast?_quotientCoefficients hroot (quotientCoefficients_exact hd hlog hzero).2

/-- The cube: the shown column 1 is the cube of the hidden column 2, by way of its square. -/
def cube : QuadraticProgram Scalar where
  a := ⟨[[(2, 1)], [(3, 1)]], 4⟩
  b := ⟨[[(2, 1)], [(2, 1)]], 4⟩
  c := ⟨[[(3, 1)], [(1, 1)]], 4⟩
  numStatement := 2

theorem quotient_identity_cube :
    ∃ (h : List Scalar) (values : Scalar → ProgramValues Scalar),
      cube.quotient [1, 27, 3, 9] = (.ok (some h) : Except (Failure Empty) _) ∧ h.length = 4 ∧
      (∀ tau, cube.values tau = (.ok (some (values tau)) : Except (Failure Empty) _)) ∧
      (∀ tau, dot [1, 27, 3, 9] (values tau).a * dot [1, 27, 3, 9] (values tau).b -
          dot [1, 27, 3, 9] (values tau).c =
        (ofCoefficients h).eval tau * (values tau).vanishing) ∧
      h.getLast? = some 0 := by
  have hfits : cube.Fits := ⟨rfl, rfl, by decide, by decide, by decide, by decide⟩
  have hrows : cube.Satisfied [1, 27, 3, 9] := by decide +kernel
  obtain ⟨h, values, hquotient, hlength, hvalues, hiff, hlast⟩ :=
    quotient_identity_iff_satisfied (d := ⟨2⟩) (z := [1, 27, 3, 9]) hfits (by decide) rfl
  exact ⟨h, values, hquotient, hlength, hvalues, hiff.mpr hrows, hlast hrows⟩

/-! ## The quotient without its last coefficient -/

/-- What the numerator has beyond the vanishing polynomial times the cut quotient. -/
noncomputable def excess (p : QuadraticProgram F) (d : Domain) (z : List F) : F[X] :=
  p.numerator d z -
    (X ^ d.size - 1) * ofCoefficients ((p.quotientCoefficients d z).take (d.size - 1))

omit [LawfulRadixTwo F] in
/-- At the points of the domain the vanishing polynomial contributes nothing. -/
theorem eval_excess_root {z : List F} (hw : IsPrimitiveRoot (d.root F) d.size) (i : Nat) :
    (p.excess d z).eval (d.root F ^ i) = (p.numerator d z).eval (d.root F ^ i) := by
  rw [excess, eval_sub, eval_mul, Domain.eval_vanishing, Domain.vanishing_root hw, zero_mul,
    sub_zero]

omit [LawfulRadixTwo F] in
/-- The cut quotient has a coefficient less than the domain has points, so the excess has no higher
degree than a product of two interpolating polynomials. -/
theorem natDegree_excess_le {z : List F} (hd : p.FitsDomain d z) :
    (p.excess d z).natDegree ≤ (d.size - 1) + (d.size - 1) := by
  have hcut := degree_ofCoefficients_lt ((p.quotientCoefficients d z).take (d.size - 1))
  have hlength := length_quotientCoefficients hd.root p z
  rw [List.length_take, hlength, Nat.min_eq_left (Nat.sub_le d.size 1)] at hcut
  refine (natDegree_sub_le _ _).trans (max_le (natDegree_numerator_le hd) ?_)
  generalize ofCoefficients ((p.quotientCoefficients d z).take (d.size - 1)) = f at hcut
  by_cases hf : f = 0
  · rw [hf, mul_zero, natDegree_zero]
    exact Nat.zero_le _
  · have hlt : f.natDegree < d.size - 1 := (natDegree_lt_iff_degree_lt hf).mpr hcut
    have hvanishing : (X ^ d.size - 1 : F[X]).natDegree = d.size := natDegree_X_pow_sub_C
    have hmul := natDegree_mul_le (p := (X ^ d.size - 1 : F[X])) (q := f)
    omega

/-- There is no excess exactly if every row holds. -/
theorem excess_eq_zero_iff {z : List F} (hp : p.Fits) (hdomain : p.domain? = some d) :
    p.excess d z = 0 ↔ p.Satisfied z := by
  obtain ⟨hlog, hsize⟩ := Domain.log_le_of_forSize? hdomain
  have hroot : IsPrimitiveRoot (d.root F) d.size := Domain.isPrimitiveRoot hlog
  have hd : p.FitsDomain d z := fitsDomain_of_fits hp hroot hsize
  constructor
  · intro hexcess
    refine (satisfied_iff_eval_numerator hp hd hsize).mpr fun i _ => ?_
    rw [← eval_excess_root hroot, hexcess, eval_zero]
  · intro hrows
    obtain ⟨hsplit, hlast⟩ := quotientCoefficients_exact hd hlog
      ((satisfied_iff_eval_numerator hp hd hsize).mp hrows)
    have hlength := length_quotientCoefficients hroot p z
    rw [← hlength] at hlast
    rw [excess, ← hlength, ofCoefficients_dropLast hlast, hlength, ← hsplit, sub_self]

end QuadraticProgram

end CircuitProof
