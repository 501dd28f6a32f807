import Mathlib.Algebra.Polynomial.Div
import Mathlib.LinearAlgebra.Lagrange
import CircuitProof.Proofs.Polynomial.Lagrange

/-!
# The quotient by the vanishing polynomial

Dividing point by point on the moved domain yields the coefficients of the polynomial that takes the
divided values there. Where `A · B - C` vanishes on the domain this is the exact quotient, and the
degrees leave its top coefficient zero.
-/

namespace CircuitProof

open Polynomial Finset

variable {F : Type} [Field F] [RadixTwo F]

namespace Domain

variable {d : Domain}

omit [RadixTwo F] in
/-- The values with zeros behind them, one value for each point. -/
def pad (d : Domain) (values : List F) : List F :=
  values ++ List.replicate (d.size - values.length) 0

omit [RadixTwo F] in
theorem length_pad {values : List F} (h : values.length ≤ d.size) :
    (d.pad values).length = d.size := by
  rw [pad, List.length_append, List.length_replicate]
  omega

omit [RadixTwo F] in
theorem valueAt_pad (values : List F) (i : Nat) : valueAt (d.pad values) i = valueAt values i := by
  rw [pad, valueAt, valueAt]
  by_cases hi : i < values.length
  · rw [List.getElem?_append_left hi]
  · rw [List.getElem?_append_right (by omega), List.getElem?_replicate,
      List.getElem?_eq_none (by omega)]
    split <;> rfl

/-- The polynomial with the given values on the domain, zero past their end. -/
noncomputable def interpolant (d : Domain) (values : List F) : F[X] :=
  ofCoefficients (d.interpolate (d.pad values))

/-- Where the values end, the polynomial is zero. -/
theorem eval_interpolant (hw : IsPrimitiveRoot (d.root F) d.size) {values : List F}
    (hlength : values.length ≤ d.size) {i : Nat} (hi : i < d.size) :
    (d.interpolant values).eval (d.root F ^ i) = valueAt values i := by
  rw [interpolant, eval_interpolate hw (length_pad hlength) hi, valueAt_pad]

/-- There are as many coefficients as points. -/
theorem degree_interpolant_lt (hw : IsPrimitiveRoot (d.root F) d.size) {values : List F}
    (hlength : values.length ≤ d.size) : (d.interpolant values).degree < d.size := by
  have hdegree := degree_ofCoefficients_lt (d.interpolate (d.pad values))
  rwa [length_interpolate hw (length_pad hlength)] at hdegree

theorem natDegree_interpolant_le (hw : IsPrimitiveRoot (d.root F) d.size) {values : List F}
    (hlength : values.length ≤ d.size) : (d.interpolant values).natDegree ≤ d.size - 1 := by
  have hcoeff := (degree_lt_iff_coeff_zero _ _).mp (degree_interpolant_lt hw hlength)
  exact natDegree_le_iff_coeff_eq_zero.mpr fun m hm => hcoeff m (by omega)

/-- The Lagrange values at a point weigh the values of every interpolated polynomial. -/
theorem eval_interpolant_of_weights [DecidableEq F] (hw : IsPrimitiveRoot (d.root F) d.size)
    {values : List F} (hlength : values.length ≤ d.size) (x : F) :
    (d.interpolant values).eval x = dot (d.lagrange x) values := by
  rw [interpolant, ← dot_lagrange x hw (length_pad hlength), pad, dot_append_zeros]

omit [RadixTwo F] in
/-- A polynomial that is not zero vanishes at no more points than its degree. -/
theorem encard_le_natDegree {f : F[X]} (hf : f ≠ 0) {points : Set F}
    (hpoints : ∀ x ∈ points, f.eval x = 0) : points.encard ≤ f.natDegree := by
  have hsubset : points ⊆ f.rootSet F := by
    intro x hx
    rw [mem_rootSet, coe_aeval_eq_eval]
    exact ⟨hf, hpoints x hx⟩
  calc points.encard
      ≤ (f.rootSet F).encard := Set.encard_le_encard hsubset
    _ = (f.rootSet F).ncard := (rootSet_finite f F).cast_ncard_eq.symm
    _ ≤ f.natDegree := by exact_mod_cast ncard_rootSet_le f F

/-- A polynomial of lower degree than the domain has points is known by its values on a moved
domain. -/
theorem eq_of_eval_eq (hw : IsPrimitiveRoot (d.root F) d.size) {g : F} (hg : g ≠ 0) {f h : F[X]}
    (hf : f.degree < d.size) (hh : h.degree < d.size)
    (heq : ∀ i < d.size, f.eval (g * d.root F ^ i) = h.eval (g * d.root F ^ i)) : f = h := by
  have hinjective : Set.InjOn (fun i => g * d.root F ^ i) (range d.size : Set Nat) := by
    intro i hi j hj hij
    rw [coe_range, Set.mem_Iio] at hi hj
    exact hw.pow_inj hi hj (mul_left_cancel₀ hg hij)
  refine eq_of_degrees_lt_of_eval_index_eq (range d.size) hinjective ?_ ?_ fun i hi => ?_
  · rwa [card_range]
  · rwa [card_range]
  · exact heq i (mem_range.mp hi)

omit [RadixTwo F] in
theorem eval_vanishing (d : Domain) (x : F) : (X ^ d.size - 1 : F[X]).eval x = d.vanishing x := by
  rw [vanishing_eq, eval_sub, eval_pow, eval_X, eval_one]

/-- The vanishing polynomial of a domain divides what vanishes at its points. -/
theorem vanishing_dvd (hw : IsPrimitiveRoot (d.root F) d.size) {f : F[X]}
    (hf : ∀ i < d.size, f.eval (d.root F ^ i) = 0) :
    f = (X ^ d.size - 1) * (f /ₘ (X ^ d.size - 1)) := by
  have hmonic : (X ^ d.size - 1 : F[X]).Monic := monic_X_pow_sub_C 1 d.size_pos.ne'
  have hdegree : (X ^ d.size - 1 : F[X]).degree = d.size := degree_X_pow_sub_C d.size_pos 1
  have hsplit := modByMonic_add_div f (X ^ d.size - 1)
  have hremainder : f %ₘ (X ^ d.size - 1) = 0 := by
    refine eq_of_eval_eq hw one_ne_zero ?_ ?_ fun i hi => ?_
    · rw [← hdegree]
      exact degree_modByMonic_lt f hmonic
    · rw [degree_zero]
      exact WithBot.bot_lt_coe d.size
    · have hvalue := congrArg (eval (d.root F ^ i)) hsplit
      rw [eval_add, eval_mul, eval_vanishing, vanishing_root hw, zero_mul, add_zero, hf i hi]
        at hvalue
      rw [one_mul, hvalue, eval_zero]
  rw [hremainder, zero_add] at hsplit
  exact hsplit.symm

omit [RadixTwo F] in
/-- The quotient of a product of two polynomials below the domain's size leaves the two highest
coefficients unused. -/
theorem degree_quotient_lt {f : F[X]} (hf : f.natDegree ≤ (d.size - 1) + (d.size - 1)) :
    (f /ₘ (X ^ d.size - 1)).degree < (d.size - 1 : Nat) := by
  have hmonic : (X ^ d.size - 1 : F[X]).Monic := monic_X_pow_sub_C 1 d.size_pos.ne'
  have hnat : (X ^ d.size - 1 : F[X]).natDegree = d.size := natDegree_X_pow_sub_C
  have hpos := d.size_pos
  by_cases hzero : f /ₘ (X ^ d.size - 1) = 0
  · rw [hzero, degree_zero]
    exact WithBot.bot_lt_coe _
  · rw [degree_eq_natDegree hzero, natDegree_divByMonic f hmonic, hnat]
    have hle : d.size ≤ f.natDegree := by
      by_contra hlt
      refine hzero ((divByMonic_eq_zero_iff hmonic).mpr (degree_lt_degree ?_))
      omega
    exact_mod_cast (by omega : f.natDegree - d.size < d.size - 1)

end Domain

namespace QuadraticProgram

omit [RadixTwo F] in
theorem mulVector?_of_below {m : Matrix F} {z : List F} (h : m.columnsBelow z.length = true) :
    m.mulVector? z = some (rowValues m z) := by
  have hrows := below_of_columnsBelow h
  rw [Matrix.mulVector?, rowValues]
  generalize m.rows = rows at hrows
  induction rows with
  | nil => rfl
  | cons row rows ih =>
    rw [List.mapM_cons, Row.eval?_of_below (hrows row List.mem_cons_self),
      ih fun r hr => hrows r (List.mem_cons_of_mem _ hr)]
    rfl

variable {d : Domain}

noncomputable def numerator (p : QuadraticProgram F) (d : Domain) (z : List F) : F[X] :=
  d.interpolant (rowValues p.a z ++ z.take p.numStatement) * d.interpolant (rowValues p.b z) -
    d.interpolant (rowValues p.c z)

/-- The values on the moved domain. -/
theorem onShiftedDomain_pad (hw : IsPrimitiveRoot (d.root F) d.size) {values : List F}
    (hlength : values.length ≤ d.size) :
    onShiftedDomain d (d.pad values) = (List.range d.size).map fun i =>
      (d.interpolant values).eval (RadixTwo.shift * d.root F ^ i) := by
  have hpad := Domain.length_pad hlength
  have hcoefficients : (distributePowers (d.interpolate (d.pad values))
      (RadixTwo.shift : F)).length = d.size := by
    rw [length_distributePowers, Domain.length_interpolate hw hpad]
  rw [onShiftedDomain, Domain.evaluate_eq_map hw hcoefficients]
  refine List.map_congr_left fun i _ => ?_
  rw [eval_distributePowers, Domain.interpolant]

/-- The lists that the quotient is computed from fit the domain. -/
structure FitsDomain (p : QuadraticProgram F) (d : Domain) (z : List F) : Prop where
  root : IsPrimitiveRoot (d.root F) d.size
  length_a : (rowValues p.a z ++ z.take p.numStatement).length ≤ d.size
  length_b : (rowValues p.b z).length ≤ d.size
  length_c : (rowValues p.c z).length ≤ d.size

theorem fitsDomain_of_fits {p : QuadraticProgram F} {z : List F} (hp : p.Fits)
    (hw : IsPrimitiveRoot (d.root F) d.size) (hd : p.minDomainSize ≤ d.size) :
    p.FitsDomain d z := by
  have ha : (rowValues p.a z).length = p.numConstraints := length_rowValues p.a z
  have hb : (rowValues p.b z).length = p.numConstraints := by
    rw [length_rowValues, hp.height_b]
  have hc : (rowValues p.c z).length = p.numConstraints := by
    rw [length_rowValues, hp.height_c]
  rw [minDomainSize] at hd
  refine ⟨hw, ?_, by omega, by omega⟩
  rw [List.length_append, List.length_take]
  omega

/-- The values of the quotient on the moved domain. -/
noncomputable def shiftedQuotient (p : QuadraticProgram F) (d : Domain) (z : List F)
    (i : Nat) : F :=
  (p.numerator d z).eval (RadixTwo.shift * d.root F ^ i) * (d.vanishing (RadixTwo.shift : F))⁻¹

/-- The coefficients of the polynomial with these values on the moved domain. -/
noncomputable def quotientCoefficients (p : QuadraticProgram F) (d : Domain) (z : List F) :
    List F :=
  distributePowers (d.interpolate ((List.range d.size).map (p.shiftedQuotient d z)))
    (RadixTwo.shift : F)⁻¹

theorem length_quotientCoefficients (hw : IsPrimitiveRoot (d.root F) d.size)
    (p : QuadraticProgram F) (z : List F) : (p.quotientCoefficients d z).length = d.size := by
  rw [quotientCoefficients, length_distributePowers, Domain.length_interpolate hw (by simp)]

theorem eval_quotientCoefficients [LawfulRadixTwo F] (hw : IsPrimitiveRoot (d.root F) d.size)
    (p : QuadraticProgram F) (z : List F) {i : Nat} (hi : i < d.size) :
    (ofCoefficients (p.quotientCoefficients d z)).eval (RadixTwo.shift * d.root F ^ i) =
      p.shiftedQuotient d z i := by
  have hshift : (RadixTwo.shift : F) ≠ 0 := LawfulRadixTwo.shift_ne_zero
  rw [quotientCoefficients, eval_distributePowers, ← mul_assoc, inv_mul_cancel₀ hshift, one_mul,
    Domain.eval_interpolate hw (by simp) hi, valueAt, List.getElem?_map, List.getElem?_range hi,
    Option.map_some, Option.getD_some]

/-- The division on the moved domain meets no index out of range and no zero. -/
theorem quotientOn?_eq {p : QuadraticProgram F} {z : List F} (hp : p.Fits)
    (hz : z.length = p.numColumns) (hd : p.FitsDomain d z) :
    p.quotientOn? d z = some (p.quotientCoefficients d z) := by
  have ha : p.a.mulVector? z = some (rowValues p.a z) :=
    mulVector?_of_below (by rw [hz]; exact hp.below_a)
  have hb : p.b.mulVector? z = some (rowValues p.b z) :=
    mulVector?_of_below (by rw [hz]; exact hp.below_b)
  have hc : p.c.mulVector? z = some (rowValues p.c z) :=
    mulVector?_of_below (by rw [hz]; exact hp.below_c)
  have hshape : (rowValues p.b z).length = (rowValues p.a z).length ∧
      (rowValues p.c z).length = (rowValues p.a z).length ∧ p.numStatement ≤ z.length := by
    rw [length_rowValues, length_rowValues, length_rowValues, hp.height_b, hp.height_c, hz]
    exact ⟨rfl, rfl, hp.statement_le⟩
  have hpad_a := onShiftedDomain_pad hd.root hd.length_a
  have hpad_b := onShiftedDomain_pad hd.root hd.length_b
  have hpad_c := onShiftedDomain_pad hd.root hd.length_c
  rw [Domain.pad] at hpad_a hpad_b hpad_c
  rw [quotientOn?, ha, hb, hc]
  simp only [Option.bind_eq_bind, Option.bind_some, if_pos hshape, hpad_a, hpad_b, hpad_c,
    List.zipWith_map, List.zipWith_self]
  congr 3
  refine List.map_congr_left fun i _ => ?_
  simp only [shiftedQuotient, numerator, eval_sub, eval_mul]

theorem quotient_eq {p : QuadraticProgram F} {ε : Type} {z : List F} (hp : p.Fits)
    (hdomain : p.domain? = some d) (hz : z.length = p.numColumns) (hd : p.FitsDomain d z) :
    p.quotient z = (.ok (some (p.quotientCoefficients d z)) : Except (Failure ε) _) := by
  rw [quotient, hdomain]
  simp only [quotientOn?_eq hp hz hd, Failure.inRange_some, Except.map]

/-- Every point of the moved domain takes the vanishing polynomial to the same value. -/
theorem eval_vanishing_shifted (hw : IsPrimitiveRoot (d.root F) d.size) (i : Nat) :
    (X ^ d.size - 1 : F[X]).eval (RadixTwo.shift * d.root F ^ i) =
      d.vanishing (RadixTwo.shift : F) := by
  have hroot : (d.root F ^ i) ^ d.size = 1 := by
    rw [← pow_mul, mul_comm, pow_mul, hw.pow_eq_one, one_pow]
  rw [eval_sub, eval_pow, eval_X, eval_one, mul_pow, hroot, mul_one, Domain.vanishing_eq]

/-- The product of two polynomials below the size stays below twice the size. -/
theorem natDegree_numerator_le {p : QuadraticProgram F} {z : List F} (hd : p.FitsDomain d z) :
    (p.numerator d z).natDegree ≤ (d.size - 1) + (d.size - 1) := by
  have ha := Domain.natDegree_interpolant_le hd.root hd.length_a
  have hb := Domain.natDegree_interpolant_le hd.root hd.length_b
  have hc := Domain.natDegree_interpolant_le hd.root hd.length_c
  refine (natDegree_sub_le _ _).trans (max_le ?_ ?_)
  · exact natDegree_mul_le.trans (Nat.add_le_add ha hb)
  · exact hc.trans (Nat.le_add_left _ _)

/-- A polynomial that the vanishing polynomial takes to the numerator has the computed
coefficients, provided its degree is below the size of the domain. -/
theorem ofCoefficients_quotientCoefficients [LawfulRadixTwo F] {p : QuadraticProgram F}
    {z : List F} (hw : IsPrimitiveRoot (d.root F) d.size) (hlog : d.log ≤ RadixTwo.maxLog F)
    {f : F[X]} (hf : f.degree < d.size) (hsplit : p.numerator d z = (X ^ d.size - 1) * f) :
    ofCoefficients (p.quotientCoefficients d z) = f := by
  have hvanishing : d.vanishing (RadixTwo.shift : F) ≠ 0 := by
    rw [Domain.vanishing_eq, Domain.size_eq]
    exact sub_ne_zero.mpr (LawfulRadixTwo.shift_pow_ne_one d.log hlog)
  refine Domain.eq_of_eval_eq hw LawfulRadixTwo.shift_ne_zero ?_ hf fun i hi => ?_
  · rw [← length_quotientCoefficients hw p z]
    exact degree_ofCoefficients_lt _
  · rw [eval_quotientCoefficients hw p z hi, shiftedQuotient, hsplit, eval_mul,
      eval_vanishing_shifted hw, mul_comm, ← mul_assoc, inv_mul_cancel₀ hvanishing, one_mul]

/-- Where the numerator vanishes on the domain, the computed coefficients are those of the exact
quotient, and the last one is zero. -/
theorem quotientCoefficients_exact [LawfulRadixTwo F] {p : QuadraticProgram F} {z : List F}
    (hd : p.FitsDomain d z) (hlog : d.log ≤ RadixTwo.maxLog F)
    (hzero : ∀ i < d.size, (p.numerator d z).eval (d.root F ^ i) = 0) :
    p.numerator d z = (X ^ d.size - 1) * ofCoefficients (p.quotientCoefficients d z) ∧
      valueAt (p.quotientCoefficients d z) (d.size - 1) = 0 := by
  have hsplit := Domain.vanishing_dvd hd.root hzero
  have hdegree := Domain.degree_quotient_lt (natDegree_numerator_le hd)
  have hle : ((d.size - 1 : Nat) : WithBot Nat) ≤ d.size := by
    exact_mod_cast Nat.sub_le d.size 1
  have hquotient := ofCoefficients_quotientCoefficients hd.root hlog
    (lt_of_lt_of_le hdegree hle) hsplit
  constructor
  · rw [hquotient]
    exact hsplit
  · rw [← coeff_ofCoefficients, hquotient]
    exact coeff_eq_zero_of_degree_lt hdegree

theorem eval_numerator {p : QuadraticProgram F} {z : List F} (hd : p.FitsDomain d z) {i : Nat}
    (hi : i < d.size) :
    (p.numerator d z).eval (d.root F ^ i) =
      valueAt (rowValues p.a z ++ z.take p.numStatement) i * valueAt (rowValues p.b z) i -
        valueAt (rowValues p.c z) i := by
  rw [numerator, eval_sub, eval_mul, Domain.eval_interpolant hd.root hd.length_a hi,
    Domain.eval_interpolant hd.root hd.length_b hi, Domain.eval_interpolant hd.root hd.length_c hi]

/-- An assignment that satisfies every row makes the numerator vanish on the domain: past the rows
`B` and `C` are zero. -/
theorem eval_numerator_eq_zero {p : QuadraticProgram F} {z : List F} (hp : p.Fits)
    (hd : p.FitsDomain d z)
    (hrows : ∀ i < p.numConstraints, valueAt (rowValues p.a z) i * valueAt (rowValues p.b z) i =
      valueAt (rowValues p.c z) i) {i : Nat} (hi : i < d.size) :
    (p.numerator d z).eval (d.root F ^ i) = 0 := by
  have hlength : (rowValues p.a z).length = p.numConstraints := length_rowValues p.a z
  rw [eval_numerator hd hi]
  by_cases hrow : i < p.numConstraints
  · rw [valueAt_append_left _ _ (by omega), hrows i hrow, sub_self]
  · have hb : p.b.height ≤ i := hp.height_b.trans_le (Nat.le_of_not_lt hrow)
    have hc : p.c.height ≤ i := hp.height_c.trans_le (Nat.le_of_not_lt hrow)
    rw [valueAt_rowValues_of_le z hb, valueAt_rowValues_of_le z hc, mul_zero, sub_self]

end QuadraticProgram

end CircuitProof
