import CircuitProof.Proofs.Argument.Balance
import CircuitProof.Proofs.Bn254.Domain

/-!
# A proof verifies for one statement

A key that accepts one proof for two statements makes the statement's part come to the same for
both. Then the polynomial that combines the statement's columns by the differences of the two lists
is zero at the secret point. It is not the zero polynomial: at the point of a column's extra row in
`A` its value is the column's difference times a secret that is not zero, whatever the rows are.
-/

namespace CircuitProof

open Polynomial

variable {F G₁ G₂ T : Type} [Field F]

theorem dot_zipWith_sub {xs ys : List F} (hlength : xs.length = ys.length) (zs : List F) :
    dot (List.zipWith (· - ·) xs ys) zs = dot xs zs - dot ys zs := by
  induction xs generalizing ys zs with
  | nil =>
    obtain rfl : ys = [] := List.eq_nil_of_length_eq_zero hlength.symm
    simp
  | cons x xs ih =>
    obtain ⟨y, ys, rfl⟩ := List.exists_cons_of_length_eq_add_one hlength.symm
    cases zs with
    | nil => simp
    | cons z zs =>
      rw [List.zipWith_cons_cons, dot_cons, dot_cons, dot_cons, ih (by simpa using hlength)]
      ring

namespace QuadraticProgram

variable [RadixTwo F] {p : QuadraticProgram F} {d : Domain}

/-- The polynomial `β A + α B + C` of a program and an assignment. -/
noncomputable def combination (p : QuadraticProgram F) (d : Domain) (alpha beta : F) (z : List F) :
    F[X] :=
  C beta * d.interpolant (rowValues p.a z ++ z.take p.numStatement) +
    C alpha * d.interpolant (rowValues p.b z) + d.interpolant (rowValues p.c z)

theorem eval_combination (alpha beta : F) (z : List F) (x : F) :
    (p.combination d alpha beta z).eval x =
      beta * (d.interpolant (rowValues p.a z ++ z.take p.numStatement)).eval x +
        alpha * (d.interpolant (rowValues p.b z)).eval x +
        (d.interpolant (rowValues p.c z)).eval x := by
  simp only [combination, eval_add, eval_mul, eval_C]

/-- The degree stays below the size of the domain, so few values of `tau` are roots. -/
theorem natDegree_combination_le {z : List F} (hd : p.FitsDomain d z) (alpha beta : F) :
    (p.combination d alpha beta z).natDegree ≤ d.size - 1 := by
  have ha := Domain.natDegree_interpolant_le hd.root hd.length_a
  have hb := Domain.natDegree_interpolant_le hd.root hd.length_b
  have hc := Domain.natDegree_interpolant_le hd.root hd.length_c
  refine (natDegree_add_le _ _).trans (max_le ((natDegree_add_le _ _).trans (max_le ?_ ?_)) hc)
  · exact (natDegree_C_mul_le _ _).trans ha
  · exact (natDegree_C_mul_le _ _).trans hb

/-- At the point of a statement column's extra row only that column counts: the rows of the
constraints end before. -/
theorem eval_combination_extra [DecidableEq F] {z : List F} (hp : p.Fits) (hd : p.FitsDomain d z)
    (hsize : p.minDomainSize ≤ d.size) (alpha beta : F) {column : Nat}
    (hcolumn : column < p.numStatement) :
    (p.combination d alpha beta z).eval (d.root F ^ (p.numConstraints + column)) =
      beta * valueAt z column := by
  have hlt : p.numConstraints + column < d.size := by
    rw [minDomainSize] at hsize
    omega
  have hlength_a : (rowValues p.a z).length = p.numConstraints := length_rowValues p.a z
  have ha : valueAt (rowValues p.a z ++ z.take p.numStatement) (p.numConstraints + column) =
      valueAt z column := by
    rw [valueAt, valueAt, List.getElem?_append_right (by omega), hlength_a, Nat.add_sub_cancel_left,
      List.getElem?_take_of_lt hcolumn]
  have hb : p.b.height ≤ p.numConstraints + column := hp.height_b.trans_le (Nat.le_add_right _ _)
  have hc : p.c.height ≤ p.numConstraints + column := hp.height_c.trans_le (Nat.le_add_right _ _)
  rw [eval_combination, Domain.eval_interpolant hd.root hd.length_a hlt,
    Domain.eval_interpolant hd.root hd.length_b hlt,
    Domain.eval_interpolant hd.root hd.length_c hlt, ha, valueAt_rowValues_of_le z hb,
    valueAt_rowValues_of_le z hc, mul_zero, add_zero, add_zero]

end QuadraticProgram

/-- The differences of two statements, as an assignment of all columns. -/
def ConstraintSystem.difference (s : ConstraintSystem F) (x y : List F) : List F :=
  List.zipWith (· - ·) (1 :: x) (1 :: y) ++ List.replicate (s.numColumns - s.numStatement) 0

namespace ConstraintSystem

variable {s : ConstraintSystem F} {x y : List F}

theorem length_statement (hx : x.length = s.numShown) : (1 :: x).length = s.numStatement := by
  rw [List.length_cons, hx, numStatement, Nat.add_comm]

theorem length_difference (hx : x.length = s.numShown) (hy : y.length = s.numShown) :
    (s.difference x y).length = s.numColumns := by
  rw [difference, List.length_append, List.length_zipWith, length_statement hx, length_statement hy,
    List.length_replicate, numStatement, numColumns]
  omega

/-- Only the statement columns count, since the difference holds zeros in all others. -/
theorem dot_difference (hx : x.length = s.numShown) (hy : y.length = s.numShown) (zs : List F) :
    dot (s.difference x y) zs =
      dot (1 :: x) (zs.take s.numStatement) - dot (1 :: y) (zs.take s.numStatement) := by
  have hlength : (1 :: x).length = (1 :: y).length := by
    rw [length_statement hx, length_statement hy]
  rw [difference, dot_comm, dot_append_zeros, dot_comm, dot_zipWith_sub hlength, ← dot_take,
    ← dot_take, ← length_statement hx, List.take_length, hlength, List.take_length]

/-- Different statements differ in some column. -/
theorem exists_difference_ne_zero (hx : x.length = s.numShown) (hy : y.length = s.numShown)
    (hne : x ≠ y) : ∃ column < s.numStatement, valueAt (s.difference x y) column ≠ 0 := by
  by_contra! hall
  apply hne
  apply List.ext_getElem (hx.trans hy.symm)
  intro i hi hi'
  -- column 0 is the constant one, so input `i` is in column `i + 1`
  have hvalue := hall (i + 1) (by rw [numStatement]; omega)
  rw [difference, valueAt_append_left _ _ (by simp; omega), valueAt] at hvalue
  simpa [hi, hi', sub_eq_zero] using hvalue

end ConstraintSystem

namespace Secrets

variable [RadixTwo F] [DecidableEq F] {groups : PairingGroups F G₁ G₂ T} {pair : G₁ → G₂ → T}
  {s : ConstraintSystem F} {d : Domain} {secrets : Secrets F} {pk : ProvingKey F G₁ G₂}
  {values : ProgramValues F}

/-- The combined columns at the secret point are the combining polynomial's value there. -/
theorem Generates.dot_combined_eq_eval [LawfulRadixTwo F]
    (h : secrets.Generates groups s pk d values) {z : List F} (hz : z.length = s.numColumns) :
    dot z (secrets.combined values) =
      ((QuadraticProgram.ofSystem s).combination d secrets.alpha secrets.beta z).eval
        secrets.tau := by
  have hfits := h.fitsDomain z
  have hcombines := h.combines hz
  rw [h.dot_combined_eq hz, QuadraticProgram.eval_combination,
    Domain.eval_interpolant_of_weights hfits.root hfits.length_a,
    Domain.eval_interpolant_of_weights hfits.root hfits.length_b,
    Domain.eval_interpolant_of_weights hfits.root hfits.length_c, hcombines.dot_a, hcombines.dot_b,
    hcombines.dot_c]

variable [Mul T] [DecidableEq T] {x y : List F} {proof : Proof G₁ G₂}

/-- One proof accepted for two statements makes the statement's part come to the same for both. -/
theorem Generates.dot_difference_eq_zero (h : secrets.Generates groups s pk d values)
    (hgroups : groups.PrimeOrder pair) (hx : x.length = s.numShown) (hy : y.length = s.numShown)
    (haccepted : pk.verifying.verify groups x proof = .ok true)
    (haccepted' : pk.verifying.verify groups y proof = .ok true) :
    dot (s.difference x y) (secrets.combined values) = 0 := by
  have hwellFormed := malformed?_of_verify haccepted
  obtain ⟨c, hc⟩ := hgroups.exists_multiple (Proof.malformed?_eq_none_iff.mp hwellFormed).2.2
  rw [h.verify_eq hgroups.toLawful hx hwellFormed hc, Except.ok.injEq, decide_eq_true_iff]
    at haccepted
  rw [h.verify_eq hgroups.toLawful hy hwellFormed hc, Except.ok.injEq, decide_eq_true_iff]
    at haccepted'
  -- both verdicts compare the same pairing, that of the proof's first two points
  have hscalars := hgroups.pair_multiple_inj.mp (haccepted.symm.trans haccepted')
  have hstatement : dot (1 :: x) (secrets.statementScalars values s.numStatement) =
      dot (1 :: y) (secrets.statementScalars values s.numStatement) :=
    mul_right_cancel₀ h.gamma_ne_zero (add_right_cancel (add_left_cancel hscalars))
  rw [statementScalars, dot_map_mul, dot_map_mul] at hstatement
  rw [ConstraintSystem.dot_difference hx hy, sub_eq_zero]
  exact mul_right_cancel₀ (inv_ne_zero h.gamma_ne_zero) hstatement

omit [Mul T] [DecidableEq T] in
/-- The extra row of a column in which two statements differ keeps their differences from combining
to nothing. -/
theorem combination_difference_ne_zero [LawfulRadixTwo F] (hdefect : s.defect? = none)
    (hdomain : (QuadraticProgram.ofSystem s).domain? = some d) (alpha : F) {beta : F}
    (hbeta : beta ≠ 0) (hx : x.length = s.numShown) (hy : y.length = s.numShown) (hne : x ≠ y) :
    (QuadraticProgram.ofSystem s).combination d alpha beta (s.difference x y) ≠ 0 := by
  intro hzero
  obtain ⟨hfits, -, -⟩ := ConstraintSystem.fits_of_defect? hdefect
  obtain ⟨hlog, hsize⟩ := Domain.log_le_of_forSize? hdomain
  have hd : (QuadraticProgram.ofSystem s).FitsDomain d (s.difference x y) :=
    QuadraticProgram.fitsDomain_of_fits hfits (Domain.isPrimitiveRoot hlog) hsize
  obtain ⟨column, hcolumn, hvalue⟩ := ConstraintSystem.exists_difference_ne_zero hx hy hne
  have heval := QuadraticProgram.eval_combination_extra hfits hd hsize alpha beta hcolumn
  rw [hzero, eval_zero] at heval
  exact mul_ne_zero hbeta hvalue heval.symm

/-- There are fewer secret points than the domain has points at which a key accepts one and the same
proof for two different statements. -/
theorem encard_ambiguous_lt [LawfulRadixTwo F] (hgroups : groups.PrimeOrder pair)
    (hdefect : s.defect? = none) (hdomain : (QuadraticProgram.ofSystem s).domain? = some d)
    {alpha beta gamma delta : F} (hbeta : beta ≠ 0) (hx : x.length = s.numShown)
    (hy : y.length = s.numShown) (hne : x ≠ y) :
    {tau | ∃ pk proof,
        generateKeys ⟨tau, alpha, beta, gamma, delta⟩ groups s = .ok pk ∧
          pk.verifying.verify groups x proof = .ok true ∧
          pk.verifying.verify groups y proof = .ok true}.encard < d.size := by
  obtain ⟨hfits, -, -⟩ := ConstraintSystem.fits_of_defect? hdefect
  obtain ⟨hlog, hsize⟩ := Domain.log_le_of_forSize? hdomain
  have hlength := ConstraintSystem.length_difference hx hy
  have hd : (QuadraticProgram.ofSystem s).FitsDomain d (s.difference x y) :=
    QuadraticProgram.fitsDomain_of_fits hfits (Domain.isPrimitiveRoot hlog) hsize
  have hcombination := combination_difference_ne_zero hdefect hdomain alpha hbeta hx hy hne
  have hdegree := QuadraticProgram.natDegree_combination_le hd alpha beta
  have hlt : ((QuadraticProgram.ofSystem s).combination d alpha beta
      (s.difference x y)).natDegree < d.size := by
    have hpos := d.size_pos
    omega
  refine (Domain.encard_le_natDegree hcombination ?_).trans_lt (by exact_mod_cast hlt)
  rintro tau ⟨pk, proof, hkeys, haccepted, haccepted'⟩
  obtain ⟨d', values, h⟩ := generates_of_generateKeys hkeys
  obtain rfl : d' = d := Option.some.inj (h.domain.symm.trans hdomain)
  rw [← h.dot_combined_eq_eval hlength]
  exact h.dot_difference_eq_zero hgroups hx hy haccepted haccepted'

end Secrets

/-- One hidden column is the square of another. No row mentions the shown column. -/
def hiddenSquare : ConstraintSystem Scalar :=
  .ofMatrices ⟨[[(2, 1)]], 4⟩ ⟨[[(2, 1)]], 4⟩ ⟨[[(3, 1)]], 4⟩ 1 2

/-- A shown input that no row mentions is bound too: at most three secret points let one proof pass
for both one and two. -/
theorem encard_ambiguous_lt_hiddenSquare :
    {tau | ∃ pk proof,
      Secrets.generateKeys ⟨tau, 2, 3, 5, 7⟩ (PairingGroups.exponentGroups Scalar) hiddenSquare =
          .ok pk ∧
        pk.verifying.verify (PairingGroups.exponentGroups Scalar) [1] proof = .ok true ∧
        pk.verifying.verify (PairingGroups.exponentGroups Scalar) [2] proof = .ok true}.encard <
      4 :=
  Secrets.encard_ambiguous_lt (PairingGroups.exponentGroups_primeOrder Residue.exists_natCast)
    (d := ⟨2⟩) (by decide +kernel) (by decide +kernel) (by decide) rfl rfl (by decide)

end CircuitProof
