import CircuitProof.Polynomial.QuadraticProgram
import CircuitProof.Proofs.Polynomial.Transform

/-!
# Values by Lagrange weights

The Lagrange weights of a point give the value there of the polynomial that interpolates any values;
at a point of the domain they pick one of them. So the values of the column polynomials, combined by
an assignment, are the value of the polynomial that interpolates the rows' inner products with the
assignment.
-/

namespace CircuitProof

open Finset

variable {F : Type} [Field F]

/-- The sum of the products of two lists, item by item as far as both reach. -/
def dot (xs ys : List F) : F := (List.zipWith (· * ·) xs ys).sum

@[simp] theorem dot_nil_left (ys : List F) : dot [] ys = 0 := rfl

@[simp] theorem dot_nil_right (xs : List F) : dot xs [] = 0 := by
  rw [dot, List.zipWith_nil_right, List.sum_nil]

@[simp] theorem dot_cons (x y : F) (xs ys : List F) :
    dot (x :: xs) (y :: ys) = x * y + dot xs ys := by
  rw [dot, List.zipWith_cons_cons, List.sum_cons, dot]

theorem dot_comm (xs ys : List F) : dot xs ys = dot ys xs := by
  rw [dot, dot, List.zipWith_comm]
  simp only [mul_comm]

theorem dot_append (xs ys ys' : List F) :
    dot xs (ys ++ ys') = dot xs ys + dot (xs.drop ys.length) ys' := by
  induction ys generalizing xs with
  | nil => simp
  | cons y ys ih =>
    cases xs with
    | nil => simp
    | cons x xs =>
      rw [List.cons_append, dot_cons, dot_cons, ih, List.length_cons, List.drop_succ_cons,
        add_assoc]

theorem dot_replicate_zero (xs : List F) (n : Nat) : dot xs (List.replicate n 0) = 0 := by
  induction xs generalizing n with
  | nil => rfl
  | cons x xs ih =>
    cases n with
    | zero => exact dot_nil_right _
    | succ n => rw [List.replicate_succ, dot_cons, ih, mul_zero, zero_add]

/-- Zeros past the end of a list do not count. -/
theorem dot_append_zeros (xs ys : List F) (n : Nat) :
    dot xs (ys ++ List.replicate n 0) = dot xs ys := by
  rw [dot_append, dot_replicate_zero, add_zero]

/-- Cutting either list cuts both. -/
theorem dot_take (xs ys : List F) (n : Nat) : dot (xs.take n) ys = dot xs (ys.take n) := by
  induction n generalizing xs ys with
  | zero => rw [List.take_zero, List.take_zero, dot_nil_left, dot_nil_right]
  | succ n ih =>
    cases xs with
    | nil => simp
    | cons x xs =>
      cases ys with
      | nil => simp
      | cons y ys => rw [List.take_succ_cons, List.take_succ_cons, dot_cons, dot_cons, ih]

/-- Adding a list to the front of another one. -/
theorem dot_add_front (zs xs es : List F) (hlength : es.length ≤ xs.length) :
    dot zs (List.zipWith (· + ·) (xs.take es.length) es ++ xs.drop es.length) =
      dot zs xs + dot zs es := by
  induction zs generalizing xs es with
  | nil => simp
  | cons z zs ih =>
    cases es with
    | nil => simp
    | cons e es =>
      cases xs with
      | nil => simp at hlength
      | cons x xs =>
        simp only [List.length_cons, List.take_succ_cons, List.drop_succ_cons,
          List.zipWith_cons_cons, List.cons_append, dot_cons,
          ih xs es (Nat.le_of_succ_le_succ hlength)]
        ring

theorem dot_map_mul (k : F) (xs ys : List F) : dot xs (ys.map (· * k)) = dot xs ys * k := by
  induction xs generalizing ys with
  | nil => simp
  | cons x xs ih =>
    cases ys with
    | nil => simp
    | cons y ys =>
      rw [List.map_cons, dot_cons, dot_cons, ih]
      ring

theorem sum_map_range (f : Nat → F) (n : Nat) :
    ((List.range n).map f).sum = ∑ i ∈ range n, f i := by
  induction n with
  | zero => simp
  | succ n ih =>
    rw [List.range_succ, List.map_append, List.sum_append, ih, sum_range_succ, List.map_singleton,
      List.sum_singleton]

theorem map_valueAt_range (values : List F) :
    (List.range values.length).map (valueAt values) = values := by
  refine List.ext_getElem (by simp) fun i hi hi' => ?_
  simp [valueAt, hi']

theorem dot_map_range (f : Nat → F) (values : List F) :
    dot ((List.range values.length).map f) values =
      ∑ i ∈ range values.length, f i * valueAt values i := by
  have hvalues := map_valueAt_range values
  calc dot ((List.range values.length).map f) values
      = dot ((List.range values.length).map f)
          ((List.range values.length).map (valueAt values)) := by rw [hvalues]
    _ = ∑ i ∈ range values.length, f i * valueAt values i := by
        rw [dot, List.zipWith_map, List.zipWith_self, sum_map_range]

/-! ## The weights -/

/-- The powers of a point give the value of the polynomial with the coefficients that they reach. -/
theorem dot_powers (cs : List F) (x : F) {m : Nat} (hm : m ≤ cs.length) :
    dot cs (powers x m) = (ofCoefficients (cs.take m)).eval x := by
  have htake : (cs.take m).length = m := by
    rw [List.length_take]
    omega
  have hpowers : powers x m = (powers x m).take m := by
    rw [List.take_of_length_le (by rw [length_powers])]
  have hsum := dot_map_range (fun i => x ^ i) (cs.take m)
  rw [htake, ← powers_eq_map] at hsum
  rw [hpowers, ← dot_take, dot_comm, hsum, eval_ofCoefficients, htake]
  exact sum_congr rfl fun i _ => mul_comm _ _

/-- A last coefficient that is zero can be left out. -/
theorem ofCoefficients_dropLast {cs : List F} (hlast : valueAt cs (cs.length - 1) = 0) :
    ofCoefficients (cs.take (cs.length - 1)) = ofCoefficients cs := by
  refine Polynomial.ext fun i => ?_
  rw [coeff_ofCoefficients, coeff_ofCoefficients]
  by_cases hi : i < cs.length - 1
  · rw [valueAt, valueAt, List.getElem?_take_of_lt hi]
  · have hcut : valueAt (cs.take (cs.length - 1)) i = 0 := by
      rw [valueAt, List.getElem?_eq_none (by rw [List.length_take]; omega), Option.getD_none]
    rcases Nat.eq_or_lt_of_le (Nat.not_lt.mp hi) with rfl | hlt
    · rw [hcut, hlast]
    · rw [hcut, valueAt, List.getElem?_eq_none (by omega), Option.getD_none]

namespace Domain

variable [RadixTwo F] [DecidableEq F]

omit [RadixTwo F] [DecidableEq F] in
/-- The Lagrange weight of a point, as the geometric sum that the inverse transform makes of it. -/
theorem lagrange_weight_eq {w x : F} {n i : Nat} (hw : IsPrimitiveRoot w n) (hi : i < n)
    (hx : x ^ n - 1 ≠ 0) :
    (x ^ n - 1) * w ^ i * ((n : F) * (x - w ^ i))⁻¹ =
      (∑ m ∈ range n, (x * (w⁻¹) ^ i) ^ m) * (n : F)⁻¹ := by
  have hne : w ^ i ≠ 0 := pow_ne_zero i (hw.ne_zero (by omega))
  have hpow : (w ^ i) ^ n = 1 := by rw [← pow_mul, mul_comm, pow_mul, hw.pow_eq_one, one_pow]
  have hdiff : x - w ^ i ≠ 0 := by
    intro heq
    rw [sub_eq_zero.mp heq, hpow, sub_self] at hx
    exact hx rfl
  have hratio : x * (w⁻¹) ^ i ≠ 1 := by
    intro hone
    rw [inv_pow, ← div_eq_mul_inv, div_eq_one_iff_eq hne] at hone
    exact hdiff (sub_eq_zero.mpr hone)
  have hratio_pow : (x * (w⁻¹) ^ i) ^ n = x ^ n := by
    rw [mul_pow, inv_pow, inv_pow, hpow, inv_one, mul_one]
  have hden : x * (w⁻¹) ^ i - 1 = (x - w ^ i) * (w ^ i)⁻¹ := by
    rw [inv_pow, sub_mul, mul_inv_cancel₀ hne]
  rw [geom_sum_eq hratio, hratio_pow, hden, mul_inv, div_eq_mul_inv, mul_inv, inv_inv]
  ring

theorem length_lagrange (d : Domain) (x : F) : (d.lagrange x).length = d.size := by
  rw [lagrange]
  split <;> simp [points]

/-- Outside of the domain, the weights of a point give the value there of the interpolating
polynomial. -/
theorem dot_lagrange_outside {d : Domain} {values : List F} {x : F}
    (hw : IsPrimitiveRoot (d.root F) d.size) (hlength : values.length = d.size)
    (hx : d.vanishing x ≠ 0) :
    dot (d.lagrange x) values = (ofCoefficients (d.interpolate values)).eval x := by
  have hweights : d.lagrange x = (List.range values.length).map fun i =>
      (∑ m ∈ range d.size, (x * (d.root F)⁻¹ ^ i) ^ m) * (d.size : F)⁻¹ := by
    rw [lagrange, if_neg hx, points_eq_map, List.map_map, hlength]
    rw [vanishing_eq] at hx ⊢
    exact List.map_congr_left fun i hi => lagrange_weight_eq hw (List.mem_range.mp hi) hx
  rw [hweights, dot_map_range, hlength, eval_interpolate_eq_sum hw hlength]
  exact sum_congr rfl fun i _ => mul_comm _ _

omit [DecidableEq F] in
/-- The points of the domain are the roots of its vanishing polynomial. -/
theorem vanishing_root {d : Domain} (hw : IsPrimitiveRoot (d.root F) d.size) (i : Nat) :
    d.vanishing (d.root F ^ i) = 0 := by
  rw [vanishing_eq, ← pow_mul, mul_comm, pow_mul, hw.pow_eq_one, one_pow, sub_self]

omit [DecidableEq F] in
/-- Where the vanishing polynomial is zero there is a point of the domain. -/
theorem exists_pow_eq_of_vanishing {d : Domain} {x : F} (hw : IsPrimitiveRoot (d.root F) d.size)
    (hx : d.vanishing x = 0) : ∃ i < d.size, d.root F ^ i = x := by
  have hpos : NeZero d.size := ⟨d.size_pos.ne'⟩
  rw [vanishing_eq, sub_eq_zero] at hx
  exact hw.eq_pow_of_pow_eq_one hx

/-- At a point of the domain the weights pick the value there. -/
theorem dot_lagrange_inside {d : Domain} {values : List F} {i : Nat}
    (hw : IsPrimitiveRoot (d.root F) d.size) (hlength : values.length = d.size) (hi : i < d.size) :
    dot (d.lagrange (d.root F ^ i)) values = valueAt values i := by
  have hweights : d.lagrange (d.root F ^ i) =
      (List.range values.length).map fun j => if d.root F ^ j = d.root F ^ i then 1 else 0 := by
    rw [lagrange, if_pos (vanishing_root hw i), points_eq_map, List.map_map, hlength]
    rfl
  rw [hweights, dot_map_range, hlength, sum_eq_single i]
  · rw [if_pos rfl, one_mul]
  · intro j hj hne
    rw [if_neg fun heq => hne (hw.pow_inj (mem_range.mp hj) hi heq), zero_mul]
  · intro hout
    exact absurd (mem_range.mpr hi) hout

/-- The weights of a point give the value there of the interpolating polynomial. -/
theorem dot_lagrange {d : Domain} {values : List F} (x : F)
    (hw : IsPrimitiveRoot (d.root F) d.size) (hlength : values.length = d.size) :
    dot (d.lagrange x) values = (ofCoefficients (d.interpolate values)).eval x := by
  by_cases hx : d.vanishing x = 0
  · obtain ⟨i, hi, rfl⟩ := exists_pow_eq_of_vanishing hw hx
    rw [dot_lagrange_inside hw hlength hi, eval_interpolate hw hlength hi]
  · exact dot_lagrange_outside hw hlength hx

end Domain

/-! ## The columns of a program -/

namespace QuadraticProgram

theorem coefficientIn_nil (column : Nat) : coefficientIn ([] : Row F) column = 0 := rfl

theorem coefficientIn_cons (term : Nat × F) (row : Row F) (column : Nat) :
    coefficientIn (term :: row) column =
      (if term.1 = column then term.2 else 0) + coefficientIn row column := by
  have hfold : ∀ start : F,
      row.foldl (fun sum term => if term.1 = column then sum + term.2 else sum) start =
        start + coefficientIn row column := by
    induction row with
    | nil => simp [coefficientIn]
    | cons head rest ih =>
      intro start
      rw [coefficientIn, List.foldl_cons, List.foldl_cons, ih, ih]
      split <;> ring
  rw [coefficientIn, List.foldl_cons, hfold]
  split <;> ring

/-- Combining the coefficients of a row by an assignment is the inner product with it. -/
theorem sum_coefficientIn {row : Row F} {width : Nat} (hrow : row.Below width) (z : Nat → F) :
    ∑ column ∈ range width, z column * coefficientIn row column = row.eval z := by
  induction row with
  | nil => simp [coefficientIn_nil]
  | cons term rest ih =>
    obtain ⟨hterm, hrest⟩ := Row.below_cons.mp hrow
    simp only [coefficientIn_cons, mul_add, sum_add_distrib, ih hrest]
    rw [Row.eval_cons, sum_eq_single term.1]
    · rw [if_pos rfl, mul_comm]
    · intro column _ hne
      rw [if_neg (Ne.symm hne), mul_zero]
    · intro hout
      exact absurd (mem_range.mpr hterm) hout

theorem columnValue_nil (weights : List F) (column : Nat) :
    columnValue ([] : List (Row F)) weights column = 0 := rfl

theorem columnValue_cons (row : Row F) (rows : List (Row F)) (weight : F) (weights : List F)
    (column : Nat) :
    columnValue (row :: rows) (weight :: weights) column =
      weight * coefficientIn row column + columnValue rows weights column := by
  rw [columnValue, columnValue, ← List.sum_eq_foldl, ← List.sum_eq_foldl, List.zipWith_cons_cons,
    List.sum_cons]

/-- Combining column values by an assignment combines the rows' inner products by the weights. -/
theorem sum_columnValue {rows : List (Row F)} {width : Nat} (hrows : ∀ row ∈ rows, row.Below width)
    (weights : List F) (z : Nat → F) :
    ∑ column ∈ range width, z column * columnValue rows weights column =
      dot weights (rows.map fun row => row.eval z) := by
  induction rows generalizing weights with
  | nil => simp [columnValue_nil]
  | cons row rows ih =>
    cases weights with
    | nil => simp [columnValue]
    | cons weight weights =>
      have hrest := ih (fun r hr => hrows r (List.mem_cons_of_mem _ hr)) weights
      simp only [columnValue_cons, mul_add, sum_add_distrib, hrest, List.map_cons, dot_cons]
      rw [← sum_coefficientIn (hrows row List.mem_cons_self) z, mul_sum]
      congr 1
      exact sum_congr rfl fun column _ => by ring

/-- The inner products of a matrix's rows with an assignment. -/
def rowValues (m : Matrix F) (z : List F) : List F := m.rows.map fun row => row.eval (valueAt z)

theorem length_rowValues (m : Matrix F) (z : List F) : (rowValues m z).length = m.height := by
  rw [rowValues, List.length_map, Matrix.height]

/-- Past the rows of a matrix there is nothing. -/
theorem valueAt_rowValues_of_le {m : Matrix F} (z : List F) {i : Nat} (h : m.height ≤ i) :
    valueAt (rowValues m z) i = 0 := by
  rw [valueAt, List.getElem?_eq_none (by rwa [length_rowValues]), Option.getD_none]

omit [Field F] in
theorem below_of_columnsBelow {m : Matrix F} {bound : Nat} (h : m.columnsBelow bound = true) :
    ∀ row ∈ m.rows, row.Below bound := by
  intro row hrow term hterm
  rw [Matrix.columnsBelow, List.all_eq_true] at h
  have hall := List.all_eq_true.mp (h row hrow) term hterm
  simpa using hall

/-- Summing over columns and over rows gives the same, because sums can be exchanged. -/
theorem dot_columnValues {m : Matrix F} {width : Nat} {weights values z : List F}
    (h : columnValues? m m.height width weights = some values) (hz : z.length = width) :
    dot z values = dot weights (rowValues m z) := by
  rw [columnValues?] at h
  have htake : m.rows.take m.height = m.rows := List.take_length
  rw [htake] at h
  split at h
  · next hrows =>
    obtain rfl := Option.some.inj h
    have hbelow : ∀ row ∈ m.rows, row.Below width :=
      below_of_columnsBelow (m := ⟨m.rows, width⟩) hrows.2
    subst hz
    rw [dot_comm, dot_map_range]
    calc ∑ i ∈ range z.length, columnValue m.rows (weights.take m.height) i * valueAt z i
        = ∑ i ∈ range z.length, valueAt z i * columnValue m.rows (weights.take m.height) i :=
          sum_congr rfl fun i _ => mul_comm _ _
      _ = dot (weights.take m.height) (rowValues m z) := sum_columnValue hbelow _ _
      _ = dot weights (rowValues m z) := by
          rw [dot_take, ← length_rowValues m z, List.take_length]
  · cases h

theorem length_columnValues {m : Matrix F} {height width : Nat} {weights values : List F}
    (h : columnValues? m height width weights = some values) : values.length = width := by
  rw [columnValues?] at h
  split at h
  · obtain rfl := Option.some.inj h
    rw [List.length_map, List.length_range]
  · cases h

/-- The three matrices of a program have the same height, and their columns exist. -/
structure Fits (p : QuadraticProgram F) : Prop where
  height_b : p.b.height = p.numConstraints
  height_c : p.c.height = p.numConstraints
  below_a : p.a.columnsBelow p.numColumns = true
  below_b : p.b.columnsBelow p.numColumns = true
  below_c : p.c.columnsBelow p.numColumns = true
  statement_le : p.numStatement ≤ p.numColumns

/-- What the column values at a point come to when an assignment combines them. -/
structure Combines (p : QuadraticProgram F) (weights z : List F) (values : ProgramValues F) :
    Prop where
  length_a : values.a.length = p.numColumns
  length_b : values.b.length = p.numColumns
  length_c : values.c.length = p.numColumns
  dot_a : dot z values.a = dot weights (rowValues p.a z ++ z.take p.numStatement)
  dot_b : dot z values.b = dot weights (rowValues p.b z)
  dot_c : dot z values.c = dot weights (rowValues p.c z)

variable [RadixTwo F] [DecidableEq F]

theorem valuesOn?_eq_some {p : QuadraticProgram F} {d : Domain} {tau : F}
    {values : ProgramValues F} (h : p.valuesOn? d tau = some values) :
    ∃ a, columnValues? p.a p.numConstraints p.numColumns (d.lagrange tau) = some a ∧
      columnValues? p.b p.numConstraints p.numColumns (d.lagrange tau) = some values.b ∧
      columnValues? p.c p.numConstraints p.numColumns (d.lagrange tau) = some values.c ∧
      values.a = List.zipWith (· + ·) (a.take p.numStatement)
        (((d.lagrange tau).drop p.numConstraints).take p.numStatement) ++ a.drop p.numStatement ∧
      values.vanishing = d.vanishing tau ∧ values.domainSize = d.size := by
  rw [valuesOn?] at h
  split at h
  · simp only [Option.bind_eq_bind, Option.bind_eq_some_iff] at h
    obtain ⟨a, ha, b, hb, c, hc, heq⟩ := h
    obtain rfl := Option.some.inj heq
    exact ⟨a, ha, hb, hc, rfl, rfl, rfl⟩
  · cases h

/-- The column values at a point, combined by an assignment, are the rows' inner products combined
by the Lagrange weights; those of the extra rows are the statement. -/
theorem combines_of_valuesOn? {p : QuadraticProgram F} {d : Domain} {tau : F}
    {values : ProgramValues F} {z : List F} (hp : p.Fits) (hd : p.minDomainSize ≤ d.size)
    (hz : z.length = p.numColumns) (h : p.valuesOn? d tau = some values) :
    p.Combines (d.lagrange tau) z values := by
  obtain ⟨a, ha, hb, hc, hvalues, -, -⟩ := valuesOn?_eq_some h
  have hlength_a := length_columnValues ha
  have hextra : (((d.lagrange tau).drop p.numConstraints).take p.numStatement).length =
      p.numStatement := by
    rw [List.length_take, List.length_drop, Domain.length_lagrange]
    rw [minDomainSize] at hd
    omega
  have hfront := dot_add_front z a
    (((d.lagrange tau).drop p.numConstraints).take p.numStatement) (by
      rw [hextra, hlength_a]
      exact hp.statement_le)
  rw [hextra, ← hvalues] at hfront
  have hstatement := hp.statement_le
  refine ⟨?_, length_columnValues hb, length_columnValues hc, ?_, ?_, ?_⟩
  · rw [hvalues, List.length_append, List.length_zipWith, List.length_take, List.length_drop,
      hextra, hlength_a]
    omega
  · rw [hfront, dot_columnValues ha hz, dot_comm z, dot_take, dot_append, length_rowValues]
    rfl
  · rw [← hp.height_b] at hb
    exact dot_columnValues hb hz
  · rw [← hp.height_c] at hc
    exact dot_columnValues hc hz

end QuadraticProgram

end CircuitProof
