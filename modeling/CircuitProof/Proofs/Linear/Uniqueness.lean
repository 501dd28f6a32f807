import Mathlib.Algebra.BigOperators.Group.List.Basic
import Mathlib.Algebra.Group.Pi.Basic
import Mathlib.Data.List.Sort
import CircuitProof.Proofs.Bn254.Fields
import CircuitProof.Proofs.Linear.Canonical
import CircuitProof.Proofs.Linear.Evaluation

/-!
# Combinations as linear functions

A canonical row is told by its values alone: at the assignment that is one in a single column it has
that column's coefficient for value, and a row whose columns increase strictly is told by its terms.
So two combinations are equal as soon as they agree at every assignment, and one that has the same
value wherever the unit column holds one is that constant.
-/

namespace CircuitProof

variable {F : Type}

namespace Row

theorem exists_below (row : Row F) : ∃ bound, row.Below bound := by
  induction row with
  | nil => exact ⟨0, below_nil 0⟩
  | cons term rest ih =>
    obtain ⟨bound, hrest⟩ := ih
    refine ⟨max (term.1 + 1) bound, below_cons.mpr ⟨?_, hrest.mono (Nat.le_max_right _ _)⟩⟩
    exact Nat.le_max_left (term.1 + 1) bound

variable [Field F]

theorem eval_eq_sum (row : Row F) (z : Nat → F) :
    row.eval z = (row.map fun term => term.2 * z term.1).sum := by
  induction row with
  | nil => rfl
  | cons term rest ih => rw [List.map_cons, List.sum_cons, ← ih, eval_cons]

theorem eval_add_assignment (row : Row F) (z z' : Nat → F) :
    row.eval (z + z') = row.eval z + row.eval z' := by
  induction row with
  | nil => simp
  | cons term rest ih =>
    obtain ⟨column, coefficient⟩ := term
    rw [eval_cons, eval_cons, eval_cons, ih, Pi.add_apply]
    ring

theorem eval_single_of_notMem {row : Row F} {column : Nat} (h : column ∉ row.columns) :
    row.eval (Pi.single column 1) = 0 := by
  induction row with
  | nil => rfl
  | cons term rest ih =>
    obtain ⟨other, coefficient⟩ := term
    obtain ⟨hother, hrest⟩ := not_or.mp (mt List.mem_cons.mpr h)
    rw [eval_cons, ih hrest, Pi.single_eq_of_ne (Ne.symm hother), mul_zero, add_zero]

/-- The indicator of a column picks that column's coefficient. -/
theorem eval_single_of_mem {row : Row F} (hrow : row.columns.Pairwise (· < ·)) {column : Nat}
    {coefficient : F} (h : (column, coefficient) ∈ row) :
    row.eval (Pi.single column 1) = coefficient := by
  induction row with
  | nil => cases h
  | cons term rest ih =>
    obtain ⟨other, k⟩ := term
    obtain ⟨hfirst, hrest⟩ := List.pairwise_cons.mp hrow
    rcases List.mem_cons.mp h with heq | hmem
    · cases heq
      -- the columns behind the first are larger, so none of them is the same
      have hlater : column ∉ columns rest := fun hmem => Nat.lt_irrefl column (hfirst column hmem)
      rw [eval_cons, eval_single_of_notMem hlater, Pi.single_eq_same, mul_one, add_zero]
    · have hcolumn : column ∈ columns rest := List.mem_map_of_mem (f := Prod.fst) hmem
      have hne : other ≠ column := (hfirst column hcolumn).ne
      rw [eval_cons, ih hrest hmem, Pi.single_eq_of_ne hne, mul_zero, zero_add]

/-- The terms of a canonical row are the columns with their values, where these are not zero. -/
theorem Canonical.mem_iff {row : Row F} (h : row.Canonical) {column : Nat} {coefficient : F} :
    (column, coefficient) ∈ row ↔
      coefficient ≠ 0 ∧ row.eval (Pi.single column 1) = coefficient := by
  constructor
  · intro hmem
    exact ⟨h.ne_zero _ hmem, eval_single_of_mem h.increasing hmem⟩
  · rintro ⟨hne, rfl⟩
    by_cases hcolumn : column ∈ row.columns
    · obtain ⟨⟨_, k⟩, hmem, rfl⟩ := List.mem_map.mp hcolumn
      rwa [eval_single_of_mem h.increasing hmem]
    · exact absurd (eval_single_of_notMem hcolumn) hne

/-- Canonical rows with the same values in single columns are the same. -/
theorem Canonical.ext {row other : Row F} (h : row.Canonical) (h' : other.Canonical)
    (hvalues : ∀ column, row.eval (Pi.single column 1) = other.eval (Pi.single column 1)) :
    row = other := by
  have : Std.Irrefl fun s t : Nat × F => s.1 < t.1 := ⟨fun s => Nat.lt_irrefl s.1⟩
  have : Std.Antisymm fun s t : Nat × F => s.1 < t.1 :=
    ⟨fun s t hst hts => absurd hst (Nat.lt_asymm hts)⟩
  refine (List.pairwise_map.mp h.increasing).eq_of_mem_iff (List.pairwise_map.mp h'.increasing) ?_
  rintro ⟨column, coefficient⟩
  rw [h.mem_iff, h'.mem_iff, hvalues]

/-- A list of the first values of an assignment stands for it where its columns reach. -/
theorem eval?_map_range {row : Row F} {bound : Nat} (h : row.Below bound) (z : Nat → F) :
    row.eval? ((List.range bound).map z) = some (row.eval z) := by
  apply eval?_eq_some
  intro term hterm
  rw [List.getElem?_map, List.getElem?_range (h term hterm), Option.map_some]

end Row

namespace Combination

variable [Field F]

/-- Combinations that are canonical and have the same values in single columns are equal. -/
theorem Canonical.ext {a b : Combination F} (ha : a.Canonical) (hb : b.Canonical)
    (hvalues : ∀ column, a.eval (Pi.single column 1) = b.eval (Pi.single column 1)) : a = b := by
  cases a
  cases b
  exact congrArg mk (Row.Canonical.ext ha hb hvalues)

variable [DecidableEq F]

@[simp] theorem asConstant?_constant (value : F) : (constant value).asConstant? = some value := by
  by_cases h : value = 0
  · have hterms : (constant value).terms = [] := by
      simp [constant, Row.canonical, Row.insert, h]
    rw [asConstant?, hterms, h]
  · have hterms : (constant value).terms = [(unitColumn, value)] := by
      simp [constant, Row.canonical, Row.insert, h]
    rw [asConstant?, hterms]
    exact if_pos rfl

/-- What has one value wherever the unit column holds one is the constant of that value. -/
theorem Canonical.eq_constant {a : Combination F} (ha : a.Canonical) {value : F}
    (h : ∀ z : Nat → F, z unitColumn = 1 → a.eval z = value) : a = constant value := by
  have hunit : a.eval (Pi.single unitColumn 1) = value := h _ (Pi.single_eq_same _ _)
  refine ha.ext (canonical_constant value) fun column => ?_
  rw [eval_constant]
  by_cases hcolumn : column = unitColumn
  · rw [hcolumn, hunit, Pi.single_eq_same, mul_one]
  · -- adding one in another column leaves the value as it is
    have hne : unitColumn ≠ column := Ne.symm hcolumn
    have hboth := h (Pi.single unitColumn 1 + Pi.single column 1)
      (by rw [Pi.add_apply, Pi.single_eq_same, Pi.single_eq_of_ne hne, add_zero])
    rw [eval, Row.eval_add_assignment, ← eval, ← eval, hunit, add_eq_left] at hboth
    rw [hboth, Pi.single_eq_of_ne hne, mul_zero]

end Combination

/-- What is built from rows, constants and columns by the operations on combinations. -/
inductive LinearExpression (F : Type) where
  | ofRow (row : Row F)
  | zero
  | constant (value : F)
  | column (index : Nat)
  | add (left right : LinearExpression F)
  | sub (left right : LinearExpression F)
  | neg (inner : LinearExpression F)
  | scale (factor : F) (inner : LinearExpression F)

namespace LinearExpression

variable [Field F]

/-- The value under an assignment of the columns. A constant counts in units of the unit column, so it
stands for itself where that column holds one. -/
def value (z : Nat → F) : LinearExpression F → F
  | ofRow row => (row.map fun term => term.2 * z term.1).sum
  | zero => 0
  | constant value => value * z unitColumn
  | column index => z index
  | add left right => left.value z + right.value z
  | sub left right => left.value z - right.value z
  | neg inner => -inner.value z
  | scale factor inner => inner.value z * factor

variable [DecidableEq F]

/-- The combination that the operations build. -/
def combination : LinearExpression F → Combination F
  | ofRow row => .ofRow row
  | zero => 0
  | constant value => .constant value
  | column index => .column index
  | add left right => left.combination + right.combination
  | sub left right => left.combination - right.combination
  | neg inner => -inner.combination
  | scale factor inner => inner.combination.scale factor

/-- Every operation ends with a canonical row. -/
theorem canonical_combination (e : LinearExpression F) : e.combination.Canonical := by
  cases e with
  | ofRow row => exact Combination.canonical_ofRow row
  | zero => exact Combination.canonical_zero
  | constant value => exact Combination.canonical_constant value
  | column index => exact Combination.canonical_column index
  | add left right => exact Combination.canonical_add _ _
  | sub left right => exact Combination.canonical_sub _ _
  | neg inner => exact Combination.canonical_neg _
  | scale factor inner => exact Combination.canonical_scale _ factor

/-- The operations mean what they say, under every assignment. -/
theorem eval_combination (e : LinearExpression F) (z : Nat → F) :
    e.combination.eval z = e.value z := by
  induction e with
  | ofRow row =>
    rw [combination, value, Combination.eval, Combination.terms_ofRow, Row.eval_canonical,
      Row.eval_eq_sum]
  | zero => rfl
  | constant value => exact Combination.eval_constant value z
  | column index => exact Combination.eval_column index z
  | add left right ihl ihr => rw [combination, Combination.eval_add, ihl, ihr, value]
  | sub left right ihl ihr => rw [combination, Combination.eval_sub, ihl, ihr, value]
  | neg inner ih => rw [combination, Combination.eval_neg, ih, value]
  | scale factor inner ih => rw [combination, Combination.eval_scale, ih, value]

/-- On a list that covers the columns of the combination, whatever the columns behind it are given. -/
theorem eval?_combination {e : LinearExpression F} {z : List F}
    (hcovers : e.combination.Below z.length) {v : Nat → F}
    (hv : ∀ column < z.length, z[column]? = some (v column)) :
    e.combination.terms.eval? z = some (e.value v) := by
  rw [← eval_combination]
  exact Row.eval?_eq_some fun term hterm => hv term.1 (hcovers term hterm)

/-- Combinations are equal if they have the same value on every list that covers their columns. -/
theorem combination_eq_iff {e e' : LinearExpression F} :
    e.combination = e'.combination ↔
      ∀ z : List F, e.combination.Below z.length → e'.combination.Below z.length →
        e.combination.terms.eval? z = e'.combination.terms.eval? z := by
  refine ⟨fun h z _ _ => by rw [h], fun h => ?_⟩
  obtain ⟨bound, hbound⟩ := e.combination.terms.exists_below
  obtain ⟨bound', hbound'⟩ := e'.combination.terms.exists_below
  replace hbound := hbound.mono (Nat.le_max_left bound bound')
  replace hbound' := hbound'.mono (Nat.le_max_right bound bound')
  refine e.canonical_combination.ext e'.canonical_combination fun column => ?_
  have hvalues := h ((List.range (max bound bound')).map (Pi.single column 1))
    (by rw [List.length_map, List.length_range]; exact hbound)
    (by rw [List.length_map, List.length_range]; exact hbound')
  rw [Row.eval?_map_range hbound, Row.eval?_map_range hbound'] at hvalues
  exact Option.some.inj hvalues

/-- A combination is a constant if it has that value on every list that covers its columns and begins
with one. -/
theorem asConstant?_combination_eq_some_iff {e : LinearExpression F} {k : F} :
    e.combination.asConstant? = some k ↔
      ∀ z : List F, e.combination.Below z.length → z[unitColumn]? = some 1 →
        e.combination.terms.eval? z = some k := by
  constructor
  · intro h z hcovers hunit
    have hvalue : valueAt z unitColumn = 1 := by rw [valueAt, hunit, Option.getD_some]
    rw [Combination.eval?_of_below hcovers, Combination.eval_of_asConstant? h hvalue]
  · intro h
    have hconstant : e.combination = .constant k := by
      refine e.canonical_combination.eq_constant fun v hv => ?_
      obtain ⟨bound, hbound⟩ := e.combination.terms.exists_below
      replace hbound := hbound.mono (Nat.le_succ bound)
      have hunit : (List.range (bound + 1))[unitColumn]? = some unitColumn :=
        List.getElem?_range (Nat.succ_pos bound)
      have hvalue := h ((List.range (bound + 1)).map v)
        (by rw [List.length_map, List.length_range]; exact hbound)
        (by rw [List.getElem?_map, hunit, Option.map_some, hv])
      rw [Row.eval?_map_range hbound] at hvalue
      exact Option.some.inj hvalue
    rw [hconstant, Combination.asConstant?_constant]

/-- Whatever operations a combination is built by, its columns increase strictly and no coefficient is
zero; on every list that covers its columns it has the value of what it was built from. So it is equal
to another one exactly if the two have the same values, and it is a constant exactly if it has one
value wherever the unit column holds one. -/
theorem combination_determined (e e' : LinearExpression F) :
    e.combination.Canonical ∧
    (∀ (z : List F) (v : Nat → F), e.combination.Below z.length →
      (∀ column < z.length, z[column]? = some (v column)) →
        e.combination.terms.eval? z = some (e.value v)) ∧
    (e.combination = e'.combination ↔
      ∀ z : List F, e.combination.Below z.length → e'.combination.Below z.length →
        e.combination.terms.eval? z = e'.combination.terms.eval? z) ∧
    ∀ k, e.combination.asConstant? = some k ↔
      ∀ z : List F, e.combination.Below z.length → z[unitColumn]? = some 1 →
        e.combination.terms.eval? z = some k :=
  ⟨e.canonical_combination, fun _ _ hcovers => eval?_combination hcovers, combination_eq_iff,
    fun _ => asConstant?_combination_eq_some_iff⟩

/-- Terms of column 3 that cancel, in a row that has column 1 twice, and a column that is added and taken
away again. -/
theorem combination_determined_cancelled :
    (ofRow [(3, 2), (1, 5), (3, -2), (1, 1)] : LinearExpression Scalar).combination =
        (scale 6 (column 1) : LinearExpression Scalar).combination ∧
      (sub (add (column 2) (constant 4)) (column 2) :
        LinearExpression Scalar).combination.asConstant? = some 4 := by
  constructor
  · obtain ⟨-, heval, hequal, -⟩ := combination_determined
      (ofRow [(3, 2), (1, 5), (3, -2), (1, 1)] : LinearExpression Scalar) (scale 6 (column 1))
    obtain ⟨-, heval', -⟩ := combination_determined
      (scale 6 (column 1) : LinearExpression Scalar) zero
    have hz : ∀ z : List Scalar, ∀ column < z.length, z[column]? = some (valueAt z column) := by
      intro z column hcolumn
      simp [valueAt, hcolumn]
    refine hequal.mpr fun z hcovers hcovers' => ?_
    rw [heval z (valueAt z) hcovers (hz z), heval' z (valueAt z) hcovers' (hz z)]
    refine congrArg some ?_
    simp only [value, List.map_cons, List.map_nil, List.sum_cons, List.sum_nil]
    ring
  · obtain ⟨-, heval, -, hconstant⟩ := combination_determined
      (sub (add (column 2) (constant 4)) (column 2) : LinearExpression Scalar) zero
    refine (hconstant 4).mpr fun z hcovers hunit => ?_
    rw [heval z (valueAt z) hcovers (fun column hcolumn => by simp [valueAt, hcolumn])]
    simp [value, valueAt, hunit]

end LinearExpression

end CircuitProof
