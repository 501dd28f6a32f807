import Mathlib.Algebra.Field.Basic
import Mathlib.Tactic.Ring
import CircuitProof.Linear.Combination

/-!
# The value of a combination

Sorting, merging and dropping zeros keep the inner product of a row with every assignment, so each
operation on combinations acts on their values as it is called. A column bound of the operands is
one of the result, and below it only the assignment's values below it are read.
-/

namespace CircuitProof

variable {F : Type}

namespace Row

def Below (row : Row F) (bound : Nat) : Prop := ∀ term ∈ row, term.1 < bound

theorem below_nil (bound : Nat) : Below ([] : Row F) bound := by simp [Below]

theorem below_cons {term : Nat × F} {row : Row F} {bound : Nat} :
    Below (term :: row) bound ↔ term.1 < bound ∧ Below row bound := by
  simp [Below]

theorem below_append {row other : Row F} {bound : Nat} :
    Below (row ++ other) bound ↔ Below row bound ∧ Below other bound := by
  simp [Below, or_imp, forall_and]

theorem Below.mono {row : Row F} {bound larger : Nat} (h : Below row bound) (hle : bound ≤ larger) :
    Below row larger := fun term hterm => Nat.lt_of_lt_of_le (h term hterm) hle

theorem below_insert [Add F] {column bound : Nat} {coefficient : F} {row : Row F}
    (hcolumn : column < bound) (hrow : Below row bound) :
    Below (insert column coefficient row) bound := by
  induction row with
  | nil => exact below_cons.mpr ⟨hcolumn, hrow⟩
  | cons term rest ih =>
    obtain ⟨hterm, hrest⟩ := below_cons.mp hrow
    unfold insert
    split
    · exact below_cons.mpr ⟨hcolumn, hrow⟩
    · split
      · exact below_cons.mpr ⟨hterm, hrest⟩
      · exact below_cons.mpr ⟨hterm, ih hrest⟩

theorem below_foldl_insert [Add F] {bound : Nat} {row acc : Row F} (hrow : Below row bound)
    (hacc : Below acc bound) :
    Below (row.foldl (fun acc term => insert term.1 term.2 acc) acc) bound := by
  induction row generalizing acc with
  | nil => exact hacc
  | cons term rest ih =>
    obtain ⟨hterm, hrest⟩ := below_cons.mp hrow
    exact ih hrest (below_insert hterm hacc)

theorem below_canonical [Zero F] [Add F] [DecidableEq F] {row : Row F} {bound : Nat}
    (h : Below row bound) : Below row.canonical bound := by
  intro term hterm
  exact below_foldl_insert h (below_nil bound) term ((List.mem_filter.mp hterm).1)

section
variable [Field F]

theorem eval_append (row other : Row F) (z : Nat → F) :
    eval (row ++ other) z = eval row z + eval other z := by
  induction row with
  | nil => simp
  | cons term rest ih =>
    obtain ⟨column, coefficient⟩ := term
    simp only [List.cons_append, eval_cons, ih]
    ring

/-- Merging terms of one column adds their coefficients. -/
theorem eval_insert (column : Nat) (coefficient : F) (row : Row F) (z : Nat → F) :
    eval (insert column coefficient row) z = coefficient * z column + eval row z := by
  induction row with
  | nil => rfl
  | cons term rest ih =>
    obtain ⟨c, k⟩ := term
    unfold insert
    split
    · rfl
    · split
      · next h =>
        subst h
        simp only [eval_cons]
        ring
      · simp only [eval_cons, ih]
        ring

theorem eval_foldl_insert (row acc : Row F) (z : Nat → F) :
    eval (row.foldl (fun acc term => insert term.1 term.2 acc) acc) z =
      eval acc z + eval row z := by
  induction row generalizing acc with
  | nil => simp
  | cons term rest ih =>
    obtain ⟨column, coefficient⟩ := term
    simp only [List.foldl_cons, ih, eval_insert, eval_cons]
    ring

theorem eval_filter_ne_zero [DecidableEq F] (row : Row F) (z : Nat → F) :
    eval (row.filter fun term => term.2 ≠ 0) z = eval row z := by
  induction row with
  | nil => rfl
  | cons term rest ih =>
    obtain ⟨column, coefficient⟩ := term
    by_cases h : coefficient = 0 <;> simp_all

/-- The canonical form keeps the value under every assignment. -/
@[simp] theorem eval_canonical [DecidableEq F] (row : Row F) (z : Nat → F) :
    eval row.canonical z = eval row z := by
  rw [canonical, eval_filter_ne_zero, eval_foldl_insert, eval_nil, zero_add]

theorem eval_scaled (row : Row F) (factor : F) (z : Nat → F) :
    eval (row.map fun term => (term.1, term.2 * factor)) z = eval row z * factor := by
  induction row with
  | nil => simp
  | cons term rest ih =>
    obtain ⟨column, coefficient⟩ := term
    simp only [List.map_cons, eval_cons, ih]
    ring

/-- Only the values below the bound are read. -/
theorem eval_congr {row : Row F} {bound : Nat} (hrow : Below row bound) {z z' : Nat → F}
    (h : ∀ column < bound, z column = z' column) : eval row z = eval row z' := by
  induction row with
  | nil => rfl
  | cons term rest ih =>
    obtain ⟨column, coefficient⟩ := term
    obtain ⟨hterm, hrest⟩ := below_cons.mp hrow
    rw [eval_cons, eval_cons, ih hrest, h column hterm]

end

end Row

/-- A list as an assignment of every column, zero past its end. -/
def valueAt [Zero F] (z : List F) (column : Nat) : F := z[column]?.getD 0

theorem valueAt_append_left [Zero F] (z more : List F) {column : Nat} (h : column < z.length) :
    valueAt (z ++ more) column = valueAt z column := by
  rw [valueAt, valueAt, List.getElem?_append_left h]

@[simp] theorem valueAt_append_length [Zero F] (z : List F) (value : F) (more : List F) :
    valueAt (z ++ value :: more) z.length = value := by
  simp [valueAt]

/-- Inside the assignment no column is missing. -/
theorem Row.eval?_of_below [Field F] {row : Row F} {z : List F} (h : row.Below z.length) :
    row.eval? z = some (row.eval (valueAt z)) := by
  apply Row.eval?_eq_some
  intro term hterm
  have hlt := h term hterm
  simp [valueAt, hlt]

namespace Combination

def Below (a : Combination F) (bound : Nat) : Prop := a.terms.Below bound

theorem Below.mono {a : Combination F} {bound larger : Nat} (h : a.Below bound)
    (hle : bound ≤ larger) : a.Below larger := Row.Below.mono h hle

theorem below_column [One F] {index bound : Nat} (h : index < bound) :
    (column index : Combination F).Below bound := by
  simpa [Below, Row.Below] using h

theorem below_zero (bound : Nat) : (0 : Combination F).Below bound := Row.below_nil bound

theorem below_constant [Zero F] [Add F] [DecidableEq F] {bound : Nat} (value : F)
    (h : 0 < bound) : (constant value).Below bound := by
  apply Row.below_canonical
  simpa [Row.Below, unitColumn] using h

theorem below_add [Zero F] [Add F] [DecidableEq F] {a b : Combination F} {bound : Nat}
    (ha : a.Below bound) (hb : b.Below bound) : (a + b).Below bound :=
  Row.below_canonical (Row.below_append.mpr ⟨ha, hb⟩)

section
variable [Zero F] [Add F] [Mul F] [DecidableEq F]

theorem below_scale {a : Combination F} {bound : Nat} (factor : F) (ha : a.Below bound) :
    (a.scale factor).Below bound := by
  apply Row.below_canonical
  intro term hterm
  obtain ⟨source, hsource, rfl⟩ := List.mem_map.mp hterm
  exact ha source hsource

variable [One F] [Neg F]

theorem below_neg {a : Combination F} {bound : Nat} (ha : a.Below bound) : (-a).Below bound :=
  below_scale _ ha

theorem below_sub {a b : Combination F} {bound : Nat} (ha : a.Below bound) (hb : b.Below bound) :
    (a - b).Below bound :=
  below_add ha (below_neg hb)

end

variable [Field F]

def eval (a : Combination F) (z : Nat → F) : F := a.terms.eval z

theorem eval?_of_below {a : Combination F} {z : List F} (h : a.Below z.length) :
    a.terms.eval? z = some (a.eval (valueAt z)) := Row.eval?_of_below h

theorem eval_congr {a : Combination F} {bound : Nat} (ha : a.Below bound) {z z' : Nat → F}
    (h : ∀ column < bound, z column = z' column) : a.eval z = a.eval z' :=
  Row.eval_congr ha h

@[simp] theorem eval_zero (z : Nat → F) : (0 : Combination F).eval z = 0 := rfl

@[simp] theorem eval_column (index : Nat) (z : Nat → F) :
    (column index : Combination F).eval z = z index := by
  simp [eval]

variable [DecidableEq F]

@[simp] theorem eval_constant (value : F) (z : Nat → F) :
    (constant value).eval z = value * z unitColumn := by
  simp [eval, constant]

@[simp] theorem eval_add (a b : Combination F) (z : Nat → F) :
    (a + b).eval z = a.eval z + b.eval z := by
  simp [eval, add_def, Row.eval_append]

@[simp] theorem eval_scale (a : Combination F) (factor : F) (z : Nat → F) :
    (a.scale factor).eval z = a.eval z * factor := by
  simp [eval, scale, Row.eval_scaled]

@[simp] theorem eval_neg (a : Combination F) (z : Nat → F) : (-a).eval z = -a.eval z := by
  simp [neg_def]

@[simp] theorem eval_sub (a b : Combination F) (z : Nat → F) :
    (a - b).eval z = a.eval z - b.eval z := by
  rw [sub_def, eval_add, eval_neg, sub_eq_add_neg]

omit [DecidableEq F] in
/-- A combination that folds to a constant has it as value wherever the unit column holds one. -/
theorem eval_of_asConstant? {a : Combination F} {value : F} (h : a.asConstant? = some value)
    {z : Nat → F} (hz : z unitColumn = 1) : a.eval z = value := by
  unfold asConstant? at h
  unfold eval
  split at h
  · next hterms => simp_all
  · next column coefficient hterms =>
    split at h
    · next hcolumn =>
      subst hcolumn
      simp_all
    · cases h
  · cases h

end Combination

end CircuitProof
