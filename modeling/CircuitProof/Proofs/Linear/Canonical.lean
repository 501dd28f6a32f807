import Mathlib.Algebra.Field.Basic
import CircuitProof.Linear.Combination

/-!
# Canonical rows

Sorting and merging make the columns of a row increase strictly, and what has become zero is dropped
afterwards, so every operation on combinations yields a canonical row from whatever it is given.
-/

namespace CircuitProof

variable {F : Type}

namespace Row

/-- The columns increase strictly and no coefficient is zero. -/
structure Canonical [Zero F] (row : Row F) : Prop where
  increasing : row.columns.Pairwise (· < ·)
  ne_zero : ∀ term ∈ row, term.2 ≠ 0

theorem mem_columns_insert [Add F] {column other : Nat} {coefficient : F} {row : Row F}
    (h : other ∈ columns (insert column coefficient row)) : other = column ∨ other ∈ row.columns := by
  induction row with
  | nil => exact .inl (List.mem_singleton.mp h)
  | cons term rest ih =>
    unfold insert at h
    split at h
    · exact List.mem_cons.mp h
    · split at h
      · exact .inr h
      · rcases List.mem_cons.mp h with rfl | h
        · exact .inr List.mem_cons_self
        · exact (ih h).imp_right (List.mem_cons_of_mem _)

/-- A term goes where its column belongs, or joins the term of its column. -/
theorem increasing_insert [Add F] {column : Nat} {coefficient : F} {row : Row F}
    (h : row.columns.Pairwise (· < ·)) :
    (columns (insert column coefficient row)).Pairwise (· < ·) := by
  induction row with
  | nil => exact List.pairwise_singleton _ _
  | cons term rest ih =>
    obtain ⟨hterm, hrest⟩ := List.pairwise_cons.mp h
    unfold insert
    split
    · next hlt =>
      refine List.pairwise_cons.mpr ⟨fun other hother => ?_, h⟩
      rcases List.mem_cons.mp hother with rfl | hother
      · exact hlt
      · exact Nat.lt_trans hlt (hterm other hother)
    · next hge =>
      split
      · exact h
      · next hne =>
        refine List.pairwise_cons.mpr ⟨fun other hother => ?_, ih hrest⟩
        rcases mem_columns_insert hother with rfl | hother
        · exact Nat.lt_of_le_of_ne (Nat.le_of_not_lt hge) (Ne.symm hne)
        · exact hterm other hother

theorem increasing_foldl_insert [Add F] (row : Row F) {acc : Row F}
    (h : acc.columns.Pairwise (· < ·)) :
    (columns (row.foldl (fun acc term => insert term.1 term.2 acc) acc)).Pairwise (· < ·) := by
  induction row generalizing acc with
  | nil => exact h
  | cons term rest ih => exact ih (increasing_insert h)

/-- Whatever the row, sorting, merging and dropping zeros gives a canonical one. -/
theorem canonical_canonical [Zero F] [Add F] [DecidableEq F] (row : Row F) :
    row.canonical.Canonical where
  increasing :=
    (increasing_foldl_insert row .nil).sublist (List.filter_sublist.map Prod.fst)
  ne_zero term hterm := by simpa using (List.mem_filter.mp hterm).2

end Row

namespace Combination

/-- The terms are a canonical row. -/
def Canonical [Zero F] (a : Combination F) : Prop := a.terms.Canonical

theorem canonical_zero [Zero F] : (0 : Combination F).Canonical := ⟨.nil, nofun⟩

section
variable [Zero F] [Add F] [DecidableEq F]

theorem canonical_ofRow (row : Row F) : (ofRow row).Canonical := Row.canonical_canonical row

theorem canonical_constant (value : F) : (constant value).Canonical := canonical_ofRow _

theorem canonical_add (a b : Combination F) : (a + b).Canonical := canonical_ofRow _

variable [Mul F]

theorem canonical_scale (a : Combination F) (factor : F) : (a.scale factor).Canonical :=
  canonical_ofRow _

variable [One F] [Neg F]

theorem canonical_neg (a : Combination F) : (-a).Canonical := canonical_scale a (-1)

theorem canonical_sub (a b : Combination F) : (a - b).Canonical := canonical_add a (-b)

end

theorem canonical_column [Field F] (index : Nat) : (column index : Combination F).Canonical where
  increasing := List.pairwise_singleton _ _
  ne_zero term hterm := by
    obtain rfl : term = (index, 1) := List.mem_singleton.mp hterm
    exact one_ne_zero

end Combination

end CircuitProof
